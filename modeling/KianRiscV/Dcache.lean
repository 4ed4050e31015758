/-
# The write-through data cache

`dcache.v`: a controller of four states around `associative_cache`.  A request is looked up
in `S0`; a read miss fetches the word in `S1` and fills, a read hit is answered in `S2`, and
every write goes to the RAM in `S3`, where a hit merges into the line, a full-word miss
allocates and a partial miss leaves the lines alone.  The registers that nothing reads
(`hit_occured`, `req_is_write`, `req_sel_way`, `mem_data_buf`) are left out.
-/
import KianRiscV.WriteMask

namespace KianRiscV

/-- A request at the port of a cache. -/
abbrev CacheReq := MemoryPort.Request Word (BitVec 4) Word

/-- A RAM behind a cache, in words. -/
abbrev CacheRam := MemoryPort.Ram Word (BitVec 30) (BitVec 4) Word

/-- The states of the controller. -/
inductive DcacheState
  | s0 | s1 | s2 | s3
  deriving DecidableEq

variable {setWidth ways : ℕ}

/-- The registers of `dcache`. -/
structure Dcache (policy : ReplacementPolicy setWidth ways) where
  state : DcacheState
  reqAddr : Word
  reqWdata : Word
  reqWmask : BitVec 4
  reqFullMask : Bool
  reqSelIsHit : Bool
  cacheInst : AssociativeCache 30 32 policy

namespace Dcache

/-! ## Outputs -/

section

variable {policy : ReplacementPolicy setWidth ways} (d : Dcache policy) (q : CacheReq)
  (ramReady : Bool) (ramRdata : Word)

/-- `in_lookup`. -/
def inLookup : Bool := d.state == .s0

/-- `addr_q`. -/
def addrQ : Word := if d.inLookup then q.addr else d.reqAddr

/-- `wdata_q`. -/
def wdataQ : Word := if d.inLookup then q.data else d.reqWdata

/-- `wmask_q`. -/
def wmaskQ : BitVec 4 := if d.inLookup then q.mask else d.reqWmask

/-- `full_tag`: the block address, put together again from `tag_w` and `idx_w`. -/
def fullTag (addr : Word) : BitVec 30 := addr.extractLsb' 2 30

/-- `fetch_valid`. -/
def fetchValid : Bool := q.valid && d.inLookup

/-- `cache_hit_o`. -/
def cacheHit : Bool := d.cacheInst.hit (fullTag (d.addrQ q))

/-- `cache_payload_o`. -/
def cachePayload : Word := d.cacheInst.payload (fullTag (d.addrQ q))

/-- `next_state`. -/
def nextState : DcacheState :=
  match d.state with
  | .s0 =>
    if !d.fetchValid q then .s0
    else if d.cacheHit q then (if d.wmaskQ q ≠ 0#4 then .s3 else .s2)
    else if d.wmaskQ q = 0#4 then .s1
    else .s3
  | .s1 => if ramReady then .s0 else .s1
  | .s2 => .s0
  | .s3 => if ramReady then .s0 else .s3

/-- `cpu_ready_o`. -/
def cpuReady : Bool :=
  match d.state with
  | .s0 => false
  | .s1 => ramReady
  | .s2 => true
  | .s3 => ramReady

/-- `cpu_dout_o`. -/
def cpuDout : Word := if d.state = .s2 then d.cachePayload q else ramRdata

/-- The request to the RAM: `ram_valid_o`, `ram_addr_o`, `ram_wmask_o`, `ram_wdata_o`. -/
def ramRequest : CacheReq where
  valid := match d.state with
    | .s1 => !ramReady
    | .s3 => true
    | _ => false
  addr := d.addrQ q
  mask := if d.state = .s3 then d.reqWmask else 0#4
  data := if d.state = .s3 then d.reqWdata else d.wdataQ q

/-- `cache_we`. -/
def cacheWe : Bool :=
  match d.state with
  | .s1 => ramReady
  | .s3 => ramReady && (d.reqSelIsHit || d.reqFullMask)
  | _ => false

/-- `cache_valid_i`. -/
def cacheValid : Bool :=
  match d.state with
  | .s0 => d.fetchValid q
  | _ => d.cacheWe ramReady

/-- `cache_payload_i`. -/
def cachePayloadI : Word :=
  if d.state = .s3 ∧ ramReady = true then
    if d.reqSelIsHit then
      (d.cachePayload q &&& ~~~ expandWmask (d.wmaskQ q)) |||
        (d.wdataQ q &&& expandWmask (d.wmaskQ q))
    else if d.reqFullMask then d.wdataQ q
    else ramRdata
  else ramRdata

/-! ## The clock edge -/

/-- One clock edge of `dcache`. -/
def next (resetn : Bool) : Dcache policy where
  state := if !resetn then .s0 else d.nextState q ramReady
  reqAddr := if !resetn then 0#32 else if d.fetchValid q then q.addr else d.reqAddr
  reqWdata := if !resetn then 0#32 else if d.fetchValid q then q.data else d.reqWdata
  reqWmask := if !resetn then 0#4 else if d.fetchValid q then q.mask else d.reqWmask
  reqFullMask := if !resetn then false
    else if d.fetchValid q then q.mask == BitVec.allOnes 4 else d.reqFullMask
  reqSelIsHit := if !resetn then false
    else if d.fetchValid q then d.cacheHit q else d.reqSelIsHit
  cacheInst := d.cacheInst.next resetn (fullTag (d.addrQ q)) (d.cacheWe ramReady)
    (d.cacheValid q ramReady) (d.cachePayloadI q ramReady ramRdata)

end

/-- `dcache` out of reset. -/
def frontEnd (policy : ReplacementPolicy setWidth ways) :
    MemoryPort.FrontEnd Word (BitVec 4) Word where
  State := Dcache policy
  ramRequest := ramRequest
  ready := fun d _ ramReady => d.cpuReady ramReady
  dout := fun d q _ ramRdata => d.cpuDout q ramRdata
  next := fun d q ramReady ramRdata => d.next q ramReady ramRdata true

end Dcache

end KianRiscV
