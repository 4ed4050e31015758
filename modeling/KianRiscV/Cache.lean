/-
# The caches of the system on chip

`icache.v` and the multiplexer of `cache.v`: instruction accesses, which include the
page-table reads made for a fetch, go through the instruction cache, all others through the
data cache, and both share the port to the RAM.  Nothing but a reset (which `soc.v` also
applies with `icache_flush`) takes a line out of the instruction cache when data is stored.
-/
import KianRiscV.Dcache

namespace KianRiscV

variable {iset iways dset dways : ℕ}

/-! ## The instruction cache -/

/-- The states of the controller. -/
inductive IcacheState
  | s0 | s1 | s2
  deriving DecidableEq

/-- The registers of `icache`; `hit_occurred`, which nothing reads, is left out. -/
structure Icache (policy : ReplacementPolicy iset iways) where
  state : IcacheState
  cacheInst : AssociativeCache 30 32 policy

namespace Icache

variable {policy : ReplacementPolicy iset iways} (c : Icache policy) (addr : Word)
  (valid ramReady : Bool) (ramRdata : Word)

/-- `cpu_ready_o`. -/
def cpuReady : Bool :=
  match c.state with
  | .s0 => false
  | .s1 => ramReady
  | .s2 => true

/-- `fetch_valid`. -/
def fetchValid : Bool := valid && !c.cpuReady ramReady

/-- `cache_hit_o`. -/
def cacheHit : Bool := c.cacheInst.hit (Dcache.fullTag addr)

/-- `next_state`. -/
def nextState : IcacheState :=
  match c.state with
  | .s0 => if !c.fetchValid valid ramReady then .s0 else if c.cacheHit addr then .s2 else .s1
  | .s1 => if ramReady then .s0 else .s1
  | .s2 => .s0

/-- `cpu_dout_o`. -/
def cpuDout : Word :=
  if c.state = .s2 then c.cacheInst.payload (Dcache.fullTag addr) else ramRdata

/-- `ram_valid_o`. -/
def ramValid : Bool := c.state == .s1 && !ramReady

/-- `cache_we`. -/
def cacheWe : Bool := c.state == .s1 && ramReady

/-- `cache_valid_i`. -/
def cacheValid : Bool :=
  match c.state with
  | .s0 => c.fetchValid valid ramReady
  | .s1 => ramReady
  | .s2 => false

/-- One clock edge of `icache`. -/
def next (resetn : Bool) : Icache policy where
  state := if !resetn then .s0 else c.nextState addr valid ramReady
  cacheInst := c.cacheInst.next resetn (Dcache.fullTag addr) (c.cacheWe ramReady)
    (c.cacheValid valid ramReady) ramRdata

end Icache

/-! ## Both caches -/

/-- The registers of `cache`. -/
structure Cache (ipolicy : ReplacementPolicy iset iways) (dpolicy : ReplacementPolicy dset dways)
    where
  icache : Icache ipolicy
  dcache : Dcache dpolicy

namespace Cache

variable {ipolicy : ReplacementPolicy iset iways} {dpolicy : ReplacementPolicy dset dways}
  (c : Cache ipolicy dpolicy) (isInstruction : Bool) (q : CacheReq) (ramReady : Bool)
  (ramRdata : Word)

/-- What the data cache sees of the request: with an instruction access, no request and
address zero. -/
def dcacheReq (isInstruction : Bool) (q : CacheReq) : CacheReq where
  valid := if isInstruction then false else q.valid
  addr := if isInstruction then 0#32 else q.addr
  mask := q.mask
  data := q.data

/-- The request to the RAM: `cache_valid_o`, `cache_addr_o`, `cache_wmask_o`,
`cache_din_o`. -/
def ramRequest : CacheReq :=
  if isInstruction then ⟨c.icache.ramValid ramReady, q.addr, 0#4, 0#32⟩
  else c.dcache.ramRequest q ramReady

/-- `cpu_ready_o`. -/
def cpuReady : Bool :=
  if isInstruction then c.icache.cpuReady ramReady else c.dcache.cpuReady ramReady

/-- `cpu_dout_o`. -/
def cpuDout : Word :=
  if isInstruction then c.icache.cpuDout q.addr ramRdata else c.dcache.cpuDout q ramRdata

/-- One clock edge of `cache`: the cache not selected sees neither request nor answer. -/
def next (resetn : Bool) : Cache ipolicy dpolicy where
  icache := c.icache.next (if isInstruction then q.addr else 0#32)
    (if isInstruction then q.valid else false) (if isInstruction then ramReady else false)
    (if isInstruction then ramRdata else 0#32) resetn
  dcache := c.dcache.next (dcacheReq isInstruction q) (if isInstruction then false else ramReady)
    (if isInstruction then 0#32 else ramRdata) resetn

end Cache

end KianRiscV
