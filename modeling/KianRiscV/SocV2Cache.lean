/-
# The data path of the cache of LinuxSoC_v2

`sram_sp.v`, `cache_sram_D$.v`, `dcache.v` and the two variants of `cache.v` on data accesses
(`is_instruction` low, so that the multiplexer passes the data cache on).  The four ways are
synchronous memories of packed lines: what a lookup finds is the content of the set addressed
in the cycle before, and the controller registers it once more.  The padding bits of a packed
line, which nothing reads, are left out.
-/
import KianRiscV.Dcache

namespace KianRiscV

namespace V2

/-! ## Memories and ways -/

/-- The registers of `sram_sp`. -/
structure SramSp (addrWidth : ℕ) (ω : Type) where
  mem : BitVec addrWidth → ω
  dout : ω

/-- One clock edge of `sram_sp`: the output is the word before the write. -/
def SramSp.next {addrWidth : ℕ} {ω : Type} (r : SramSp addrWidth ω) (we : Bool)
    (addr : BitVec addrWidth) (din : ω) : SramSp addrWidth ω where
  mem := if we then Function.update r.mem addr din else r.mem
  dout := r.mem addr

/-- The registers of `cache_sram_D$`: the valid bits and the memories of the four ways, a
line being a tag and a word, and the replacement tree of every set. -/
structure CacheSram (idxBits tagBits : ℕ) where
  valid : Fin 4 → BitVec idxBits → Bool
  plru : BitVec idxBits → BitVec 3
  way : Fin 4 → SramSp idxBits (BitVec tagBits × Word)

namespace CacheSram

variable {idxBits tagBits : ℕ} (c : CacheSram idxBits tagBits) (idx : BitVec idxBits)
  (tag : BitVec tagBits)

/-- `way0_match` to `way3_match`. -/
def wayMatch (j : Fin 4) : Bool := c.valid j idx && (c.way j).dout.1 == tag

/-- `hit_comb`. -/
def hitComb : Bool :=
  c.wayMatch idx tag 0 || c.wayMatch idx tag 1 || c.wayMatch idx tag 2 || c.wayMatch idx tag 3

/-- `hit_way`. -/
def hitWay : Fin 4 :=
  if c.wayMatch idx tag 0 then 0
  else if c.wayMatch idx tag 1 then 1
  else if c.wayMatch idx tag 2 then 2
  else if c.wayMatch idx tag 3 then 3
  else 0

/-- `victim_way`: the first invalid way, else the one the tree points to. -/
def victimWay : Fin 4 :=
  if !c.valid 0 idx then 0
  else if !c.valid 1 idx then 1
  else if !c.valid 2 idx then 2
  else if !c.valid 3 idx then 3
  else if (c.plru idx).getLsbD 0 = false then (if (c.plru idx).getLsbD 1 = false then 0 else 1)
  else (if (c.plru idx).getLsbD 2 = false then 2 else 3)

/-- `target_way`. -/
def targetWay : Fin 4 := if c.hitComb idx tag then c.hitWay idx tag else c.victimWay idx

/-- `rdata`. -/
def rdata : Word :=
  if c.wayMatch idx tag 0 then (c.way 0).dout.2
  else if c.wayMatch idx tag 1 then (c.way 1).dout.2
  else if c.wayMatch idx tag 2 then (c.way 2).dout.2
  else if c.wayMatch idx tag 3 then (c.way 3).dout.2
  else 0#32

/-- `plru_update`. -/
def plruUpdate (cur : BitVec 3) (used : Fin 4) : BitVec 3 :=
  if used = 0 then BitVec.ofBool (cur.getLsbD 2) ++ 1#1 ++ 1#1
  else if used = 1 then BitVec.ofBool (cur.getLsbD 2) ++ 0#1 ++ 1#1
  else if used = 2 then 1#1 ++ BitVec.ofBool (cur.getLsbD 1) ++ 0#1
  else 0#1 ++ BitVec.ofBool (cur.getLsbD 1) ++ 0#1

/-- One clock edge of `cache_sram_D$`.  The memories have no reset. -/
def next (resetn flush we re : Bool) (wdata : Word) : CacheSram idxBits tagBits where
  valid := if !resetn || flush then fun _ _ => false
    else fun j => if we && c.targetWay idx tag == j then Function.update (c.valid j) idx true
      else c.valid j
  plru := if !resetn || flush then fun _ => 0#3
    else if re && c.hitComb idx tag then
      Function.update c.plru idx (plruUpdate (c.plru idx) (c.hitWay idx tag))
    else if we then Function.update c.plru idx (plruUpdate (c.plru idx) (c.targetWay idx tag))
    else c.plru
  way := fun j => (c.way j).next (we && c.targetWay idx tag == j) idx (tag, wdata)

end CacheSram

/-! ## The index -/

/-- The parameters of `dcache`: the number of index bits, the index hash, and whether a
full-word store that misses allocates. -/
structure Config where
  idxBits : ℕ
  hashOn : Bool
  hashMode : ℕ
  hashXorLo : ℕ
  hashXorHi : ℕ
  fullStoreMissAllocate : Bool

namespace Config

variable (p : Config)

/-- `TAG_BITS`. -/
def tagBits : ℕ := 30 - p.idxBits

/-- `fold_tag_to_idx`. -/
def foldTagToIdx (t : BitVec p.tagBits) : BitVec p.idxBits :=
  (List.range p.tagBits).foldl
    (fun f i => f ^^^ (if t.getLsbD i then BitVec.twoPow p.idxBits (i % p.idxBits) else 0)) 0

/-- `hash_mask` in mode 1: a slice of the tag, which the checks of the module admit only if
it is not empty and fits into the tag and the index. -/
def hashMask (t : BitVec p.tagBits) : BitVec p.idxBits :=
  if p.hashXorLo ≤ p.hashXorHi then
    (t.extractLsb' p.hashXorLo (p.hashXorHi - p.hashXorLo + 1)).setWidth p.idxBits
  else 0

/-- `idx_raw`, of the address without its byte offset. -/
def idxRaw (block : BitVec 30) : BitVec p.idxBits := block.setWidth p.idxBits

/-- `tag`. -/
def tag (block : BitVec 30) : BitVec p.tagBits := block.extractLsb' p.idxBits p.tagBits

/-- `idx`, with `rot1` a rotation by one to the right. -/
def idx (block : BitVec 30) : BitVec p.idxBits :=
  if p.hashOn = false then p.idxRaw block
  else if p.hashMode = 2 then
    p.idxRaw block ^^^ p.foldTagToIdx (p.tag block) ^^^
      (p.foldTagToIdx (p.tag block)).rotateRight 1
  else if p.hashMode = 1 then p.idxRaw block ^^^ p.hashMask (p.tag block)
  else p.idxRaw block

end Config

/-! ## The data cache -/

/-- The states of the controller. -/
inductive DcacheState
  | idle | read | check | rdReq | refill | wrReq
  deriving DecidableEq

/-- The registers of `dcache`. -/
structure Dcache (p : Config) where
  state : DcacheState
  cacheD : CacheSram p.idxBits p.tagBits
  cacheRdataQ : Word
  cacheHitQ : Bool
  cpuWmaskQ : BitVec 4
  cpuDinQ : Word
  opIsRead : Bool
  opIsFull : Bool
  opIsPartial : Bool
  wrFromHit : Bool
  pendingWe : Bool
  pendingData : Word

/-- The address without its byte offset. -/
def block (q : CacheReq) : BitVec 30 := q.addr.extractLsb' 2 30

namespace Dcache

variable {p : Config} (d : Dcache p) (q : CacheReq) (ramReady : Bool) (ramRdata : Word)

/-- `is_read_req`. -/
def isReadReq : Bool := d.cpuWmaskQ == 0#4

/-- `is_full_write`. -/
def isFullWrite : Bool := d.cpuWmaskQ == 0xf#4

/-- `is_part_write`. -/
def isPartWrite : Bool := d.cpuWmaskQ != 0#4 && !d.isFullWrite

/-- `cache_hit`. -/
def cacheHit : Bool := d.cacheD.hitComb (p.idx (block q)) (p.tag (block q))

/-- `cache_rdata`. -/
def cacheRdata : Word := d.cacheD.rdata (p.idx (block q)) (p.tag (block q))

/-- `want_alloc`. -/
def wantAlloc : Bool :=
  d.wrFromHit || d.opIsPartial || (d.opIsFull && !d.wrFromHit && p.fullStoreMissAllocate)

/-- `next_state`. -/
def nextState : DcacheState :=
  match d.state with
  | .idle => if q.valid then .read else .idle
  | .read => .check
  | .check =>
    if d.cacheHitQ then (if d.isReadReq then .idle else .wrReq)
    else if d.isReadReq then .rdReq
    else if d.isFullWrite then .wrReq
    else .rdReq
  | .rdReq => if ramReady then (if d.opIsRead then .refill else .wrReq) else .rdReq
  | .refill => .idle
  | .wrReq => if ramReady then .idle else .wrReq

/-- `cpu_ready_o`. -/
def cpuReady : Bool :=
  match d.state with
  | .check => d.cacheHitQ && d.isReadReq
  | .refill => true
  | .wrReq => ramReady
  | _ => false

/-- `cpu_dout_o`. -/
def cpuDout : Word :=
  match d.state with
  | .check => if d.cacheHitQ && d.isReadReq then d.cacheRdataQ else 0#32
  | .refill => ramRdata
  | _ => 0#32

/-- The request to the RAM. -/
def ramRequest : CacheReq where
  valid := d.state == .rdReq || d.state == .wrReq
  addr := q.addr
  mask := if d.state = .wrReq then d.cpuWmaskQ else 0#4
  data := d.cpuDinQ

/-- `cache_re`. -/
def cacheRe : Bool :=
  match d.state with
  | .idle => q.valid
  | .read => true
  | _ => false

/-- `cache_we`. -/
def cacheWe : Bool :=
  match d.state with
  | .refill => true
  | .wrReq => ramReady && d.pendingWe && d.wantAlloc
  | _ => false

/-- `cache_wdata`. -/
def cacheWdata : Word :=
  match d.state with
  | .refill => ramRdata
  | .wrReq => if ramReady && d.pendingWe && d.wantAlloc then d.pendingData else 0#32
  | _ => 0#32

/-- The value `pending_data` takes together with `pending_we`, if any.  `apply_wmask` is the
replacement of byte lanes. -/
def pending? : Option Word :=
  match d.state with
  | .check =>
    if d.cacheHitQ then
      if d.isReadReq then none
      else some (if d.isFullWrite then d.cpuDinQ
        else mergeBytes d.cpuWmaskQ d.cacheRdataQ d.cpuDinQ)
    else if d.isFullWrite then some d.cpuDinQ
    else none
  | .rdReq =>
    if ramReady && d.opIsPartial then some (mergeBytes d.cpuWmaskQ ramRdata d.cpuDinQ) else none
  | _ => none

/-- One clock edge of `dcache`. -/
def next (resetn flush : Bool) : Dcache p :=
  let cacheD := d.cacheD.next (p.idx (block q)) (p.tag (block q)) resetn flush
    (d.cacheWe ramReady) (d.cacheRe q) (d.cacheWdata ramReady ramRdata)
  if !resetn || flush then
    { state := .idle, cacheD := cacheD, cacheRdataQ := 0#32, cacheHitQ := false
      cpuWmaskQ := 0#4, cpuDinQ := 0#32, opIsRead := false, opIsFull := false
      opIsPartial := false, wrFromHit := false, pendingWe := false, pendingData := 0#32 }
  else
    { state := d.nextState q ramReady
      cacheD := cacheD
      cacheRdataQ := d.cacheRdata q
      cacheHitQ := d.cacheHit q
      cpuWmaskQ := q.mask
      cpuDinQ := q.data
      opIsRead := if d.state = .check then d.isReadReq else d.opIsRead
      opIsFull := if d.state = .check then d.isFullWrite else d.opIsFull
      opIsPartial := if d.state = .check then d.isPartWrite else d.opIsPartial
      wrFromHit := if d.state = .check then d.cacheHitQ && !d.isReadReq else d.wrFromHit
      pendingWe := if (d.pending? ramReady ramRdata).isSome then true
        else if d.state = .wrReq ∧ ramReady = true then false else d.pendingWe
      pendingData := (d.pending? ramReady ramRdata).getD d.pendingData }

end Dcache

/-- `cache` with `BYPASS_CACHES = 0` on data accesses: the data cache, without flush. -/
def cached (p : Config) : MemoryPort.FrontEnd Word (BitVec 4) Word where
  State := Dcache p
  ramRequest := fun d q _ => d.ramRequest q
  ready := fun d _ ramReady => d.cpuReady ramReady
  dout := fun d _ _ ramRdata => d.cpuDout ramRdata
  next := fun d q ramReady ramRdata => d.next q ramReady ramRdata true false

/-! ## The bypass -/

/-- The states of the bypass. -/
inductive BypassState
  | idle | req | rsp
  deriving DecidableEq

/-- The registers of `cache` with `BYPASS_CACHES = 1`. -/
structure Bypass where
  state : BypassState
  addrQ : Word
  dinQ : Word
  wmaskQ : BitVec 4
  rdataQ : Word

namespace Bypass

variable (b : Bypass) (q : CacheReq) (ramReady : Bool) (ramRdata : Word)

/-- `is_write`. -/
def isWrite : Bool := b.wmaskQ != 0#4

/-- The request to the RAM. -/
def ramRequest : CacheReq :=
  if b.state = .req then ⟨true, b.addrQ, b.wmaskQ, b.dinQ⟩ else ⟨false, 0#32, 0#4, 0#32⟩

/-- `cpu_ready_o`. -/
def cpuReady : Bool :=
  match b.state with
  | .idle => false
  | .req => ramReady && b.isWrite
  | .rsp => true

/-- One clock edge out of reset. -/
def next : Bypass :=
  match b.state with
  | .idle =>
    if q.valid then
      { b with addrQ := q.addr, dinQ := q.data, wmaskQ := q.mask, state := .req }
    else b
  | .req =>
    if ramReady then
      if b.isWrite then { b with state := .idle }
      else { b with rdataQ := ramRdata, state := .rsp }
    else b
  | .rsp => { b with state := .idle }

/-- The registers after reset. -/
def reset : Bypass := ⟨.idle, 0#32, 0#32, 0#4, 0#32⟩

end Bypass

/-- `cache` with `BYPASS_CACHES = 1`. -/
def bypassed : MemoryPort.FrontEnd Word (BitVec 4) Word where
  State := Bypass
  ramRequest := fun b _ _ => b.ramRequest
  ready := fun b _ ramReady => b.cpuReady ramReady
  dout := fun b _ _ _ => b.rdataQ
  next := fun b q ramReady ramRdata => b.next q ramReady ramRdata

end V2

end KianRiscV
