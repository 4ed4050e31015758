/-
# The processor behind the caches

The processor of `kianv_harris_mc_edition.v` on the bus of `soc.v`, reduced to what can reach
the SDRAM: `cache.v` with its instruction and data caches, the SDRAM behind them, and all other
slaves as one device that answers what is addressed to it.  The processor also drives the
select line `is_instruction` of the caches and, with `FENCE.I`, their reset.
-/
import KianRiscV.Cpu
import KianRiscV.SocBus

namespace KianRiscV

variable {iset iways dset dways : ℕ}

/-- The processor, the caches, the SDRAM, and the request another slave has seen unanswered in
the previous cycle. -/
structure CachedSystem (iw dw : ℕ) (ipolicy : ReplacementPolicy iset iways)
    (dpolicy : ReplacementPolicy dset dways) where
  cpu : Cpu iw dw
  cache : Cache ipolicy dpolicy
  ram : CacheRam
  deviceHeld : Option BusReq

/-- What the environment decides in a cycle: the answer of the SDRAM, the answer of the other
slaves with its data and whether it is an access fault, and the interrupt lines. -/
structure CachedIn where
  sdram : MemoryPort.Answer Word
  deviceAnswer : Bool
  deviceRdata : Word
  accessFault : Bool
  irq3 : Bool
  irq7 : Bool
  irq9 : Bool
  irq11 : Bool

namespace CachedSystem

variable {iw dw : ℕ} {ipolicy : ReplacementPolicy iset iways}
  {dpolicy : ReplacementPolicy dset dways} (cfg : SocConfig)
  (s : CachedSystem iw dw ipolicy dpolicy) (i : CachedIn)

/-! ## The bus -/

/-- The request of `sv32`. -/
def busReq : BusReq := s.cpu.mmu.busReq

/-- `is_instruction`, which the state machine drives. -/
def isInstruction : Bool := s.cpu.core.isInstr

/-- `cpu_mem_addr`: 34 to 32 bits. -/
def memAddr : Word := s.busReq.addr.setWidth 32

/-- `cache_ready_i`. -/
def ramReady : Bool := s.ram.ready i.sdram

/-- `cache_dout_i`. -/
def ramRdata : Word := s.ram.rdata wordPort i.sdram

/-- The request as the caches see it, under a given valid bit. -/
def cacheReq (valid : Bool) : CacheReq := ⟨valid, s.memAddr, s.busReq.wstrb, s.busReq.wdata⟩

/-- `mem_sdram_ready`. -/
def memSdramReady : Bool := s.cache.cpuReady s.isInstruction (s.ramReady i)

/-- `is_sdram`, from the address the caches show. -/
def isSdram : Bool :=
  BusAccess.inSdram cfg (s.cache.ramRequest s.isInstruction (s.cacheReq false) (s.ramReady i)).addr

/-- `mem_sdram_valid`. -/
def memSdramValid : Bool := !s.memSdramReady i && s.busReq.valid && s.isSdram cfg i

/-- `mem_sdram_rdata`. -/
def memSdramRdata : Word :=
  s.cache.cpuDout s.isInstruction (s.cacheReq (s.memSdramValid cfg i)) (s.ramRdata i)

/-- The ready signals of all other slaves: one of them answers a request outside the SDRAM
that it has seen. -/
def deviceReady : Bool :=
  i.deviceAnswer && s.busReq.valid && !BusAccess.inSdram cfg s.memAddr &&
    s.deviceHeld == some s.busReq

/-- What the processor sees: `cpu_mem_ready`, `cpu_mem_rdata`, `access_fault` and the interrupt
lines. -/
def cpuIn : CpuIn where
  memReady := s.memSdramReady i || s.deviceReady cfg i
  memRdata := if s.memSdramReady i then s.memSdramRdata cfg i else i.deviceRdata
  accessFault := i.accessFault && s.deviceReady cfg i
  irq3 := i.irq3
  irq7 := i.irq7
  irq9 := i.irq9
  irq11 := i.irq11

/-- What the core sees. -/
def coreIn : CoreIn := s.cpu.coreIn (s.cpuIn cfg i)

/-! ## The clock edge -/

/-- One clock edge; `icache_flush` resets both caches. -/
def next (p : Params) : CachedSystem iw dw ipolicy dpolicy where
  cpu := s.cpu.next p (s.cpuIn cfg i)
  cache := s.cache.next s.isInstruction (s.cacheReq (s.memSdramValid cfg i)) (s.ramReady i)
    (s.ramRdata i) (!icacheFlush s.cpu.core.state s.cpu.core.instr)
  ram := s.ram.next wordPort i.sdram
    (s.cache.ramRequest s.isInstruction (s.cacheReq (s.memSdramValid cfg i)) (s.ramReady i))
  deviceHeld :=
    if s.busReq.valid && !BusAccess.inSdram cfg s.memAddr && !s.deviceReady cfg i then
      some s.busReq
    else none

/-- The registers after reset, over any contents of the SDRAM. -/
structure IsReset (p : Params) (s : CachedSystem iw dw ipolicy dpolicy) : Prop where
  cpu : s.cpu.IsReset p
  icache : ∃ c q v b x, s.cache.icache = Icache.next c q v b x false
  dcache : ∃ d q b x, s.cache.dcache = Dcache.next d q b x false
  ram : s.ram.held = none
  device : s.deviceHeld = none

/-- The state after `n` cycles. -/
def run (p : Params) (s : CachedSystem iw dw ipolicy dpolicy) (inp : ℕ → CachedIn) :
    ℕ → CachedSystem iw dw ipolicy dpolicy :=
  Sync.run (fun s i => s.next cfg i p) s inp

end CachedSystem

end KianRiscV
