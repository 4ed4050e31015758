/-
# The processor and a memory behind it

`kianv_harris_mc_edition.v`: the core and the memory management unit.  Behind the
processor stands a memory that answers a request held on the bus after an arbitrary
number of cycles, at least one.
-/
import KianRiscV.Core
import KianRiscV.Translation

namespace KianRiscV

/-! ## `kianv_harris_mc_edition` -/

/-- The registers of the processor. -/
structure Cpu (iw dw : ℕ) where
  core : Core
  mmu : Sv32 iw dw

/-- The inputs of the processor in one cycle. -/
structure CpuIn where
  memReady : Bool
  memRdata : Word
  accessFault : Bool
  irq3 : Bool
  irq7 : Bool
  irq9 : Bool
  irq11 : Bool
  deriving DecidableEq

namespace Cpu

variable {iw dw : ℕ}

/-- What the core presents to `sv32`. -/
def req (c : Cpu iw dw) : CpuReq where
  valid := c.core.memValid
  wstrb := c.core.memWstrb
  addr := c.core.memAddr
  wdata := c.core.memWdata
  isInstruction := c.core.isInstr
  satp := c.core.csr.satp
  mstatus := c.core.csr.mstatus
  privilegeMode := c.core.csr.privilegeMode

/-- What the core sees of `sv32` and the bus. -/
def coreIn (c : Cpu iw dw) (i : CpuIn) : CoreIn where
  memReady := c.mmu.cpuReady i.memReady
  memRdata := c.mmu.cpuRdata i.memRdata
  stall := c.mmu.stall
  pageFault := c.mmu.pageFault
  faultAddress := c.mmu.faultAddress
  accessFault := i.accessFault
  irq3 := i.irq3
  irq7 := i.irq7
  irq9 := i.irq9
  irq11 := i.irq11

/-- One clock edge of the processor. -/
def next (p : Params) (c : Cpu iw dw) (i : CpuIn) : Cpu iw dw where
  core := c.core.next p (c.coreIn i)
  mmu := c.mmu.next c.req (c.core.tlbFlush (c.coreIn i)) i.memReady i.memRdata

/-- The registers after reset. -/
def IsReset (p : Params) (c : Cpu iw dw) : Prop := c.core.IsReset p ∧ c.mmu.IsReset

end Cpu

/-! ## The memory -/

/-- A word-organised memory.  `content` is indexed by the word address
`addr[33:2]`; `held` is the request that was on the bus, unanswered, in the
previous cycle. -/
structure Memory where
  content : BitVec 32 → Word
  held : Option BusReq

/-- The choices of the memory in one cycle: whether it answers, and whether it
refuses the access. -/
structure MemIn where
  answer : Bool
  accessFault : Bool
  deriving DecidableEq

/-- The word with the enabled byte lanes replaced. -/
def mergeBytes (wstrb : BitVec 4) (old new : Word) : Word :=
  let lane (k : ℕ) : BitVec 8 :=
    if wstrb.getLsbD k then new.extractLsb' (8 * k) 8 else old.extractLsb' (8 * k) 8
  lane 3 ++ lane 2 ++ lane 1 ++ lane 0

namespace Memory

/-- `mem_ready`: only a request that was already there in the previous cycle is
answered. -/
def ready (m : Memory) (r : BusReq) (i : MemIn) : Bool :=
  i.answer && r.valid && m.held == some r

/-- `mem_rdata`: the word addressed, zero with an access fault. -/
def rdata (m : Memory) (r : BusReq) (i : MemIn) : Word :=
  if i.accessFault then 0#32 else m.content (wordAddr r.addr)

/-- The contents after the request has been served. -/
def served (m : Memory) (r : BusReq) : BitVec 32 → Word := fun a =>
  if a = wordAddr r.addr then mergeBytes r.wstrb (m.content a) r.wdata else m.content a

/-- One clock edge of the memory, with the request on the bus. -/
def next (m : Memory) (r : BusReq) (i : MemIn) : Memory where
  content := if m.ready r i && !i.accessFault then m.served r else m.content
  held := if r.valid && !m.ready r i then some r else none

end Memory

/-! ## The system -/

/-- The processor and the memory. -/
structure System (iw dw : ℕ) where
  cpu : Cpu iw dw
  mem : Memory

/-- The inputs of the system: the choices of the memory and the interrupt lines. -/
structure SystemIn where
  mem : MemIn
  irq3 : Bool
  irq7 : Bool
  irq9 : Bool
  irq11 : Bool
  deriving DecidableEq

namespace System

variable {iw dw : ℕ}

/-- The request on the bus. -/
def busReq (s : System iw dw) : BusReq := s.cpu.mmu.busReq

/-- `mem_ready` of the cycle. -/
def memReady (s : System iw dw) (i : SystemIn) : Bool := s.mem.ready s.busReq i.mem

/-- The inputs the processor sees. -/
def cpuIn (s : System iw dw) (i : SystemIn) : CpuIn where
  memReady := s.memReady i
  memRdata := s.mem.rdata s.busReq i.mem
  accessFault := i.mem.accessFault && s.memReady i
  irq3 := i.irq3
  irq7 := i.irq7
  irq9 := i.irq9
  irq11 := i.irq11

/-- The inputs the core sees. -/
def coreIn (s : System iw dw) (i : SystemIn) : CoreIn := s.cpu.coreIn (s.cpuIn i)

/-- One clock edge of the system. -/
def next (p : Params) (s : System iw dw) (i : SystemIn) : System iw dw where
  cpu := s.cpu.next p (s.cpuIn i)
  mem := s.mem.next s.busReq i.mem

/-- The system after reset, with any memory contents. -/
def IsReset (p : Params) (s : System iw dw) : Prop :=
  s.cpu.IsReset p ∧ s.mem.held = none

end System

/-! ## A concrete reset state -/

/-- A build for concrete runs: reset vector 0, 50 MHz, the one-product multiplier. -/
def sampleParams : Params := ⟨0#32, 50000000, true⟩

/-- Memory answering every held request, and no interrupt. -/
def promptInput : ℕ → SystemIn := fun _ => ⟨⟨true, false⟩, false, false, false, false⟩

/-- The core after reset with a cleared register file. -/
def Core.reset (p : Params) : Core where
  state := .fetch
  trapAddr := 0#32
  regs := fun _ => 0#32
  pc := p.resetAddr
  oldPc := p.resetAddr
  instr := 0x00000013#32
  aluOut := 0#32
  a1 := 0#32
  a2 := 0#32
  dataLatched := 0#32
  csrDataOut := 0#32
  mulExtResultOut := 0#32
  memAddrAlignLatch := 0#2
  amoBufferAddr := 0#32
  amoTemporaryData := 0#32
  amoReservedStateLoad := false
  csr := CsrUnit.reset
  mul := Multiplier.reset
  div := Divider.reset

/-- The memory management unit after reset. -/
def Sv32.reset (iw dw : ℕ) : Sv32 iw dw where
  state := .idle
  translationPendingQ := false
  pageFault := false
  faultAddress := 0#32
  cpuValidQ := false
  cpuWstrbQ := 0#4
  cpuAddrQ := 0#32
  cpuWdataQ := 0#32
  satpQ := 0#32
  mstatusQ := 0#32
  privModeQ := 0#2
  isInstrQ := false
  instrTranslateValid := false
  dataTranslateValid := false
  instrTranslator := Translator.reset
  dataTranslator := Translator.reset
  ptw := TableWalk.reset iw dw

/-- The system after reset with the given memory contents. -/
def System.reset (iw dw : ℕ) (p : Params) (content : BitVec 32 → Word) : System iw dw where
  cpu := ⟨Core.reset p, Sv32.reset iw dw⟩
  mem := ⟨content, none⟩

theorem Core.reset_isReset (p : Params) : (Core.reset p).IsReset p := by
  simp [Core.IsReset, Core.reset]

theorem Sv32.reset_isReset (iw dw : ℕ) : (Sv32.reset iw dw).IsReset := by
  simp [Sv32.IsReset, Sv32.reset, TableWalk.reset_isReset]

theorem System.reset_isReset (iw dw : ℕ) (p : Params) (content : BitVec 32 → Word) :
    (System.reset iw dw p content).IsReset p :=
  ⟨⟨Core.reset_isReset p, Sv32.reset_isReset iw dw⟩, rfl⟩

end KianRiscV
