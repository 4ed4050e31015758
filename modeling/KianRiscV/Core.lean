/-
# The processor core

`datapath_unit.v` and `control_unit.v` wired together: the registers, the wires
between them, and one clock edge.  What `sv32` drives (`cpu_mem_ready`, `stall`,
`page_fault`, ...) and the bus and interrupt lines are the inputs of the core.
-/
import KianRiscV.CsrUnit
import KianRiscV.Divider

namespace KianRiscV

/-- Build parameters: the reset vector, the clock and the multiplier variant. -/
structure Params where
  resetAddr : Word
  systemClk : ℕ
  fpgaMultiplier : Bool

/-- The registers of the core.  `regs` is `bank0` of `register_file`; its entry 0
is never written and reads of `x0` bypass it. -/
structure Core where
  state : FsmState
  trapAddr : Word
  regs : BitVec 5 → Word
  pc : Word
  oldPc : Word
  instr : Word
  aluOut : Word
  a1 : Word
  a2 : Word
  dataLatched : Word
  csrDataOut : Word
  mulExtResultOut : Word
  memAddrAlignLatch : BitVec 2
  amoBufferAddr : Word
  amoTemporaryData : Word
  amoReservedStateLoad : Bool
  csr : CsrUnit
  mul : Multiplier
  div : Divider

/-- The inputs of the core in one cycle. -/
structure CoreIn where
  memReady : Bool
  memRdata : Word
  stall : Bool
  pageFault : Bool
  faultAddress : Word
  accessFault : Bool
  irq3 : Bool
  irq7 : Bool
  irq9 : Bool
  irq11 : Bool
  deriving DecidableEq

namespace Core

/-- `register_file` read port. -/
def readReg (regs : BitVec 5 → Word) (a : BitVec 5) : Word := if a = 0#5 then 0#32 else regs a

/-- `register_file` write port. -/
def writeReg (regs : BitVec 5 → Word) (we : Bool) (a3 : BitVec 5) (wd : Word) :
    BitVec 5 → Word :=
  fun a => if we && a3 != 0#5 && a == a3 then wd else regs a

/-- The registers after reset: those with a reset value have it, the operand
latches and the register file hold anything. -/
def IsReset (p : Params) (c : Core) : Prop :=
  c.state = .fetch ∧ c.trapAddr = 0#32 ∧ c.pc = p.resetAddr ∧ c.oldPc = p.resetAddr ∧
    c.instr = 0x00000013#32 ∧ c.aluOut = 0#32 ∧ c.amoBufferAddr = 0#32 ∧
    c.amoTemporaryData = 0#32 ∧ c.amoReservedStateLoad = false ∧ c.csr = CsrUnit.reset ∧
    c.mul = Multiplier.reset ∧ c.div = Divider.reset

/-! ## Wires that depend on the registers alone -/

/-- The state outputs of `main_fsm`. -/
def ctl (c : Core) : Moore := moore c.state c.instr

/-- `ImmExt`. -/
def immExt (c : Core) : Word := immExtOf c.instr

/-- `SrcA`. -/
def srcA (c : Core) : Word :=
  match c.ctl.aluSrcA with
  | .pc => c.pc
  | .oldPc => c.oldPc
  | .rd1Buf => c.a1
  | .amoTempData => c.amoTemporaryData
  | .const0 => 0#32

/-- `SrcB`. -/
def srcB (c : Core) : Word :=
  match c.ctl.aluSrcB with
  | .rd2Buf => c.a2
  | .immExt => c.immExt
  | .const4 => 4#32
  | .const0 => 0#32

/-- `ALUResult`. -/
def aluResult (c : Core) : Word :=
  alu c.srcA c.srcB (aluDecoder (c.immExt.getLsbD 10) c.instr c.ctl.aluOp)

/-- `Zero`. -/
def zero (c : Core) : Bool := aluZero c.aluResult

/-- `Result`, with the multiplexers `Aluout_or_atomic_scw_I` and
`DataLatched_or_AMOtempData_i` in front of it. -/
def result (c : Core) : Word :=
  match c.ctl.resultSrc with
  | .aluout => if c.ctl.muxedAluoutOrAmoRdWr then boolWord c.ctl.amoBufferedData else c.aluOut
  | .data => if c.ctl.selectAmoTemp then c.amoTemporaryData else c.dataLatched
  | .aluresult => c.aluResult
  | .mulout => c.mulExtResultOut
  | .csrout => c.csrDataOut
  | .amoTempAddr => c.amoBufferAddr

/-- `cpu_mem_addr`. -/
def memAddr (c : Core) : Word := if c.ctl.adrSrc then c.result else c.pc

/-- `cpu_mem_wdata`. -/
def memWdata (c : Core) : Word :=
  storeAlignment (c.memAddr.extractLsb' 0 2) (storeDecoder c.instr)
    (if c.ctl.selectAmoTemp then c.amoTemporaryData else c.a2)

/-- `cpu_mem_wstrb`. -/
def memWstrb (c : Core) : BitVec 4 :=
  if c.ctl.memWrite then storeWmask (c.memAddr.extractLsb' 0 2) (storeDecoder c.instr) else 0#4

/-- `is_load_unaligned`. -/
def loadUnaligned (c : Core) : Bool := isLoadUnaligned c.instr (c.memAddr.extractLsb' 0 2)

/-- `is_store_unaligned`. -/
def storeUnaligned (c : Core) : Bool := isStoreUnaligned c.instr (c.memAddr.extractLsb' 0 2)

/-- `cpu_mem_valid`. -/
def memValid (c : Core) : Bool :=
  KianRiscV.memValid c.state c.zero c.loadUnaligned c.storeUnaligned

/-- `is_instruction` of the cycle. -/
def isInstr (c : Core) : Bool := isInstruction c.state

/-- `mul_valid` and `div_valid`. -/
def mulValid (c : Core) : Bool := isMulCode c.instr && c.ctl.mulExtValid

def divValid (c : Core) : Bool := isDivCode c.instr && c.ctl.mulExtValid

/-- `CSRAddr`. -/
def csrAddr (c : Core) : BitVec 12 := c.immExt.extractLsb' 0 12

/-- `CSRwe`. -/
def csrWriteEnable (c : Core) : Bool := csrWe c.instr && c.ctl.csrValid

/-- `csr_access_fault`. -/
def csrAccessFault (c : Core) : Bool := c.csr.csrAccessFault c.csrAddr c.csrWriteEnable

/-! ## Wires that also depend on the inputs -/

/-- The inputs `control_unit` hands to `main_fsm`. -/
def fsmIn (c : Core) (i : CoreIn) : FsmIn where
  instr := c.instr
  zero := c.zero
  mstatusTw := bitOf c.csr.mstatus 21
  mstatusTvm := bitOf c.csr.mstatus 20
  satpMode := satpModeOf c.csr.satp
  faultAddress := i.faultAddress
  cpuMemAddr := c.memAddr
  isInstructionUnaligned := c.memAddr.extractLsb' 0 2 != 0#2
  isLoadUnaligned := c.loadUnaligned
  isStoreUnaligned := c.storeUnaligned
  accessFault := i.accessFault
  pageFault := i.pageFault
  amoReservedStateLoad := c.amoReservedStateLoad
  privilegeMode := c.csr.privilegeMode
  csrAccessFault := c.csrAccessFault
  irq := c.csr.irqLines i.irq3 i.irq7 i.irq9 i.irq11
  mulExtReady := c.mul.ready || c.div.ready
  memReady := i.memReady

/-- `PCWrite`. -/
def pcWrite (c : Core) (i : CoreIn) : Bool :=
  (c.ctl.branch && !c.zero) || pcUpdate c.state i.memReady

/-- The inputs of `csr_unit`. -/
def csrIn (c : Core) (i : CoreIn) : CsrIn where
  incrInstRetired := retirePulse c.state (c.fsmIn i)
  csrAddr := c.csrAddr
  csrOp := csrOpOf c.instr
  we := c.csrWriteEnable
  rd1 := c.srcA
  uimm := rs1Of c.instr
  exceptionEvent := c.ctl.exceptionEvent
  mret := c.ctl.mret
  sret := c.ctl.sret
  cause := cause c.state (c.fsmIn i)
  pc := if c.ctl.selectPC then c.pc else c.oldPc
  badaddr := badaddr c.state c.trapAddr (c.fsmIn i)
  irq3 := i.irq3
  irq7 := i.irq7
  irq9 := i.irq9
  irq11 := i.irq11

/-- `tlb_flush | tlb_flush_csr`, as `kianv_harris_mc_edition` joins them. -/
def tlbFlush (c : Core) (i : CoreIn) : Bool :=
  fsmTlbFlush c.state (c.fsmIn i) || c.csr.tlbFlush (c.csrIn i)

/-- `Data`, the aligned memory answer. -/
def loadData (c : Core) (i : CoreIn) : Word :=
  loadAlignment c.memAddrAlignLatch (loadDecoder c.instr) i.memRdata

/-- `MULExtResult`. -/
def mulExtResult (c : Core) : Word := if c.mulValid then c.mul.resQ else c.div.divOrRemRslt

/-! ## The clock edge -/

/-- One clock edge of `control_unit` and `datapath_unit`. -/
def next (p : Params) (c : Core) (i : CoreIn) : Core where
  state := if i.stall then c.state else stateNxt c.state (c.fsmIn i)
  trapAddr := if latchesTrapAddr c.state then c.memAddr else c.trapAddr
  regs := writeReg c.regs c.ctl.regWrite (rdOf c.instr) c.result
  pc := if c.pcWrite i then (if c.csr.exceptionSelect then c.csr.exceptionNextPc else c.result)
        else c.pc
  oldPc := if storeInstr c.state i.memReady then c.pc else c.oldPc
  instr := if storeInstr c.state i.memReady then i.memRdata else c.instr
  aluOut := if c.memValid then c.aluOut else c.aluResult
  a1 := readReg c.regs (rs1Of c.instr)
  a2 := readReg c.regs (rs2Of c.instr)
  dataLatched := c.loadData i
  csrDataOut := c.csr.rdata c.csrAddr
  mulExtResultOut := c.mulExtResult
  memAddrAlignLatch := c.memAddr.extractLsb' 0 2
  amoBufferAddr := if c.ctl.amoBufferedAddress then c.aluResult else c.amoBufferAddr
  amoTemporaryData :=
    if amoTempWriteOperation c.state c.loadUnaligned then
      (if c.ctl.selectAluResult then c.aluResult else c.loadData i)
    else c.amoTemporaryData
  amoReservedStateLoad :=
    if amoSetReservedStateLoad c.state c.loadUnaligned then c.ctl.amoBufferedData
    else c.amoReservedStateLoad
  csr := c.csr.next p.systemClk (c.csrIn i)
  mul := c.mul.next p.fpgaMultiplier c.srcA c.srcB (mulOpOf c.instr) c.mulValid
  div := c.div.next c.srcA c.srcB (divOpOf c.instr) c.divValid

end Core

end KianRiscV
