/-
# Control and status registers

`csr_decoder.v`, `interrupt_controller.v` and `csr_unit.v`, joined as in
`csr_exception_handler.v`.  Register names and masks are those of the headers
`csr_utilities.vh`, `riscv_priv_csr_status.vh`, `misa.vh` and `sv32.vh`.
-/
import KianRiscV.MainFsm

namespace KianRiscV

/-! ## Masks and fields -/

/-- Bit `n` of a register, the `GET_*` macros of one-bit fields. -/
def bitOf (value : Word) (n : ℕ) : Bool := value.getLsbD n

/-- A one-bit value at position `n`, the `SET_*` macros. -/
def setBit (n : ℕ) (value : Bool) : Word := boolWord value <<< n

/-- `GET_MSTATUS_MPP`. -/
def mppOf (mstatus : Word) : BitVec 2 := mstatus.extractLsb' 11 2

/-- `GET_SATP_MODE`. -/
def satpModeOf (satp : Word) : Bool := satp.getLsbD 31

/-- `XSTATUS_SIE_MASK | XSTATUS_SPIE_MASK | XSTATUS_SPP_MASK`. -/
def sStackMask : Word := (1#32 <<< 1) ||| (1#32 <<< 5) ||| (1#32 <<< 8)

/-- `MSTATUS_MIE_MASK | MSTATUS_MPIE_MASK | MSTATUS_MPP_MASK`. -/
def mStackMask : Word := (1#32 <<< 3) ||| (1#32 <<< 7) ||| (3#32 <<< 11)

/-- `SSTATUS_MASK`. -/
def sstatusMask : Word :=
  (1#32 <<< 1) ||| (1#32 <<< 5) ||| (1#32 <<< 6) ||| (1#32 <<< 8) ||| (3#32 <<< 9) |||
    (3#32 <<< 13) ||| (3#32 <<< 15) ||| (1#32 <<< 18) ||| (1#32 <<< 19) ||| (1#32 <<< 31)

/-- `MEDELEG_MASK`. -/
def medelegMask : Word :=
  0x0001#32 ||| 0x0002#32 ||| 0x0004#32 ||| 0x0008#32 ||| 0x0010#32 ||| 0x0020#32 |||
    0x0040#32 ||| 0x0080#32 ||| 0x0100#32 ||| 0x0200#32 ||| 0x1000#32 ||| 0x2000#32 |||
    0x8000#32

/-- `MIDELEG_MASK`. -/
def midelegMask : Word := 0x002#32 ||| 0x020#32 ||| 0x200#32

/-- `SIP_MASK`, equal to `SIE_MASK`. -/
def sipMask : Word := (1#32 <<< 1) ||| (1#32 <<< 9) ||| (1#32 <<< 5)

/-- The constant value of `misa`. -/
def misaValue : Word :=
  (1#32 <<< 30) ||| (1#32 <<< 0) ||| (1#32 <<< 8) ||| (1#32 <<< 12) ||| (1#32 <<< 18) |||
    (1#32 <<< 20)

/-! ## `csr_decoder` -/

/-- The `CSRop` output. -/
def csrOpOf (instr : Word) : CsrOp :=
  if funct3Of instr = 0b001#3 then .csrrw
  else if funct3Of instr = 0b010#3 then .csrrs
  else if funct3Of instr = 0b011#3 then .csrrc
  else if funct3Of instr = 0b101#3 then .csrrwi
  else if funct3Of instr = 0b110#3 then .csrrsi
  else if funct3Of instr = 0b111#3 then .csrrci
  else .na

/-- The internal `we`: set and clear forms write only with a nonzero source field. -/
def csrWe (instr : Word) : Bool :=
  match csrOpOf instr with
  | .csrrw | .csrrwi => true
  | .csrrs | .csrrc | .csrrsi | .csrrci => rs1Of instr != 0#5
  | .na => false

/-! ## Registers -/

/-- The registers of `csr_unit`. -/
structure CsrUnit where
  privilegeMode : BitVec 2
  mstatus : Word
  mtimecmp : Word
  mtimecmph : Word
  mscratch : Word
  mtvec : Word
  mepc : Word
  mcause : Word
  mtval : Word
  medeleg : Word
  mie : Word
  mip : Word
  mideleg : Word
  menvcfg : Word
  menvcfgh : Word
  mcounteren : Word
  mcountinhibit : Word
  sscratch : Word
  stvec : Word
  sepc : Word
  scause : Word
  stval : Word
  satp : Word
  stimecmp : Word
  stimecmph : Word
  scounteren : Word
  exceptionNextPc : Word
  exceptionSelect : Bool
  instrCounter : BitVec 64
  timerCounter : BitVec 64
  cycleCounter : BitVec 64
  tickCnt : BitVec 18
  deriving DecidableEq

/-- The inputs of `csr_unit` in one cycle; `pc` is `pc_on_exception`. -/
structure CsrIn where
  incrInstRetired : Bool
  csrAddr : BitVec 12
  csrOp : CsrOp
  we : Bool
  rd1 : Word
  uimm : BitVec 5
  exceptionEvent : Bool
  mret : Bool
  sret : Bool
  cause : Word
  pc : Word
  badaddr : Word
  irq3 : Bool
  irq7 : Bool
  irq9 : Bool
  irq11 : Bool

namespace CsrUnit

/-- The registers after reset. -/
def reset : CsrUnit where
  privilegeMode := 3#2
  mstatus := 0
  mtimecmp := 0
  mtimecmph := 0
  mscratch := 0
  mtvec := 0
  mepc := 0
  mcause := 0
  mtval := 0
  medeleg := 0
  mie := 0
  mip := 0
  mideleg := 0
  menvcfg := 0
  menvcfgh := 0
  mcounteren := 0
  mcountinhibit := 0
  sscratch := 0
  stvec := 0
  sepc := 0
  scause := 0
  stval := 0
  satp := 0
  stimecmp := 0
  stimecmph := 0
  scounteren := 0
  exceptionNextPc := 0
  exceptionSelect := false
  instrCounter := 0
  timerCounter := 0
  cycleCounter := 0
  tickCnt := 0

/-! ## `interrupt_controller` -/

/-- `CHECK_SSTC_CONDITIONS`: `menvcfgh.STCE` and `mcounteren.TM`. -/
def checkSstcConditions (c : CsrUnit) : Bool := bitOf c.menvcfgh 31 && bitOf c.mcounteren 1

/-- `CHECK_SSTC_TM_AND_CMP`. -/
def checkSstcTmAndCmp (c : CsrUnit) : Bool :=
  (c.stimecmph ++ c.stimecmp).ule c.timerCounter && c.checkSstcConditions

/-- `mip_next`: `MTIP`, `MEIP`, `SEIP` and, under Sstc, `STIP` are cleared before
they are driven again; `MSIP` is only ever or-ed in. -/
def mipNext (c : CsrUnit) (irq3 irq7 irq9 irq11 : Bool) : Word :=
  let tempMip := c.mip &&&
    ~~~((1#32 <<< 7) ||| (1#32 <<< 11) ||| (1#32 <<< 9) ||| setBit 5 c.checkSstcConditions)
  tempMip ||| setBit 3 irq3 ||| setBit 5 c.checkSstcTmAndCmp ||| setBit 7 irq7 |||
    setBit 11 irq11 ||| setBit 9 irq9

/-- `interrupts`: the enabled pending interrupts of machine level, or else of
supervisor level. -/
def interrupts (c : CsrUnit) (irq3 irq7 irq9 irq11 : Bool) : Word :=
  let pendingIrqs := c.mipNext irq3 irq7 irq9 irq11 &&& c.mie
  let mEnabled := !isMachine c.privilegeMode ||
    (isMachine c.privilegeMode && bitOf c.mstatus 3)
  let sEnabled := isUser c.privilegeMode ||
    (isSupervisor c.privilegeMode && bitOf c.mstatus 1)
  let mInterrupts := if mEnabled then pendingIrqs &&& ~~~c.mideleg else 0#32
  let sInterrupts := if sEnabled then pendingIrqs &&& c.mideleg else 0#32
  if mInterrupts != 0#32 then mInterrupts else sInterrupts

/-- The `IRQ_TO_CPU_CTRL*` lines. -/
def irqLines (c : CsrUnit) (irq3 irq7 irq9 irq11 : Bool) : IrqLines :=
  let q := c.interrupts irq3 irq7 irq9 irq11
  { ctrl1 := bitOf q 1, ctrl3 := bitOf q 3, ctrl5 := bitOf q 5, ctrl7 := bitOf q 7,
    ctrl9 := bitOf q 9, ctrl11 := bitOf q 11 }

/-! ## Reads and access control -/

/-- The CSR read logic; `none` is `csr_not_exist`. -/
def read (c : CsrUnit) (csrAddr : BitVec 12) : Option Word :=
  if csrAddr = 0x301#12 then some misaValue
  else if csrAddr = 0xC02#12 then some (c.instrCounter.extractLsb' 0 32)
  else if csrAddr = 0xC82#12 then some (c.instrCounter.extractLsb' 32 32)
  else if csrAddr = 0xC00#12 then some (c.cycleCounter.extractLsb' 0 32)
  else if csrAddr = 0xC80#12 then some (c.cycleCounter.extractLsb' 32 32)
  else if csrAddr = 0xC01#12 then some (c.timerCounter.extractLsb' 0 32)
  else if csrAddr = 0xC81#12 then some (c.timerCounter.extractLsb' 32 32)
  else if csrAddr = 0xF14#12 then some 0#32
  else if csrAddr = 0xF11#12 then some 0#32
  else if csrAddr = 0xF12#12 then some 0x2b#32
  else if csrAddr = 0xF13#12 then some 0#32
  else if csrAddr = 0x300#12 then some c.mstatus
  else if csrAddr = 0x340#12 then some c.mscratch
  else if csrAddr = 0x304#12 then some c.mie
  else if csrAddr = 0x344#12 then some c.mip
  else if csrAddr = 0x305#12 then some c.mtvec
  else if csrAddr = 0x341#12 then some c.mepc
  else if csrAddr = 0x342#12 then some c.mcause
  else if csrAddr = 0x343#12 then some c.mtval
  else if csrAddr = 0x30A#12 then some c.menvcfg
  else if csrAddr = 0x31A#12 then some c.menvcfgh
  else if csrAddr = 0x306#12 then some c.mcounteren
  else if csrAddr = 0x320#12 then some c.mcountinhibit
  else if csrAddr = 0x302#12 then some (c.medeleg &&& medelegMask)
  else if csrAddr = 0x303#12 then some (c.mideleg &&& midelegMask)
  else if csrAddr = 0x7C0#12 then some c.mtimecmp
  else if csrAddr = 0x7C1#12 then some c.mtimecmph
  else if csrAddr = 0x100#12 then some (c.mstatus &&& sstatusMask)
  else if csrAddr = 0x140#12 then some c.sscratch
  else if csrAddr = 0x104#12 then some (c.mie &&& sipMask)
  else if csrAddr = 0x144#12 then some (c.mip &&& sipMask)
  else if csrAddr = 0x105#12 then some c.stvec
  else if csrAddr = 0x141#12 then some c.sepc
  else if csrAddr = 0x142#12 then some c.scause
  else if csrAddr = 0x143#12 then some c.stval
  else if csrAddr = 0x180#12 then some c.satp
  else if csrAddr = 0x14D#12 then some c.stimecmp
  else if csrAddr = 0x15D#12 then some c.stimecmph
  else if csrAddr = 0x106#12 then some c.scounteren
  else none

/-- `rdata`. -/
def rdata (c : CsrUnit) (csrAddr : BitVec 12) : Word := (c.read csrAddr).getD 0#32

/-- `csr_access_fault`. -/
def csrAccessFault (c : CsrUnit) (csrAddr : BitVec 12) (we : Bool) : Bool :=
  c.privilegeMode.ult (csrAddr.extractLsb' 8 2) ||
    (we && csrAddr.extractLsb' 10 2 == 0b11#2) || (c.read csrAddr).isNone

/-- `wdata_nxt`, the value a CSR instruction writes. -/
def wdataNxt (c : CsrUnit) (i : CsrIn) : Word :=
  let wdata := match i.csrOp with
    | .csrrw | .csrrs | .csrrc => i.rd1
    | _ => i.uimm.setWidth 32
  match i.csrOp with
  | .csrrc | .csrrci => c.rdata i.csrAddr &&& ~~~wdata
  | .csrrs | .csrrsi => c.rdata i.csrAddr ||| wdata
  | _ => wdata

/-! ## Traps and returns -/

/-- `calculate_exception_pc` applied to the mode bits of `tvec` and its base. -/
def calculateExceptionPc (tvec cause : Word) : Word :=
  let baseAddr := tvec &&& ~~~3#32
  if tvec.extractLsb' 0 2 = 0b01#2 then baseAddr ||| (cause <<< 2) else baseAddr

/-- Whether a trap with this cause is delegated: the mode is user or supervisor and
the bit of the cause is set in `mideleg` or `medeleg`. -/
def delegated (c : CsrUnit) (cause : Word) : Bool :=
  let mask := 1#32 <<< (cause &&& 0x7FFFFFFF#32)
  let deleg := if cause.getLsbD 31 then c.mideleg else c.medeleg
  (isUser c.privilegeMode || isSupervisor c.privilegeMode) && (deleg &&& mask != 0#32)

/-- The `exception_event` branch. -/
def takeException (c : CsrUnit) (cause pc badaddr : Word) : CsrUnit :=
  if c.delegated cause then
    { c with
      mstatus := (c.mstatus &&& ~~~sStackMask) ||| setBit 5 (bitOf c.mstatus 1) |||
        setBit 1 false ||| setBit 8 (isSupervisor c.privilegeMode)
      privilegeMode := 1#2
      sepc := pc
      scause := cause
      exceptionNextPc := calculateExceptionPc c.stvec cause
      stval := badaddr
      exceptionSelect := true }
  else
    { c with
      mstatus := (c.mstatus &&& ~~~mStackMask) ||| setBit 7 (bitOf c.mstatus 3) |||
        setBit 3 false ||| (c.privilegeMode.setWidth 32 <<< 11)
      privilegeMode := 3#2
      mepc := pc
      mcause := cause
      exceptionNextPc := calculateExceptionPc c.mtvec cause
      mtval := badaddr
      exceptionSelect := true }

/-- The `mret` branch. -/
def takeMret (c : CsrUnit) : CsrUnit :=
  { c with
    mstatus := (c.mstatus &&& ~~~(mStackMask ||| setBit 17 (!isMachine (mppOf c.mstatus)))) |||
      setBit 3 (bitOf c.mstatus 7) ||| setBit 7 true
    privilegeMode := mppOf c.mstatus
    exceptionNextPc := c.mepc
    exceptionSelect := true }

/-- The `sret` branch; like `mret` it clears `MPRV` when `MPP` is not machine. -/
def takeSret (c : CsrUnit) : CsrUnit :=
  { c with
    mstatus := (c.mstatus &&& ~~~(sStackMask ||| setBit 17 (!isMachine (mppOf c.mstatus)))) |||
      setBit 1 (bitOf c.mstatus 5) ||| setBit 5 true
    privilegeMode := (BitVec.ofBool (bitOf c.mstatus 8)).setWidth 2
    exceptionNextPc := c.sepc
    exceptionSelect := true }

/-! ## CSR writes -/

/-- The `csr_write_valid` branch. -/
def write (c : CsrUnit) (csrAddr : BitVec 12) (w : Word) : CsrUnit :=
  if csrAddr = 0x300#12 then { c with mstatus := w }
  else if csrAddr = 0x340#12 then { c with mscratch := w }
  else if csrAddr = 0x304#12 then { c with mie := w }
  else if csrAddr = 0x344#12 then { c with mip := w }
  else if csrAddr = 0x305#12 then { c with mtvec := w }
  else if csrAddr = 0x341#12 then { c with mepc := w }
  else if csrAddr = 0x342#12 then { c with mcause := w }
  else if csrAddr = 0x343#12 then { c with mtval := w }
  else if csrAddr = 0x30A#12 then { c with menvcfg := w }
  else if csrAddr = 0x31A#12 then { c with menvcfgh := w }
  else if csrAddr = 0x306#12 then { c with mcounteren := w }
  else if csrAddr = 0x320#12 then { c with mcountinhibit := w }
  else if csrAddr = 0x302#12 then { c with medeleg := w &&& medelegMask }
  else if csrAddr = 0x303#12 then { c with mideleg := w &&& midelegMask }
  else if csrAddr = 0x7C0#12 then { c with mtimecmp := w }
  else if csrAddr = 0x7C1#12 then { c with mtimecmph := w }
  else if csrAddr = 0x100#12 then
    { c with mstatus := (c.mstatus &&& ~~~sstatusMask) ||| (w &&& sstatusMask) }
  else if csrAddr = 0x140#12 then { c with sscratch := w }
  else if csrAddr = 0x104#12 then { c with mie := (c.mie &&& ~~~sipMask) ||| (w &&& sipMask) }
  else if csrAddr = 0x144#12 then { c with mip := (c.mip &&& ~~~sipMask) ||| (w &&& sipMask) }
  else if csrAddr = 0x105#12 then { c with stvec := w }
  else if csrAddr = 0x141#12 then { c with sepc := w }
  else if csrAddr = 0x142#12 then { c with scause := w }
  else if csrAddr = 0x143#12 then { c with stval := w }
  else if csrAddr = 0x180#12 then { c with satp := w }
  else if csrAddr = 0x14D#12 then { c with stimecmp := w }
  else if csrAddr = 0x15D#12 then { c with stimecmph := w }
  else if csrAddr = 0x106#12 then { c with scounteren := w }
  else c

/-- `csr_write_valid`, together with no trap or return in the same cycle. -/
def writes (c : CsrUnit) (i : CsrIn) : Bool :=
  !i.exceptionEvent && !i.mret && !i.sret && i.we && !c.csrAccessFault i.csrAddr i.we

/-- `tlb_flush` of `csr_unit`: a write to `satp` that changes the mode. -/
def tlbFlush (c : CsrUnit) (i : CsrIn) : Bool :=
  c.writes i && i.csrAddr == 0x180#12 && (satpModeOf c.satp != satpModeOf (c.wdataNxt i))

/-- Whether the cycle writes `mip` or `sip`, which overrides `mip_next`. -/
def writesMip (c : CsrUnit) (i : CsrIn) : Bool :=
  c.writes i && (i.csrAddr == 0x344#12 || i.csrAddr == 0x144#12)

/-! ## Counters and the clock edge -/

/-- The free-running counters: `systemClk / 1_000_000` cycles make one tick. -/
def countersNext (c : CsrUnit) (systemClk : ℕ) (incrInstRetired : Bool) : CsrUnit :=
  let div : BitVec 16 := BitVec.ofNat 16 (systemClk / 1000000)
  let tick := c.tickCnt.setWidth 32 == div.setWidth 32 - 1#32
  { c with
    instrCounter := if incrInstRetired then c.instrCounter + 1 else c.instrCounter
    tickCnt := if tick then 0 else c.tickCnt + 1
    timerCounter := if tick then c.timerCounter + 1 else c.timerCounter
    cycleCounter := c.cycleCounter + 1 }

/-- The CSR write and exception logic on the registers other than counters. -/
def eventNext (c : CsrUnit) (i : CsrIn) : CsrUnit :=
  let c := { c with exceptionSelect := false }
  if i.exceptionEvent then c.takeException i.cause i.pc i.badaddr
  else if i.mret then c.takeMret
  else if i.sret then c.takeSret
  else if i.we && !c.csrAccessFault i.csrAddr i.we then c.write i.csrAddr (c.wdataNxt i)
  else c

/-- One clock edge of `csr_unit` with its `interrupt_controller`. -/
def next (systemClk : ℕ) (c : CsrUnit) (i : CsrIn) : CsrUnit :=
  let c' := (c.eventNext i).countersNext systemClk i.incrInstRetired
  if c.writesMip i then c' else { c' with mip := c.mipNext i.irq3 i.irq7 i.irq9 i.irq11 }

end CsrUnit

end KianRiscV
