/-
# The control state machine

`main_fsm.v`: the 63 states, the next-state logic, and the output logic.  The
outputs fall into two groups: those fixed by the state and the instruction word
(`Moore`), which steer the datapath's multiplexers, and those that also depend on
the inputs of the same cycle (`Mealy`).
-/
import KianRiscV.Alu

namespace KianRiscV

/-! ## States -/

/-- The states of `main_fsm`, in the order of their encodings. -/
inductive FsmState where
  | fetch | decode
  | memAddr | memRead | memWb | memWrite
  | execRtype | aluWb | execItype
  | jal | branch | jalr | lui | auipc
  | execMul | mulWb
  | execSystem | systemWb
  | amoAddr | amoLrRead | amoLrWb | amoScWrite | amoScSuccess | amoScFail
  | amoOpRead | amoOpWb | amoOpExec | amoOpAddr | amoOpWrite | amoComplete
  | mret0 | mret1 | csrFault0 | csrFault1 | ecall0 | ecall1 | irq0 | irq1 | wfi | ebreak0
  | illegal0 | illegal1 | loadMisalign0 | loadMisalign1 | storeMisalign0 | storeMisalign1
  | loadFault0 | loadFault1 | storeFault0 | storeFault1 | sret0 | sret1
  | ipageFault0 | ipageFault1 | lpageFault0 | lpageFault1 | spageFault0 | spageFault1
  | instrMisalign0 | instrMisalign1 | instrFault0 | instrFault1 | ebreak1
  deriving DecidableEq, Repr

/-- The interrupt request lines of `interrupt_controller`. -/
structure IrqLines where
  ctrl1 : Bool
  ctrl3 : Bool
  ctrl5 : Bool
  ctrl7 : Bool
  ctrl9 : Bool
  ctrl11 : Bool
  deriving DecidableEq, Repr

/-- `irq_pending`. -/
def IrqLines.pending (q : IrqLines) : Bool :=
  q.ctrl1 || q.ctrl3 || q.ctrl5 || q.ctrl7 || q.ctrl9 || q.ctrl11

/-- The inputs of `main_fsm`, with the fields of the instruction word in `instr`. -/
structure FsmIn where
  instr : Word
  zero : Bool
  mstatusTw : Bool
  mstatusTvm : Bool
  satpMode : Bool
  faultAddress : Word
  cpuMemAddr : Word
  isInstructionUnaligned : Bool
  isLoadUnaligned : Bool
  isStoreUnaligned : Bool
  accessFault : Bool
  pageFault : Bool
  amoReservedStateLoad : Bool
  privilegeMode : BitVec 2
  csrAccessFault : Bool
  irq : IrqLines
  mulExtReady : Bool
  memReady : Bool

/-! ## Privilege helpers -/

namespace FsmIn

/-- `wfi_illegal`; `priv_u` is every mode other than machine and supervisor. -/
def wfiIllegal (i : FsmIn) : Bool :=
  isWfi i.instr && (!isMachine i.privilegeMode && i.mstatusTw)

/-- `wfi_allowed`. -/
def wfiAllowed (i : FsmIn) : Bool := isWfi i.instr && !i.wfiIllegal

/-- `is_sfence_vma_legal`. -/
def isSfenceVmaLegal (i : FsmIn) : Bool :=
  isMachine i.privilegeMode || (isSupervisor i.privilegeMode && !i.mstatusTvm)

/-- `sfence_vma_effective`. -/
def sfenceVmaEffective (i : FsmIn) : Bool :=
  isSfenceVma i.instr && i.isSfenceVmaLegal && i.satpMode

end FsmIn

/-! ## Next-state logic -/

/-- The branch of a state that waits for a memory access. -/
def accessNxt (unaligned : Bool) (misalign fault page done stay : FsmState) (i : FsmIn) :
    FsmState :=
  if unaligned then misalign
  else if i.pageFault then page
  else if i.memReady then (if i.accessFault then fault else done)
  else stay

/-- The `DECODE` branch of the next-state logic. -/
def decodeNxt (i : FsmIn) : FsmState :=
  if i.irq.pending then .irq0
  else if isLoad i.instr || isStore i.instr then .memAddr
  else if isRtype i.instr && !i.instr.getLsbD 25 then .execRtype
  else if isRtype i.instr && i.instr.getLsbD 25 then .execMul
  else if isItype i.instr then .execItype
  else if isJal i.instr then .jal
  else if isJalr i.instr then .jalr
  else if isBranch i.instr then .branch
  else if isLui i.instr then .lui
  else if isAuipc i.instr then .auipc
  else if isCsr i.instr then .execSystem
  else if isAmo i.instr then .amoAddr
  else if isSfenceVma i.instr then (if i.isSfenceVmaLegal then .fetch else .illegal0)
  else if isFence i.instr then .fetch
  else if isFenceI i.instr then .fetch
  else if i.wfiIllegal then .illegal0
  else if i.wfiAllowed then .fetch
  else if isMret i.instr then .mret0
  else if isSret i.instr then .sret0
  else if isEcall i.instr then .ecall0
  else if isEbreak i.instr then .ebreak0
  else .illegal0

/-- `state_nxt`. -/
def stateNxt (st : FsmState) (i : FsmIn) : FsmState :=
  match st with
  | .fetch =>
    accessNxt i.isInstructionUnaligned .instrMisalign0 .instrFault0 .ipageFault0 .decode .fetch i
  | .decode => decodeNxt i
  | .memAddr => if isLoad i.instr then .memRead else .memWrite
  | .memRead =>
    accessNxt i.isLoadUnaligned .loadMisalign0 .loadFault0 .lpageFault0 .memWb .memRead i
  | .memWb => .fetch
  | .memWrite =>
    accessNxt i.isStoreUnaligned .storeMisalign0 .storeFault0 .spageFault0 .fetch .memWrite i
  | .execRtype => .aluWb
  | .aluWb => .fetch
  | .execItype => .aluWb
  | .jal => .aluWb
  | .branch => .fetch
  | .jalr => .jal
  | .lui => .aluWb
  | .auipc => .aluWb
  | .execMul => if i.mulExtReady then .mulWb else .execMul
  | .mulWb => .fetch
  | .execSystem => if i.csrAccessFault then .csrFault0 else .systemWb
  | .systemWb => .fetch
  | .amoAddr =>
    if isAmoLrW i.instr then .amoLrRead
    else if isAmoScW i.instr then
      (if i.amoReservedStateLoad then .amoScWrite else .amoScFail)
    else if isAmoRmw i.instr then .amoOpRead
    else .amoAddr
  | .amoLrRead =>
    accessNxt i.isLoadUnaligned .loadMisalign0 .loadFault0 .lpageFault0 .amoLrWb .amoLrRead i
  | .amoLrWb => .fetch
  | .amoScWrite =>
    accessNxt i.isStoreUnaligned .storeMisalign0 .storeFault0 .spageFault0
      .amoScSuccess .amoScWrite i
  | .amoScSuccess => .fetch
  | .amoScFail => .fetch
  | .amoOpRead =>
    accessNxt i.isLoadUnaligned .loadMisalign0 .loadFault0 .lpageFault0 .amoOpWb .amoOpRead i
  | .amoOpWb => .amoOpExec
  | .amoOpExec => .amoOpAddr
  | .amoOpAddr => .amoOpWrite
  | .amoOpWrite =>
    accessNxt i.isStoreUnaligned .storeMisalign0 .storeFault0 .spageFault0 .fetch .amoOpWrite i
  | .amoComplete => .fetch
  | .mret0 => .mret1
  | .mret1 => .fetch
  | .csrFault0 => .csrFault1
  | .csrFault1 => .fetch
  | .ecall0 => .ecall1
  | .ecall1 => .fetch
  | .irq0 => .irq1
  | .irq1 => .fetch
  | .wfi => .fetch
  | .ebreak0 => .ebreak1
  | .illegal0 => .illegal1
  | .illegal1 => .fetch
  | .loadMisalign0 => .loadMisalign1
  | .loadMisalign1 => .fetch
  | .storeMisalign0 => .storeMisalign1
  | .storeMisalign1 => .fetch
  | .loadFault0 => .loadFault1
  | .loadFault1 => .fetch
  | .storeFault0 => .storeFault1
  | .storeFault1 => .fetch
  | .sret0 => .sret1
  | .sret1 => .fetch
  | .ipageFault0 => .ipageFault1
  | .ipageFault1 => .fetch
  | .lpageFault0 => .lpageFault1
  | .lpageFault1 => .fetch
  | .spageFault0 => .spageFault1
  | .spageFault1 => .fetch
  | .instrMisalign0 => .instrMisalign1
  | .instrMisalign1 => .fetch
  | .instrFault0 => .instrFault1
  | .instrFault1 => .fetch
  | .ebreak1 => .fetch

/-- `is_instruction`. -/
def isInstruction : FsmState → Bool
  | .fetch | .memWb | .aluWb | .branch | .mulWb | .systemWb | .amoLrWb | .amoScSuccess
  | .amoScFail | .amoComplete => true
  | _ => false

/-- The states that record `cpu_mem_addr` in `trap_addr`. -/
def latchesTrapAddr : FsmState → Bool
  | .fetch | .memRead | .memWrite | .amoLrRead | .amoScWrite | .amoOpRead | .amoOpWrite => true
  | _ => false

/-! ## Output logic: outputs of the state -/

/-- The outputs that depend on the state and, for `AMOSWAP.W`, the instruction. -/
structure Moore where
  adrSrc : Bool := false
  aluSrcA : SrcA := .pc
  aluSrcB : SrcB := .rd2Buf
  aluOp : AluOp := .add
  resultSrc : ResultSrc := .aluout
  branch : Bool := false
  regWrite : Bool := false
  memWrite : Bool := false
  csrValid : Bool := false
  selectAluResult : Bool := false
  amoBufferedData : Bool := false
  amoBufferedAddress : Bool := false
  selectAmoTemp : Bool := false
  muxedAluoutOrAmoRdWr : Bool := false
  mulExtValid : Bool := false
  exceptionEvent : Bool := false
  mret : Bool := false
  sret : Bool := false
  selectPC : Bool := false

/-- The output logic of `main_fsm` for the `Moore` outputs. -/
def moore (st : FsmState) (instr : Word) : Moore :=
  match st with
  | .fetch => { aluSrcA := .pc, aluSrcB := .const4, aluOp := .add, resultSrc := .aluresult }
  | .decode => { aluSrcA := .oldPc, aluSrcB := .immExt, aluOp := .add }
  | .memAddr => { aluSrcA := .rd1Buf, aluSrcB := .immExt, aluOp := .add }
  | .memRead => { resultSrc := .aluout, adrSrc := true }
  | .memWb => { resultSrc := .data, regWrite := true }
  | .memWrite => { resultSrc := .aluout, adrSrc := true, memWrite := true }
  | .execRtype => { aluSrcA := .rd1Buf, aluSrcB := .rd2Buf, aluOp := .arithLogic }
  | .aluWb => { resultSrc := .aluout, regWrite := true }
  | .execItype => { aluSrcA := .rd1Buf, aluSrcB := .immExt, aluOp := .arithLogic }
  | .jal => { aluSrcA := .oldPc, aluSrcB := .const4, aluOp := .add, resultSrc := .aluout }
  | .branch =>
    { aluSrcA := .rd1Buf, aluSrcB := .rd2Buf, aluOp := .branch, resultSrc := .aluout,
      branch := true }
  | .jalr => { aluSrcA := .rd1Buf, aluSrcB := .immExt, aluOp := .add }
  | .lui => { aluSrcB := .immExt, aluOp := .lui }
  | .auipc => { aluSrcA := .oldPc, aluSrcB := .immExt, aluOp := .auipc }
  | .execMul => { aluSrcA := .rd1Buf, aluSrcB := .rd2Buf, mulExtValid := true }
  | .mulWb => { resultSrc := .mulout, regWrite := true }
  | .execSystem => { aluSrcA := .rd1Buf, aluSrcB := .immExt, csrValid := true }
  | .systemWb => { resultSrc := .csrout, regWrite := true }
  | .amoAddr =>
    { aluSrcA := .rd1Buf, aluSrcB := .const0, aluOp := .add, amoBufferedAddress := true }
  | .amoLrRead => { amoBufferedData := true, resultSrc := .aluout, adrSrc := true }
  | .amoLrWb => { resultSrc := .data, regWrite := true }
  | .amoScWrite => { resultSrc := .amoTempAddr, adrSrc := true, memWrite := true }
  | .amoScSuccess =>
    { muxedAluoutOrAmoRdWr := true, resultSrc := .aluout, regWrite := true }
  | .amoScFail =>
    { amoBufferedData := true, muxedAluoutOrAmoRdWr := true, resultSrc := .aluout,
      regWrite := true }
  | .amoOpRead => { adrSrc := true, resultSrc := .aluout }
  | .amoOpWb =>
    { aluOp := .add, aluSrcA := .amoTempData, aluSrcB := .const0, resultSrc := .data,
      regWrite := true }
  | .amoOpExec =>
    { aluOp := .amo, aluSrcA := if isAmoswapW instr then .const0 else .amoTempData,
      aluSrcB := .rd2Buf, resultSrc := .aluresult, selectAluResult := true }
  | .amoOpAddr => { aluSrcA := .rd1Buf, aluSrcB := .const0, aluOp := .add }
  | .amoOpWrite =>
    { memWrite := true, selectAmoTemp := true, resultSrc := .amoTempAddr, adrSrc := true }
  | .mret0 => { mret := true }
  | .sret0 => { sret := true }
  | .ipageFault0 => { exceptionEvent := true, selectPC := true }
  | .ipageFault1 => { selectPC := true }
  | .csrFault0 | .ecall0 | .irq0 | .ebreak0 | .illegal0 | .loadMisalign0 | .storeMisalign0
  | .loadFault0 | .storeFault0 | .lpageFault0 | .spageFault0 | .instrMisalign0
  | .instrFault0 => { exceptionEvent := true }
  | _ => {}

/-! ## Output logic: outputs of the state and the inputs -/

/-- `store_instr`. -/
def storeInstr (st : FsmState) (memReady : Bool) : Bool := st == .fetch && memReady

/-- `PCUpdate`. -/
def pcUpdate (st : FsmState) (memReady : Bool) : Bool :=
  match st with
  | .fetch => memReady
  | .jal | .mret1 | .csrFault1 | .ecall1 | .irq1 | .illegal1 | .loadMisalign1
  | .storeMisalign1 | .loadFault1 | .storeFault1 | .sret1 | .ipageFault1 | .lpageFault1
  | .spageFault1 | .instrMisalign1 | .instrFault1 | .ebreak1 => true
  | _ => false

/-- `mem_valid`: besides the accesses themselves, every write-back state already
presents the fetch of the next instruction. -/
def memValid (st : FsmState) (zero isLoadUnaligned isStoreUnaligned : Bool) : Bool :=
  match st with
  | .fetch | .memWb | .aluWb | .mulWb | .systemWb | .amoLrWb | .amoScSuccess | .amoScFail
  | .amoComplete => true
  | .branch => zero
  | .memRead | .amoLrRead | .amoOpRead => !isLoadUnaligned
  | .memWrite | .amoScWrite | .amoOpWrite => !isStoreUnaligned
  | _ => false

/-- `amo_set_reserved_state_load`. -/
def amoSetReservedStateLoad (st : FsmState) (isLoadUnaligned : Bool) : Bool :=
  match st with
  | .amoLrRead => !isLoadUnaligned
  | .amoScWrite => true
  | _ => false

/-- `amo_temp_write_operation`. -/
def amoTempWriteOperation (st : FsmState) (isLoadUnaligned : Bool) : Bool :=
  match st with
  | .amoOpRead => !isLoadUnaligned
  | .amoOpExec => true
  | _ => false

/-- `tlb_flush` of `main_fsm`. -/
def fsmTlbFlush (st : FsmState) (i : FsmIn) : Bool := st == .decode && i.sfenceVmaEffective

/-- `icache_flush`. -/
def icacheFlush (st : FsmState) (instr : Word) : Bool := st == .decode && isFenceI instr

/-- `cause`; `ECALL_0` puts the privilege mode into the low bits of the user code. -/
def cause (st : FsmState) (i : FsmIn) : Word :=
  match st with
  | .csrFault0 | .illegal0 => 0x00000002#32
  | .ecall0 => 0b10#30 ++ i.privilegeMode
  | .irq0 =>
    if i.irq.ctrl1 then 0x80000001#32
    else if i.irq.ctrl3 then 0x80000003#32
    else if i.irq.ctrl5 then 0x80000005#32
    else if i.irq.ctrl7 then 0x80000007#32
    else if i.irq.ctrl9 then 0x80000009#32
    else if i.irq.ctrl11 then 0x8000000B#32
    else 0#32
  | .ebreak0 => 0x00000003#32
  | .loadMisalign0 => 0x00000004#32
  | .storeMisalign0 => 0x00000006#32
  | .loadFault0 => 0x00000005#32
  | .storeFault0 => 0x00000007#32
  | .ipageFault0 => 0x0000000C#32
  | .lpageFault0 => 0x0000000D#32
  | .spageFault0 => 0x0000000F#32
  | .instrMisalign0 => 0x00000000#32
  | .instrFault0 => 0x00000001#32
  | _ => 0#32

/-- `badaddr`. -/
def badaddr (st : FsmState) (trapAddr : Word) (i : FsmIn) : Word :=
  match st with
  | .csrFault0 | .illegal0 => (opOf i.instr).setWidth 32
  | .loadMisalign0 | .storeMisalign0 | .loadFault0 | .storeFault0 | .instrMisalign0
  | .instrFault0 => trapAddr
  | .ipageFault0 | .lpageFault0 | .spageFault0 => i.faultAddress
  | _ => 0#32

/-- `retire_pulse_int`, which drives `incr_inst_retired`. -/
def retirePulse (st : FsmState) (i : FsmIn) : Bool :=
  match st with
  | .aluWb | .mulWb | .memWb | .systemWb | .branch | .amoLrWb | .amoScSuccess | .amoScFail
  | .mret1 | .sret1 => true
  | .memWrite | .amoOpWrite => i.memReady && !i.accessFault && !i.isStoreUnaligned
  | .decode =>
    isFence i.instr || isFenceI i.instr || i.sfenceVmaEffective || i.wfiAllowed
  | _ => false

end KianRiscV
