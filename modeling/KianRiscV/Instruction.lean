/-
# Instruction fields, decode helpers and control encodings

The decode helpers of `main_fsm.v`, the opcode macros of `rv32_amo_opcodes.vh` and
`riscv_priv_csr_status.vh`, and the select encodings of `riscv_defines.vh`.  Every
helper is a function of the 32-bit word in the instruction register.
-/
import Mathlib.Algebra.Group.Nat.Defs
import Mathlib.Tactic.Common

namespace KianRiscV

/-- A 32-bit word. -/
abbrev Word := BitVec 32

/-! ## Fields of an instruction word -/

def opOf (instr : Word) : BitVec 7 := instr.extractLsb' 0 7

def rdOf (instr : Word) : BitVec 5 := instr.extractLsb' 7 5

def funct3Of (instr : Word) : BitVec 3 := instr.extractLsb' 12 3

def rs1Of (instr : Word) : BitVec 5 := instr.extractLsb' 15 5

def rs2Of (instr : Word) : BitVec 5 := instr.extractLsb' 20 5

def funct7Of (instr : Word) : BitVec 7 := instr.extractLsb' 25 7

/-- `funct7[6:2]`, the operation field of the A extension. -/
def funct5Of (instr : Word) : BitVec 5 := instr.extractLsb' 27 5

/-! ## Opcodes -/

def isLoad (instr : Word) : Bool := opOf instr == 0b0000011#7

def isStore (instr : Word) : Bool := opOf instr == 0b0100011#7

def isRtype (instr : Word) : Bool := opOf instr == 0b0110011#7

def isItype (instr : Word) : Bool := opOf instr == 0b0010011#7

def isJal (instr : Word) : Bool := opOf instr == 0b1101111#7

def isJalr (instr : Word) : Bool := opOf instr == 0b1100111#7

def isBranch (instr : Word) : Bool := opOf instr == 0b1100011#7

def isLui (instr : Word) : Bool := opOf instr == 0b0110111#7

def isAuipc (instr : Word) : Bool := opOf instr == 0b0010111#7

/-- `SYSTEM_OPCODE` with one of the six Zicsr `funct3` codes. -/
def isCsr (instr : Word) : Bool :=
  opOf instr == 0b1110011#7 &&
    (funct3Of instr == 0b001#3 || funct3Of instr == 0b010#3 || funct3Of instr == 0b011#3 ||
      funct3Of instr == 0b101#3 || funct3Of instr == 0b110#3 || funct3Of instr == 0b111#3)

/-- `RV32_IS_AMO_INSTRUCTION`: opcode and `funct3` only. -/
def isAmo (instr : Word) : Bool := opOf instr == 0x2F#7 && funct3Of instr == 0x2#3

def isAmoaddW (instr : Word) : Bool := funct5Of instr == 0x00#5

def isAmoswapW (instr : Word) : Bool := funct5Of instr == 0x01#5

def isAmoLrW (instr : Word) : Bool := funct5Of instr == 0x02#5

def isAmoScW (instr : Word) : Bool := funct5Of instr == 0x03#5

def isAmoxorW (instr : Word) : Bool := funct5Of instr == 0x04#5

def isAmoandW (instr : Word) : Bool := funct5Of instr == 0x0C#5

def isAmoorW (instr : Word) : Bool := funct5Of instr == 0x08#5

def isAmominW (instr : Word) : Bool := funct5Of instr == 0x10#5

def isAmomaxW (instr : Word) : Bool := funct5Of instr == 0x14#5

def isAmominuW (instr : Word) : Bool := funct5Of instr == 0x18#5

def isAmomaxuW (instr : Word) : Bool := funct5Of instr == 0x1C#5

/-- The nine read-modify-write codes of `AMO_ADDR`. -/
def isAmoRmw (instr : Word) : Bool :=
  isAmoaddW instr || isAmoswapW instr || isAmoxorW instr || isAmoandW instr ||
    isAmoorW instr || isAmominW instr || isAmomaxW instr || isAmominuW instr ||
    isAmomaxuW instr

def isFence (instr : Word) : Bool := opOf instr == 0b0001111#7 && funct3Of instr == 0b000#3

def isFenceI (instr : Word) : Bool := opOf instr == 0b0001111#7 && funct3Of instr == 0b001#3

def isSfenceVma (instr : Word) : Bool :=
  opOf instr == 0b1110011#7 && funct3Of instr == 0b000#3 && funct7Of instr == 0b0001001#7

/-- `IS_EBREAK` and its siblings compare the concatenation of all fields, that is
the whole word. -/
def isEbreak (instr : Word) : Bool := instr == 0x00100073#32

def isEcall (instr : Word) : Bool := instr == 0x00000073#32

def isMret (instr : Word) : Bool := instr == 0x30200073#32

def isSret (instr : Word) : Bool := instr == 0x10200073#32

def isWfi (instr : Word) : Bool := instr == 0x10500073#32

/-! ## Privilege levels -/

/-- `IS_USER`, `IS_SUPERVISOR` and `IS_MACHINE`. -/
def isUser (privilege : BitVec 2) : Bool := privilege == 0#2

def isSupervisor (privilege : BitVec 2) : Bool := privilege == 1#2

def isMachine (privilege : BitVec 2) : Bool := privilege == 3#2

/-! ## Select encodings of `riscv_defines.vh` -/

/-- `SRCA_*`, the first ALU operand. -/
inductive SrcA where
  | pc | oldPc | rd1Buf | amoTempData | const0
  deriving DecidableEq, Repr

/-- `SRCB_*`, the second ALU operand. -/
inductive SrcB where
  | rd2Buf | immExt | const4 | const0
  deriving DecidableEq, Repr

/-- `RESULT_*`, the result multiplexer. -/
inductive ResultSrc where
  | aluout | data | aluresult | mulout | csrout | amoTempAddr
  deriving DecidableEq, Repr

/-- `IMMSRC_*`; `dontCare` stands for the `3'bxxx` of instructions without an
immediate. -/
inductive ImmSrc where
  | itype | stype | btype | utype | jtype | dontCare
  deriving DecidableEq, Repr

/-- `ALU_OP_*`. -/
inductive AluOp where
  | add | sub | arithLogic | lui | auipc | branch | amo
  deriving DecidableEq, Repr

/-- `AMO_OP_*`; `dontCare` stands for the `x` of an unknown `funct5`. -/
inductive AmoOp where
  | addW | swapW | lrW | scW | xorW | andW | orW | minW | maxW | minuW | maxuW | dontCare
  deriving DecidableEq, Repr

/-- `ALU_CTRL_*`; `dontCare` stands for `'hx`, which the `alu` sends to its default. -/
inductive AluCtrl where
  | addAddi | sub | xorXori | orOri | andAndi | sllSlli | srlSrli | sraSrai | sltSlti
  | auipc | lui | sltuSltiu | beq | bne | blt | bge | bltu | bgeu
  | min | max | minu | maxu | dontCare
  deriving DecidableEq, Repr

/-- `MUL_OP_*`. -/
inductive MulOp where
  | mul | mulh | mulsu | mulu
  deriving DecidableEq, Repr

/-- `DIV_OP_*`. -/
inductive DivOp where
  | div | divu | rem | remu
  deriving DecidableEq, Repr

/-- `STORE_OP_*`. -/
inductive StoreOp where
  | sb | sh | sw
  deriving DecidableEq, Repr

/-- `LOAD_OP_*`. -/
inductive LoadOp where
  | lb | lbu | lh | lhu | lw
  deriving DecidableEq, Repr

/-- `CSR_OP_*`. -/
inductive CsrOp where
  | csrrw | csrrs | csrrc | csrrwi | csrrsi | csrrci | na
  deriving DecidableEq, Repr

/-! ## Selections made by the instruction word alone -/

/-- The `AMOop` selection of `main_fsm`. -/
def amoOpOf (instr : Word) : AmoOp :=
  if isAmoaddW instr then .addW
  else if isAmoswapW instr then .swapW
  else if isAmoLrW instr then .lrW
  else if isAmoScW instr then .scW
  else if isAmoxorW instr then .xorW
  else if isAmoandW instr then .andW
  else if isAmoorW instr then .orW
  else if isAmominW instr then .minW
  else if isAmomaxW instr then .maxW
  else if isAmominuW instr then .minuW
  else if isAmomaxuW instr then .maxuW
  else .dontCare

/-- The `ImmSrc` selection of `main_fsm`. -/
def immSrcOf (instr : Word) : ImmSrc :=
  if isRtype instr then .dontCare
  else if isItype instr || isJalr instr || isLoad instr || isCsr instr then .itype
  else if isStore instr then .stype
  else if isBranch instr then .btype
  else if isLui instr || isAuipc instr then .utype
  else if isJal instr then .jtype
  else .dontCare

/-- `amo_data_load`. -/
def amoDataLoad (instr : Word) : Bool := isAmo instr && isAmoLrW instr

/-- `amo_operation_store`. -/
def amoOperationStore (instr : Word) : Bool := isAmo instr && isAmoScW instr

end KianRiscV
