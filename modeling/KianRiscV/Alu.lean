/-
# The combinational units of the datapath

`extend.v`, `alu_decoder.v`, `alu.v`, the load and store decoders and aligners
(`load_decoder.v`, `load_alignment.v`, `store_decoder.v`, `store_alignment.v`) and
the decoders of the multiplier extension.
-/
import KianRiscV.Instruction

namespace KianRiscV

/-! ## Immediates -/

/-- `extend`. -/
def extend (instr : Word) (immsrc : ImmSrc) : Word :=
  match immsrc with
  | .itype => (instr.extractLsb' 20 12).signExtend 32
  | .stype => (instr.extractLsb' 25 7 ++ instr.extractLsb' 7 5).signExtend 32
  | .btype =>
    (instr.extractLsb' 31 1 ++ instr.extractLsb' 7 1 ++ instr.extractLsb' 25 6 ++
      instr.extractLsb' 8 4 ++ 0#1).signExtend 32
  | .jtype =>
    (instr.extractLsb' 31 1 ++ instr.extractLsb' 12 8 ++ instr.extractLsb' 20 1 ++
      instr.extractLsb' 21 10 ++ 0#1).signExtend 32
  | .utype => instr.extractLsb' 12 20 ++ 0#12
  | .dontCare => 0#32

/-- The immediate of the word in the instruction register, `ImmExt`. -/
def immExtOf (instr : Word) : Word := extend instr (immSrcOf instr)

/-! ## The ALU -/

/-- `alu_decoder`; `imm_bit10` is `ImmExt[10]`. -/
def aluDecoder (immBit10 : Bool) (instr : Word) (aluOp : AluOp) : AluCtrl :=
  let opBit5 := instr.getLsbD 5
  let funct7b5 := instr.getLsbD 30
  let isRtypeSub := opBit5 && funct7b5
  let isSrlSrli := (opBit5 && !funct7b5) || (!opBit5 && !immBit10)
  match aluOp with
  | .add => .addAddi
  | .sub => .sub
  | .auipc => .auipc
  | .lui => .lui
  | .branch =>
    if funct3Of instr = 0b000#3 then .beq
    else if funct3Of instr = 0b001#3 then .bne
    else if funct3Of instr = 0b100#3 then .blt
    else if funct3Of instr = 0b101#3 then .bge
    else if funct3Of instr = 0b110#3 then .bltu
    else if funct3Of instr = 0b111#3 then .bgeu
    else .dontCare
  | .amo =>
    match amoOpOf instr with
    | .addW => .addAddi
    | .swapW => .addAddi
    | .lrW => .addAddi
    | .scW => .addAddi
    | .xorW => .xorXori
    | .andW => .andAndi
    | .orW => .orOri
    | .minW => .min
    | .maxW => .max
    | .minuW => .minu
    | .maxuW => .maxu
    | .dontCare => .dontCare
  | .arithLogic =>
    if funct3Of instr = 0b000#3 then (if isRtypeSub then .sub else .addAddi)
    else if funct3Of instr = 0b100#3 then .xorXori
    else if funct3Of instr = 0b110#3 then .orOri
    else if funct3Of instr = 0b111#3 then .andAndi
    else if funct3Of instr = 0b010#3 then .sltSlti
    else if funct3Of instr = 0b001#3 then .sllSlli
    else if funct3Of instr = 0b011#3 then .sltuSltiu
    else if isSrlSrli then .srlSrli
    else .sraSrai

/-- `{31'b0, b}`. -/
def boolWord (b : Bool) : Word := (BitVec.ofBool b).setWidth 32

/-- `alu`, the `result` output. -/
def alu (a b : Word) (alucontrol : AluCtrl) : Word :=
  let shamt := (b.extractLsb' 0 5).toNat
  match alucontrol with
  | .auipc => a + b
  | .addAddi => a + b
  | .sub => a - b
  | .xorXori => a ^^^ b
  | .orOri => a ||| b
  | .andAndi => a &&& b
  | .sllSlli => a <<< shamt
  | .srlSrli => a >>> shamt
  | .sraSrai => a.sshiftRight shamt
  | .sltSlti => boolWord (a.slt b)
  | .sltuSltiu => boolWord (a.ult b)
  | .min => if a.slt b then a else b
  | .max => if b.sle a then a else b
  | .minu => if a.ult b then a else b
  | .maxu => if b.ule a then a else b
  | .lui => b
  | .beq => boolWord (a == b)
  | .bne => boolWord (a != b)
  | .bge => boolWord (b.sle a)
  | .bgeu => boolWord (b.ule a)
  | .blt => boolWord (a.slt b)
  | .bltu => boolWord (a.ult b)
  | .dontCare => 0#32

/-- `alu`, the `zero` output: the complement of bit 0 of the result. -/
def aluZero (result : Word) : Bool := !result.getLsbD 0

/-! ## Loads -/

/-- `load_decoder`, the `LOADop` output. -/
def loadDecoder (instr : Word) : LoadOp :=
  if !amoDataLoad instr then
    if funct3Of instr = 0b000#3 then .lb
    else if funct3Of instr = 0b100#3 then .lbu
    else if funct3Of instr = 0b101#3 then .lhu
    else if funct3Of instr = 0b001#3 then .lh
    else if funct3Of instr = 0b010#3 then .lw
    else .lb
  else .lw

/-- `load_decoder`, the `is_load_unaligned` output: `LHU` has no check. -/
def isLoadUnaligned (instr : Word) (addrAlignBits : BitVec 2) : Bool :=
  if !amoDataLoad instr then
    if funct3Of instr = 0b001#3 then addrAlignBits.getLsbD 0
    else if funct3Of instr = 0b010#3 then addrAlignBits != 0#2
    else false
  else addrAlignBits != 0#2

/-- `load_alignment`. -/
def loadAlignment (addr : BitVec 2) (loadOp : LoadOp) (data : Word) : Word :=
  let byte : BitVec 8 :=
    if addr = 0b00#2 then data.extractLsb' 0 8
    else if addr = 0b01#2 then data.extractLsb' 8 8
    else if addr = 0b10#2 then data.extractLsb' 16 8
    else data.extractLsb' 24 8
  let half : BitVec 16 :=
    if !addr.getLsbD 1 then data.extractLsb' 0 16 else data.extractLsb' 16 16
  match loadOp with
  | .lb => byte.signExtend 32
  | .lbu => byte.setWidth 32
  | .lh => half.signExtend 32
  | .lhu => half.setWidth 32
  | .lw => data

/-! ## Stores -/

/-- `store_decoder`, the `STOREop` output. -/
def storeDecoder (instr : Word) : StoreOp :=
  if !amoOperationStore instr then
    if (funct3Of instr).extractLsb' 0 2 = 0b00#2 then .sb
    else if (funct3Of instr).extractLsb' 0 2 = 0b01#2 then .sh
    else if (funct3Of instr).extractLsb' 0 2 = 0b10#2 then .sw
    else .sb
  else .sw

/-- `store_decoder`, the `is_store_unaligned` output. -/
def isStoreUnaligned (instr : Word) (addrAlignBits : BitVec 2) : Bool :=
  if !amoOperationStore instr then
    if (funct3Of instr).extractLsb' 0 2 = 0b01#2 then addrAlignBits.getLsbD 0
    else if (funct3Of instr).extractLsb' 0 2 = 0b10#2 then addrAlignBits != 0#2
    else false
  else addrAlignBits != 0#2

/-- `store_alignment`, the `result` output.  Byte lanes the source leaves at `x`
are zero here; `storeWmask` never enables them. -/
def storeAlignment (addr : BitVec 2) (storeOp : StoreOp) (data : Word) : Word :=
  match storeOp with
  | .sb =>
    if addr = 0b00#2 then (data.extractLsb' 0 8).setWidth 32
    else if addr = 0b01#2 then (data.extractLsb' 0 8).setWidth 32 <<< 8
    else if addr = 0b10#2 then (data.extractLsb' 0 8).setWidth 32 <<< 16
    else (data.extractLsb' 0 8).setWidth 32 <<< 24
  | .sh =>
    if !addr.getLsbD 1 then (data.extractLsb' 0 16).setWidth 32
    else (data.extractLsb' 0 16).setWidth 32 <<< 16
  | .sw => data

/-- `store_alignment`, the `wmask` output. -/
def storeWmask (addr : BitVec 2) (storeOp : StoreOp) : BitVec 4 :=
  match storeOp with
  | .sb =>
    if addr = 0b00#2 then 0b0001#4
    else if addr = 0b01#2 then 0b0010#4
    else if addr = 0b10#2 then 0b0100#4
    else 0b1000#4
  | .sh => if addr.getLsbD 1 then 0b1100#4 else 0b0011#4
  | .sw => 0b1111#4

/-! ## The multiplier extension -/

/-- `multiplier_decoder`, the `MULop` output; the `x` of the divide codes is
`mul`, which `mul_valid` keeps unused. -/
def mulOpOf (instr : Word) : MulOp :=
  if funct3Of instr = 0b000#3 then .mul
  else if funct3Of instr = 0b001#3 then .mulh
  else if funct3Of instr = 0b010#3 then .mulsu
  else if funct3Of instr = 0b011#3 then .mulu
  else .mul

/-- `divider_decoder`, the `DIVop` output. -/
def divOpOf (instr : Word) : DivOp :=
  if funct3Of instr = 0b100#3 then .div
  else if funct3Of instr = 0b101#3 then .divu
  else if funct3Of instr = 0b110#3 then .rem
  else if funct3Of instr = 0b111#3 then .remu
  else .div

/-- The `valid` wire of `multiplier_decoder`: one of the four multiply codes. -/
def isMulCode (instr : Word) : Bool :=
  funct3Of instr == 0b000#3 || funct3Of instr == 0b001#3 || funct3Of instr == 0b010#3 ||
    funct3Of instr == 0b011#3

/-- The `valid` wire of `divider_decoder`: one of the four divide codes. -/
def isDivCode (instr : Word) : Bool :=
  funct3Of instr == 0b100#3 || funct3Of instr == 0b101#3 || funct3Of instr == 0b110#3 ||
    funct3Of instr == 0b111#3

end KianRiscV
