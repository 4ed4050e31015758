/-
# The integer instructions of RV32IM

What the ratified specification says about `OP`, `OP-IMM`, `LUI`, `AUIPC` and the M
extension: which words encode them, the value each gives its destination register, and
the step of the architectural state.  The control transfers `JAL`, `JALR` and `BRANCH`, `LOAD`
and `STORE` on a memory of bytes, and `AMO` follow at the end.  Nothing here is read off the
processor.
-/
import KianRiscV.Instruction
import Mathlib.Algebra.Group.Int.Defs

namespace KianRiscV

namespace Rv32im

/-! ## Instructions -/

/-- The operations of `OP`, and of `OP-IMM` without `sub`. -/
inductive IntOp where
  | add | sub | sll | slt | sltu | xor | srl | sra | or | and
  deriving DecidableEq, Repr

/-- The operations of the M extension. -/
inductive MulDivOp where
  | mul | mulh | mulhsu | mulhu | div | divu | rem | remu
  deriving DecidableEq, Repr

/-- An instruction with its operands decoded. -/
inductive Instr where
  | op (f : IntOp) (rd rs1 rs2 : BitVec 5)
  | opImm (f : IntOp) (rd rs1 : BitVec 5) (imm : Word)
  | mulDiv (f : MulDivOp) (rd rs1 rs2 : BitVec 5)
  | lui (rd : BitVec 5) (imm : Word)
  | auipc (rd : BitVec 5) (imm : Word)
  deriving DecidableEq

/-- The destination register. -/
def Instr.rd : Instr → BitVec 5
  | .op _ rd _ _ | .opImm _ rd _ _ | .mulDiv _ rd _ _ | .lui rd _ | .auipc rd _ => rd

/-! ## Encodings -/

/-- The operation of a `funct3` in the base encoding. -/
def baseOp (funct3 : BitVec 3) : IntOp :=
  if funct3 = 0#3 then .add
  else if funct3 = 1#3 then .sll
  else if funct3 = 2#3 then .slt
  else if funct3 = 3#3 then .sltu
  else if funct3 = 4#3 then .xor
  else if funct3 = 5#3 then .srl
  else if funct3 = 6#3 then .or
  else .and

/-- The operation of a `funct3` in the M encoding. -/
def mulDivOp (funct3 : BitVec 3) : MulDivOp :=
  if funct3 = 0#3 then .mul
  else if funct3 = 1#3 then .mulh
  else if funct3 = 2#3 then .mulhsu
  else if funct3 = 3#3 then .mulhu
  else if funct3 = 4#3 then .div
  else if funct3 = 5#3 then .divu
  else if funct3 = 6#3 then .rem
  else .remu

/-- `OP`. -/
def decodeOp (w : Word) : Option Instr :=
  if funct7Of w = 0#7 then some (.op (baseOp (funct3Of w)) (rdOf w) (rs1Of w) (rs2Of w))
  else if funct7Of w = 1#7 then
    some (.mulDiv (mulDivOp (funct3Of w)) (rdOf w) (rs1Of w) (rs2Of w))
  else if funct7Of w = 32#7 ∧ funct3Of w = 0#3 then
    some (.op .sub (rdOf w) (rs1Of w) (rs2Of w))
  else if funct7Of w = 32#7 ∧ funct3Of w = 5#3 then
    some (.op .sra (rdOf w) (rs1Of w) (rs2Of w))
  else none

/-- `OP-IMM`: shifts have a 5-bit amount, the others a sign-extended 12-bit immediate. -/
def decodeOpImm (w : Word) : Option Instr :=
  let shamt : Word := (rs2Of w).setWidth 32
  if funct3Of w = 1#3 then
    if funct7Of w = 0#7 then some (.opImm .sll (rdOf w) (rs1Of w) shamt) else none
  else if funct3Of w = 5#3 then
    if funct7Of w = 0#7 then some (.opImm .srl (rdOf w) (rs1Of w) shamt)
    else if funct7Of w = 32#7 then some (.opImm .sra (rdOf w) (rs1Of w) shamt)
    else none
  else
    some (.opImm (baseOp (funct3Of w)) (rdOf w) (rs1Of w)
      ((w.extractLsb' 20 12).signExtend 32))

/-- The instruction a word encodes, if it is one of these. -/
def decode (w : Word) : Option Instr :=
  if opOf w = 0b0110011#7 then decodeOp w
  else if opOf w = 0b0010011#7 then decodeOpImm w
  else if opOf w = 0b0110111#7 then some (.lui (rdOf w) (w.extractLsb' 12 20 ++ 0#12))
  else if opOf w = 0b0010111#7 then some (.auipc (rdOf w) (w.extractLsb' 12 20 ++ 0#12))
  else none

/-! ## Results -/

/-- The base operations; shifts use the low five bits of the second operand. -/
def IntOp.eval (f : IntOp) (a b : Word) : Word :=
  match f with
  | .add => a + b
  | .sub => a - b
  | .sll => BitVec.ofNat 32 (a.toNat * 2 ^ (b.toNat % 32))
  | .slt => if a.toInt < b.toInt then 1#32 else 0#32
  | .sltu => if a.toNat < b.toNat then 1#32 else 0#32
  | .xor => a ^^^ b
  | .srl => BitVec.ofNat 32 (a.toNat / 2 ^ (b.toNat % 32))
  | .sra => BitVec.ofInt 32 (a.toInt / 2 ^ (b.toNat % 32))
  | .or => a ||| b
  | .and => a &&& b

/-- The M extension: the high words are those of the 64-bit product, signed division
rounds towards zero, and division by zero gives all ones and the dividend. -/
def MulDivOp.eval (f : MulDivOp) (a b : Word) : Word :=
  match f with
  | .mul => BitVec.ofNat 32 (a.toNat * b.toNat)
  | .mulh => BitVec.ofInt 32 (a.toInt * b.toInt / 2 ^ 32)
  | .mulhsu => BitVec.ofInt 32 (a.toInt * b.toNat / 2 ^ 32)
  | .mulhu => BitVec.ofNat 32 (a.toNat * b.toNat / 2 ^ 32)
  | .div => if b = 0#32 then BitVec.allOnes 32 else BitVec.ofInt 32 (a.toInt.tdiv b.toInt)
  | .divu => if b = 0#32 then BitVec.allOnes 32 else BitVec.ofNat 32 (a.toNat / b.toNat)
  | .rem => if b = 0#32 then a else BitVec.ofInt 32 (a.toInt.tmod b.toInt)
  | .remu => if b = 0#32 then a else BitVec.ofNat 32 (a.toNat % b.toNat)

/-! ## The architectural state -/

/-- The integer registers, with `x0` among them, and the program counter. -/
structure Arch where
  x : BitVec 5 → Word
  pc : Word

/-- The value an instruction gives its destination. -/
def Instr.value (i : Instr) (s : Arch) : Word :=
  match i with
  | .op f _ rs1 rs2 => f.eval (s.x rs1) (s.x rs2)
  | .opImm f _ rs1 imm => f.eval (s.x rs1) imm
  | .mulDiv f _ rs1 rs2 => f.eval (s.x rs1) (s.x rs2)
  | .lui _ imm => imm
  | .auipc _ imm => s.pc + imm

/-- One instruction: the destination gets its value unless it is `x0`, every other
register stays, and the program counter advances by 4. -/
def step (i : Instr) (s : Arch) : Arch where
  x := fun r => if r = i.rd ∧ r ≠ 0#5 then i.value s else s.x r
  pc := s.pc + 4#32

/-! ## Control transfers -/

/-- The comparisons of `BRANCH`. -/
inductive BranchOp where
  | beq | bne | blt | bge | bltu | bgeu
  deriving DecidableEq, Repr

/-- The comparison of a `funct3`; two codes are reserved. -/
def branchOp (funct3 : BitVec 3) : Option BranchOp :=
  if funct3 = 0#3 then some .beq
  else if funct3 = 1#3 then some .bne
  else if funct3 = 4#3 then some .blt
  else if funct3 = 5#3 then some .bge
  else if funct3 = 6#3 then some .bltu
  else if funct3 = 7#3 then some .bgeu
  else none

/-- Whether the branch is taken. -/
def BranchOp.taken (f : BranchOp) (a b : Word) : Bool :=
  match f with
  | .beq => a = b
  | .bne => a ≠ b
  | .blt => a.toInt < b.toInt
  | .bge => b.toInt ≤ a.toInt
  | .bltu => a.toNat < b.toNat
  | .bgeu => b.toNat ≤ a.toNat

/-- A control transfer with its operands decoded. -/
inductive Transfer where
  | jal (rd : BitVec 5) (imm : Word)
  | jalr (rd rs1 : BitVec 5) (imm : Word)
  | branch (f : BranchOp) (rs1 rs2 : BitVec 5) (imm : Word)
  deriving DecidableEq

/-- The control transfer a word encodes, if it is one. -/
def decodeTransfer (w : Word) : Option Transfer :=
  if opOf w = 0b1101111#7 then
    some (.jal (rdOf w)
      ((w.extractLsb' 31 1 ++ w.extractLsb' 12 8 ++ w.extractLsb' 20 1 ++ w.extractLsb' 21 10 ++
        0#1).signExtend 32))
  else if opOf w = 0b1100111#7 then
    if funct3Of w = 0#3 then
      some (.jalr (rdOf w) (rs1Of w) ((w.extractLsb' 20 12).signExtend 32))
    else none
  else if opOf w = 0b1100011#7 then
    (branchOp (funct3Of w)).map fun f => .branch f (rs1Of w) (rs2Of w)
      ((w.extractLsb' 31 1 ++ w.extractLsb' 7 1 ++ w.extractLsb' 25 6 ++ w.extractLsb' 8 4 ++
        0#1).signExtend 32)
  else none

/-- Where the program continues; `JALR` clears bit 0 of the sum. -/
def Transfer.target (t : Transfer) (s : Arch) : Word :=
  match t with
  | .jal _ imm => s.pc + imm
  | .jalr _ rs1 imm => (s.x rs1 + imm) &&& ~~~1#32
  | .branch f rs1 rs2 imm => if f.taken (s.x rs1) (s.x rs2) then s.pc + imm else s.pc + 4#32

/-- The register that gets the address of the following instruction. -/
def Transfer.link : Transfer → Option (BitVec 5)
  | .jal rd _ | .jalr rd _ _ => some rd
  | .branch .. => none

/-- One control transfer. -/
def Transfer.step (t : Transfer) (s : Arch) : Arch where
  x := fun r => if t.link = some r ∧ r ≠ 0#5 then s.pc + 4#32 else s.x r
  pc := t.target s

/-! ## Loads and stores -/

/-- The width of an access. -/
inductive Width where
  | byte | half | word
  deriving DecidableEq, Repr

def Width.bytes : Width → ℕ
  | .byte => 1
  | .half => 2
  | .word => 4

/-- A load or store with its operands decoded. -/
inductive MemInstr where
  | load (width : Width) (signed : Bool) (rd rs1 : BitVec 5) (imm : Word)
  | store (width : Width) (rs1 rs2 : BitVec 5) (imm : Word)
  deriving DecidableEq

/-- The width and the extension of a load. -/
def loadWidth (funct3 : BitVec 3) : Option (Width × Bool) :=
  if funct3 = 0#3 then some (.byte, true)
  else if funct3 = 1#3 then some (.half, true)
  else if funct3 = 2#3 then some (.word, true)
  else if funct3 = 4#3 then some (.byte, false)
  else if funct3 = 5#3 then some (.half, false)
  else none

/-- The width of a store. -/
def storeWidth (funct3 : BitVec 3) : Option Width :=
  if funct3 = 0#3 then some .byte
  else if funct3 = 1#3 then some .half
  else if funct3 = 2#3 then some .word
  else none

/-- The load or store a word encodes, if it is one. -/
def decodeMem (w : Word) : Option MemInstr :=
  if opOf w = 0b0000011#7 then
    (loadWidth (funct3Of w)).map fun ⟨width, signed⟩ =>
      .load width signed (rdOf w) (rs1Of w) ((w.extractLsb' 20 12).signExtend 32)
  else if opOf w = 0b0100011#7 then
    (storeWidth (funct3Of w)).map fun width =>
      .store width (rs1Of w) (rs2Of w) ((w.extractLsb' 25 7 ++ w.extractLsb' 7 5).signExtend 32)
  else none

def MemInstr.width : MemInstr → Width
  | .load width .. | .store width .. => width

/-- The effective address. -/
def MemInstr.address (i : MemInstr) (s : Arch) : Word :=
  match i with
  | .load _ _ _ rs1 imm | .store _ rs1 _ imm => s.x rs1 + imm

/-- The value of bytes in little-endian order, extended to a word. -/
def Width.value (width : Width) (signed : Bool) (b : ℕ → BitVec 8) : Word :=
  match width with
  | .byte => if signed then (b 0).signExtend 32 else (b 0).setWidth 32
  | .half => if signed then (b 1 ++ b 0).signExtend 32 else (b 1 ++ b 0).setWidth 32
  | .word => b 3 ++ b 2 ++ b 1 ++ b 0

section Bytes

variable {n : ℕ}

/-- A load from a memory of bytes. -/
def loadBytes (width : Width) (signed : Bool) (m : BitVec n → BitVec 8) (a : BitVec n) : Word :=
  width.value signed fun k => m (a + BitVec.ofNat n k)

/-- A store to a memory of bytes: the addressed bytes become the low bytes of the value, and every
other byte stays. -/
def storeBytes (width : Width) (m : BitVec n → BitVec 8) (a : BitVec n) (v : Word) :
    BitVec n → BitVec 8 := fun b =>
  if (b - a).toNat < width.bytes then v.extractLsb' (8 * (b - a).toNat) 8 else m b

/-- The step of a load or store whose bytes are those at `a`. -/
def MemInstr.step (i : MemInstr) (a : BitVec n) (s : Arch) (m : BitVec n → BitVec 8) :
    Arch × (BitVec n → BitVec 8) :=
  match i with
  | .load width signed rd _ _ =>
    (⟨fun r => if r = rd ∧ r ≠ 0#5 then loadBytes width signed m a else s.x r, s.pc + 4#32⟩, m)
  | .store width _ rs2 _ => (⟨s.x, s.pc + 4#32⟩, storeBytes width m a (s.x rs2))

end Bytes

/-! ## Atomic memory operations -/

/-- The operations of the A extension. -/
inductive AmoFn where
  | swap | add | xor | and | or | min | max | minu | maxu
  deriving DecidableEq, Repr

/-- The word that is stored, from the word in memory and the register. -/
def AmoFn.eval (f : AmoFn) (a b : Word) : Word :=
  match f with
  | .swap => b
  | .add => a + b
  | .xor => a ^^^ b
  | .and => a &&& b
  | .or => a ||| b
  | .min => if a.toInt < b.toInt then a else b
  | .max => if a.toInt < b.toInt then b else a
  | .minu => if a.toNat < b.toNat then a else b
  | .maxu => if a.toNat < b.toNat then b else a

/-- The operation of `funct5`. -/
def amoFn (funct5 : BitVec 5) : Option AmoFn :=
  if funct5 = 0b00001#5 then some .swap
  else if funct5 = 0b00000#5 then some .add
  else if funct5 = 0b00100#5 then some .xor
  else if funct5 = 0b01100#5 then some .and
  else if funct5 = 0b01000#5 then some .or
  else if funct5 = 0b10000#5 then some .min
  else if funct5 = 0b10100#5 then some .max
  else if funct5 = 0b11000#5 then some .minu
  else if funct5 = 0b11100#5 then some .maxu
  else none

/-- A read-modify-write with its operands decoded. -/
structure Amo where
  fn : AmoFn
  rd : BitVec 5
  rs1 : BitVec 5
  rs2 : BitVec 5
  deriving DecidableEq

/-- The read-modify-write on a word that an instruction word encodes, if it is one. -/
def decodeAmo (w : Word) : Option Amo :=
  if opOf w = 0b0101111#7 ∧ funct3Of w = 0b010#3 then
    (amoFn (funct5Of w)).map fun fn => ⟨fn, rdOf w, rs1Of w, rs2Of w⟩
  else none

/-- The step of a read-modify-write that finds the word `old`: the registers, and the word it
leaves. -/
def Amo.step (i : Amo) (s : Arch) (old : Word) : Arch × Word :=
  (⟨fun r => if r = i.rd ∧ r ≠ 0#5 then old else s.x r, s.pc + 4#32⟩, i.fn.eval old (s.x i.rs2))

end Rv32im

end KianRiscV
