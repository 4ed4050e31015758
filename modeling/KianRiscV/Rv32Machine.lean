/-
# Programs of RV32IMA

A machine is the architectural state with a memory of bytes and the reservation of the hart.  It
fetches the word at `pc` and takes the step of the instruction the word encodes.  There is no step
where the specification asks for an exception, and none for the words that are not an instruction
of RV32IM, an atomic or a fence.  Nothing here is read off the processor.
-/
import KianRiscV.Rv32im

namespace KianRiscV

namespace Rv32im

/-! ## Load-reserved and store-conditional -/

/-- `LR.W` and `SC.W` with their operands decoded. -/
inductive Reserved where
  | lr (rd rs1 : BitVec 5)
  | sc (rd rs1 rs2 : BitVec 5)
  deriving DecidableEq

/-- The load-reserved or store-conditional a word encodes, if it is one. -/
def decodeReserved (w : Word) : Option Reserved :=
  if opOf w = 0b0101111#7 ∧ funct3Of w = 0b010#3 then
    if funct5Of w = 0b00010#5 then some (.lr (rdOf w) (rs1Of w))
    else if funct5Of w = 0b00011#5 then some (.sc (rdOf w) (rs1Of w) (rs2Of w))
    else none
  else none

/-! ## Words -/

/-- An instruction of any of the groups. -/
inductive Operation where
  | int (i : Instr)
  | transfer (t : Transfer)
  | mem (i : MemInstr)
  | amo (i : Amo)
  | reserved (i : Reserved)
  | fence
  deriving DecidableEq

/-- `FENCE` and `FENCE.I`. -/
def decodeFence (w : Word) : Option Operation :=
  if opOf w = 0b0001111#7 ∧ (funct3Of w = 0b000#3 ∨ funct3Of w = 0b001#3) then some .fence else none

/-- The instruction a word encodes. -/
def decodeOperation (w : Word) : Option Operation :=
  (decode w).map .int <|> (decodeTransfer w).map .transfer <|> (decodeMem w).map .mem <|>
    (decodeAmo w).map .amo <|> (decodeReserved w).map .reserved <|> decodeFence w

/-! ## Machines -/

/-- The architectural state, the memory, and the address the hart has reserved. -/
structure Machine where
  arch : Arch
  bytes : BitVec 34 → BitVec 8
  reservation : Option Word

/-- Without translation an address is extended with zeros. -/
def physical (a : Word) : BitVec 34 := a.setWidth 34

/-- The word at an address. -/
def wordAt (m : BitVec 34 → BitVec 8) (a : Word) : Word := loadBytes .word false m (physical a)

/-- The registers with a value in `rd`, and the next `pc`. -/
def Arch.put (s : Arch) (rd : BitVec 5) (v : Word) : Arch :=
  ⟨fun r => if r = rd ∧ r ≠ 0#5 then v else s.x r, s.pc + 4#32⟩

namespace Machine

/-- One load-reserved or store-conditional; the store is made if its address is reserved. -/
def stepReserved (m : Machine) (i : Reserved) : Option Machine :=
  match i with
  | .lr rd rs1 =>
    if (m.arch.x rs1).toNat % 4 = 0 then
      some ⟨m.arch.put rd (wordAt m.bytes (m.arch.x rs1)), m.bytes, some (m.arch.x rs1)⟩
    else none
  | .sc rd rs1 rs2 =>
    if (m.arch.x rs1).toNat % 4 = 0 then
      if m.reservation = some (m.arch.x rs1) then
        some ⟨m.arch.put rd 0#32,
          storeBytes .word m.bytes (physical (m.arch.x rs1)) (m.arch.x rs2), none⟩
      else some ⟨m.arch.put rd 1#32, m.bytes, none⟩
    else none

/-- One instruction; `none` where it raises an exception. -/
def exec (m : Machine) (i : Operation) : Option Machine :=
  match i with
  | .int i => some { m with arch := Rv32im.step i m.arch }
  | .transfer t =>
    if (t.target m.arch).toNat % 4 = 0 then some { m with arch := t.step m.arch } else none
  | .mem i =>
    let a := i.address m.arch
    if a.toNat % i.width.bytes = 0 then
      let r := i.step (physical a) m.arch m.bytes
      some { m with arch := r.1, bytes := r.2 }
    else none
  | .amo i =>
    let a := m.arch.x i.rs1
    if a.toNat % 4 = 0 then
      let r := i.step m.arch (wordAt m.bytes a)
      some { m with arch := r.1, bytes := storeBytes .word m.bytes (physical a) r.2 }
    else none
  | .reserved i => m.stepReserved i
  | .fence => some { m with arch := ⟨m.arch.x, m.arch.pc + 4#32⟩ }

/-- The instruction at `pc`. -/
def fetched (m : Machine) : Option Operation := decodeOperation (wordAt m.bytes m.arch.pc)

/-- One step of the program. -/
def step (m : Machine) : Option Machine := m.fetched.bind m.exec

/-- A number of steps. -/
def steps (m : Machine) : ℕ → Option Machine
  | 0 => some m
  | n + 1 => (m.steps n).bind step

@[simp] theorem steps_zero (m : Machine) : m.steps 0 = some m := rfl

theorem steps_succ (m : Machine) (n : ℕ) : m.steps (n + 1) = (m.steps n).bind step := rfl

theorem step_eq_some {m m' : Machine} (h : m.step = some m') :
    ∃ i, m.fetched = some i ∧ m.exec i = some m' := Option.bind_eq_some_iff.1 h

theorem steps_succ_eq_some {m m' : Machine} {n : ℕ} (h : m.steps (n + 1) = some m') :
    ∃ m₁, m.steps n = some m₁ ∧ m₁.step = some m' := Option.bind_eq_some_iff.1 h

end Machine

end Rv32im

end KianRiscV
