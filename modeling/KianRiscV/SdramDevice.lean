/-
# Banks of a synchronous DRAM

What a synchronous DRAM does with its commands, as far as the rows of its banks are concerned:
`ACT` opens a row, `PRE` and the automatic precharge of a column command close it, and the
device requires that

* a column command goes to a bank with an open row,
* a row is opened only in a bank without one,
* a refresh or a load of the mode register finds all banks closed.

`Legal` states the three for one command, with the row a column command is meant for.
-/
import Mathlib.Algebra.Group.Nat.Defs
import Mathlib.Logic.Function.Basic
import Mathlib.Tactic.Common

namespace Sdram

variable {β ρ : Type*}

/-- The commands, over banks `β` and rows `ρ`.  A column command says whether the bank is
precharged after it. -/
inductive Command (β ρ : Type*)
  | nop
  | act (bank : β) (row : ρ)
  | read (bank : β) (precharge : Bool)
  | write (bank : β) (precharge : Bool)
  | pre (bank : β)
  | preAll
  | ref
  | mrs
  deriving DecidableEq

/-- A column command. -/
def Command.isColumn : Command β ρ → Bool
  | .read _ _ | .write _ _ => true
  | _ => false

/-- The open row of each bank. -/
abbrev Banks (β ρ : Type*) := β → Option ρ

namespace Banks

/-- All banks closed. -/
def closed : Banks β ρ := fun _ => none

variable [DecidableEq β]

/-- The banks after a command. -/
def step (d : Banks β ρ) : Command β ρ → Banks β ρ
  | .act b r => Function.update d b (some r)
  | .read b true | .write b true | .pre b => Function.update d b none
  | .preAll => closed
  | .nop | .read _ false | .write _ false | .ref | .mrs => d

/-- What the device requires of a command, where column commands are meant for `row`. -/
def Legal (d : Banks β ρ) (row : ρ) : Command β ρ → Prop
  | .act b _ => d b = none
  | .read b _ | .write b _ => d b = some row
  | .ref | .mrs => d = closed
  | .nop | .pre _ | .preAll => True

variable {d : Banks β ρ} {row : ρ} {b b' : β}

@[simp] theorem step_nop : d.step .nop = d := rfl

omit [DecidableEq β] in
theorem not_legal_act {r r' : ρ} (h : d b = some r) : ¬ d.Legal row (.act b r') := by
  intro hno
  rw [Legal, h] at hno
  exact absurd hno (by simp)

end Banks

end Sdram
