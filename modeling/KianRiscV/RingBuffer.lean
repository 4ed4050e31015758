/-
# Ring buffers

The contents of a ring of `2 ^ w` slots, read from a pointer on: `slots ram p n` are the `n`
entries from `p`.  Taking an entry moves the pointer, adding one writes the slot behind the last.
`BoundedQueue` is what such a ring is for: a queue that takes an entry as long as there is room.
-/
import Mathlib.Algebra.Group.Nat.Defs
import Mathlib.Data.List.Range
import Mathlib.Tactic.Common

namespace Ring

variable {w : ℕ} {α : Type*}

/-- The `n` entries from the slot `p` on. -/
def slots (ram : BitVec w → α) (p : BitVec w) (n : ℕ) : List α :=
  (List.range n).map fun i => ram (p + BitVec.ofNat w i)

variable {ram : BitVec w → α} {p : BitVec w} {n : ℕ}

/-- The slots behind the first. -/
theorem add_one_add_ofNat (p : BitVec w) (n : ℕ) :
    p + 1 + BitVec.ofNat w n = p + BitVec.ofNat w (n + 1) := by
  rw [BitVec.add_assoc, BitVec.add_comm 1, BitVec.ofNat_add]
  rfl

theorem add_ofNat_add_one (p : BitVec w) (n : ℕ) :
    p + BitVec.ofNat w n + 1 = p + BitVec.ofNat w (n + 1) := by
  rw [BitVec.add_assoc, BitVec.ofNat_add]
  rfl

@[simp] theorem slots_zero : slots ram p 0 = [] := rfl

@[simp] theorem length_slots : (slots ram p n).length = n := by simp [slots]

/-- The first entry. -/
theorem slots_succ : slots ram p (n + 1) = ram p :: slots ram (p + 1) n := by
  rw [slots, List.range_succ_eq_map, List.map_cons, List.map_map]
  congr 1
  · simp
  · rw [slots]
    congr 1
    funext i
    rw [add_one_add_ofNat]
    rfl

/-- The last entry. -/
theorem slots_snoc : slots ram p (n + 1) = slots ram p n ++ [ram (p + BitVec.ofNat w n)] := by
  rw [slots, List.range_succ, List.map_append]
  rfl

theorem slots_congr {ram' : BitVec w → α}
    (h : ∀ i, i < n → ram' (p + BitVec.ofNat w i) = ram (p + BitVec.ofNat w i)) :
    slots ram' p n = slots ram p n := by
  rw [slots, slots]
  exact List.map_congr_left fun i hi => h i (List.mem_range.1 hi)

/-- The slots of a ring that is not full do not reach around. -/
theorem add_ofNat_ne {i : ℕ} (hi : i < n) (hn : n < 2 ^ w) :
    p + BitVec.ofNat w i ≠ p + BitVec.ofNat w n := by
  intro h
  have heq : BitVec.ofNat w i = BitVec.ofNat w n := by simpa using h
  have hnat := congrArg BitVec.toNat heq
  rw [BitVec.toNat_ofNat, BitVec.toNat_ofNat, Nat.mod_eq_of_lt hn,
    Nat.mod_eq_of_lt (by omega)] at hnat
  omega

/-- Writing behind the last entry adds it. -/
theorem slots_update (hn : n < 2 ^ w) (x : α) :
    slots (Function.update ram (p + BitVec.ofNat w n) x) p (n + 1) = slots ram p n ++ [x] := by
  rw [slots_snoc, Function.update_self]
  congr 1
  exact slots_congr fun i hi => Function.update_of_ne (add_ofNat_ne hi hn) _ _

end Ring

namespace BoundedQueue

variable {α : Type*}

/-- The entry leaves that is popped, if there is one, and the entry pushed comes in if there is
room or one is popped. -/
def step (cap : ℕ) (q : List α) (x : α) (push pop : Bool) : List α :=
  (if pop then q.tail else q) ++ (if push && (q.length != cap || pop) then [x] else [])

/-- What is pushed by a step. -/
def pushed (cap : ℕ) (q : List α) (x : α) (push pop : Bool) : Option α :=
  if push && (q.length != cap || pop) then some x else none

/-- What is popped by a step. -/
def popped (q : List α) (pop : Bool) : Option α := if pop then q.head? else none

/-- The entry popped and what is left are what there was and the entry pushed. -/
theorem popped_append_step (cap : ℕ) (q : List α) (x : α) (push pop : Bool) :
    (popped q pop).toList ++ step cap q x push pop
      = q ++ (pushed cap q x push pop).toList := by
  have hpush : (if push && (q.length != cap || pop) then [x] else [])
      = (pushed cap q x push pop).toList := by
    unfold pushed
    split <;> rfl
  rw [step, popped, ← List.append_assoc, hpush]
  congr 1
  cases pop with
  | false => rfl
  | true => cases q <;> rfl

end BoundedQueue
