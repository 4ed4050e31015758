/-
# Recency of use

Items are used one at a time, at most one per cycle.  Two clocks measure how long
ago an item was used: the cycle of its last use (`last`) and the number of uses of
other items since (`age`, an unbounded counter that starts at a value of choice).

* `age_lt_age_of_last_lt` : of two items the one used later is the younger;
* `Oldest.of_age` : an item of largest age is one used least recently.
-/
import Mathlib.Tactic.Common

namespace Recency

variable {α : Type*} [DecidableEq α] {start : α → ℕ} {used : ℕ → Option α} {a b : α} {n : ℕ}

/-- One more than the cycle of the last use of `a` before cycle `n`, and zero if
there was none. -/
def last (used : ℕ → Option α) (a : α) : ℕ → ℕ
  | 0 => 0
  | n + 1 => if used n = some a then n + 1 else last used a n

/-- No item was used before `a` was last used, that is, none is older. -/
def Oldest (used : ℕ → Option α) (n : ℕ) (a : α) : Prop :=
  ∀ b, last used a n ≤ last used b n

/-- The uses of other items since the last use of `a`.  Before its first use the
count runs on from `start a`. -/
def age (start : α → ℕ) (used : ℕ → Option α) (a : α) : ℕ → ℕ
  | 0 => start a
  | n + 1 =>
    match used n with
    | none => age start used a n
    | some b => if b = a then 0 else age start used a n + 1

/-! ## One cycle -/

theorem last_succ_self (h : used n = some a) : last used a (n + 1) = n + 1 := by
  rw [last, if_pos h]

theorem last_succ_of_ne (h : used n ≠ some a) : last used a (n + 1) = last used a n := by
  rw [last, if_neg h]

theorem last_succ (h : used n = some b) :
    last used a (n + 1) = if b = a then n + 1 else last used a n := by
  simp only [last, h, Option.some.injEq]

theorem age_succ_none (h : used n = none) : age start used a (n + 1) = age start used a n := by
  rw [age, h]

theorem age_succ_self (h : used n = some a) : age start used a (n + 1) = 0 := by
  rw [age, h]
  exact if_pos rfl

theorem age_succ_of_ne (h : used n = some b) (hb : b ≠ a) :
    age start used a (n + 1) = age start used a n + 1 := by
  rw [age, h]
  exact if_neg hb

/-! ## Whole runs -/

theorem last_le (used : ℕ → Option α) (a : α) (n : ℕ) : last used a n ≤ n := by
  induction n with
  | zero => exact Nat.le_refl 0
  | succ n ih =>
    by_cases h : used n = some a
    · exact Nat.le_of_eq (last_succ_self h)
    · rw [last_succ_of_ne h]
      omega

/-- No cycle uses two items. -/
theorem eq_of_last_eq (hpos : 0 < last used a n) (h : last used a n = last used b n) : a = b := by
  induction n with
  | zero => exact absurd hpos (by simp [last])
  | succ n ih =>
    by_cases ha : used n = some a
    · by_cases hb : used n = some b
      · rw [ha] at hb
        exact Option.some.inj hb
      · rw [last_succ_self ha, last_succ_of_ne hb] at h
        have := last_le used b n
        omega
    · rw [last_succ_of_ne ha] at h hpos
      by_cases hb : used n = some b
      · rw [last_succ_self hb] at h
        have := last_le used a n
        omega
      · rw [last_succ_of_ne hb] at h
        exact ih hpos h

/-- An item used after `a` is younger, whatever the ages started from. -/
theorem age_lt_age_of_last_lt (start : α → ℕ) (h : last used a n < last used b n) :
    age start used b n < age start used a n := by
  induction n with
  | zero => exact absurd h (by simp [last])
  | succ n ih =>
    cases hu : used n with
    | none =>
      rw [last_succ_of_ne (by simp [hu]), last_succ_of_ne (by simp [hu])] at h
      rw [age_succ_none hu, age_succ_none hu]
      exact ih h
    | some c =>
      by_cases hca : c = a
      · -- The item just used is the youngest of all.
        rw [last_succ_self (by rw [hu, hca])] at h
        have := last_le used b (n + 1)
        omega
      · rw [last_succ_of_ne (by simp [hu, hca])] at h
        rw [age_succ_of_ne hu hca]
        by_cases hcb : c = b
        · rw [age_succ_self (by rw [hu, hcb])]
          omega
        · rw [last_succ_of_ne (by simp [hu, hcb])] at h
          rw [age_succ_of_ne hu hcb]
          have := ih h
          omega

/-- An item of largest age is oldest. -/
theorem Oldest.of_age (h : ∀ b, age start used b n ≤ age start used a n) : Oldest used n a := by
  intro b
  by_contra hlt
  have := age_lt_age_of_last_lt start (Nat.lt_of_not_le hlt)
  have := h b
  omega

end Recency
