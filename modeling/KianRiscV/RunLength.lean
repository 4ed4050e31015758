/-
# Runs of equal letters, cut at a longest length

A word is cut into runs `(letter, count)` with counts from one to a bound; the cut is done from
left to right with the run in work as an accumulator, the way an encoder that reads one letter at
a time does it.  The results used of it:

* `expand_cutRuns` : writing the runs out again gives the word back;
* `count_of_mem_cutRuns` : no run is empty and none is longer than the bound;
* `length_cutRuns_replicate` : how many runs a word of one letter is cut into.
-/
import Mathlib.Data.List.Basic
import Mathlib.Tactic.Ring

namespace KianRiscV

variable {α : Type} [DecidableEq α]

/-- The runs of a word, with `count` letters `last` already read. -/
def cutRuns (bound : ℕ) (last : α) (count : ℕ) : List α → List (α × ℕ)
  | [] => [(last, count)]
  | x :: xs =>
    if x = last ∧ count < bound then cutRuns bound last (count + 1) xs
    else (last, count) :: cutRuns bound x 1 xs

/-- The word that a list of runs stands for. -/
def expand (runs : List (α × ℕ)) : List α :=
  runs.flatMap fun r => List.replicate r.2 r.1

omit [DecidableEq α] in
@[simp] theorem expand_nil : expand ([] : List (α × ℕ)) = [] := rfl

omit [DecidableEq α] in
@[simp] theorem expand_cons (r : α × ℕ) (rs : List (α × ℕ)) :
    expand (r :: rs) = List.replicate r.2 r.1 ++ expand rs := by
  simp [expand]

omit [DecidableEq α] in
theorem expand_append (rs rs' : List (α × ℕ)) : expand (rs ++ rs') = expand rs ++ expand rs' := by
  simp [expand]

/-- Writing the runs out gives the letters read before, then the word. -/
theorem expand_cutRuns (bound : ℕ) (last : α) (count : ℕ) (xs : List α) :
    expand (cutRuns bound last count xs) = List.replicate count last ++ xs := by
  induction xs generalizing last count with
  | nil => simp [cutRuns]
  | cons x xs ih =>
      unfold cutRuns
      split
      · rename_i h
        rw [ih, h.1, List.replicate_succ']
        simp
      · rw [expand_cons, ih]
        simp

/-- Every run of the cut has a count from one to the bound. -/
theorem count_of_mem_cutRuns {bound : ℕ} (hbound : 0 < bound) {last : α} {count : ℕ}
    (hpos : 0 < count) (hle : count ≤ bound) {xs : List α} {r : α × ℕ}
    (hr : r ∈ cutRuns bound last count xs) : 0 < r.2 ∧ r.2 ≤ bound := by
  induction xs generalizing last count with
  | nil =>
      obtain rfl : r = (last, count) := by simpa [cutRuns] using hr
      exact ⟨hpos, hle⟩
  | cons x xs ih =>
      unfold cutRuns at hr
      split at hr
      · rename_i h
        exact ih (by omega) h.2 hr
      · rcases List.mem_cons.mp hr with rfl | hr
        · exact ⟨hpos, hle⟩
        · exact ih one_pos hbound hr

/-- A word of one letter fills its runs up to the bound. -/
theorem length_cutRuns_replicate {bound : ℕ} (last : α) {count : ℕ} (hpos : 0 < count)
    (hle : count ≤ bound) (n : ℕ) :
    (cutRuns bound last count (List.replicate n last)).length = (count + n - 1) / bound + 1 := by
  have hb : 0 < bound := by omega
  induction n generalizing count with
  | zero =>
      have h0 : (count + 0 - 1) / bound = 0 := Nat.div_eq_of_lt (by omega)
      rw [h0]
      rfl
  | succ n ih =>
      rw [List.replicate_succ]
      unfold cutRuns
      split
      · rename_i h
        rw [ih (by omega) h.2]
        congr 2
        omega
      · rename_i h
        have hc : count = bound := by simp at h; omega
        have hq : (count + (n + 1) - 1) / bound = (1 + n - 1) / bound + 1 := by
          rw [← Nat.add_div_right _ hb]
          congr 1
          omega
        rw [List.length_cons, ih one_pos hb, hq]

end KianRiscV
