/-
# Runs of synchronous circuits

A synchronous circuit is a next-state function `next : σ → ι → σ`, applied once
per clock edge to the current registers and the current inputs.  A run is driven
by an infinite input sequence; the proof rules used throughout are

* `run_invariant` : a predicate kept by every edge of the run holds always;
* `exists_of_wait` : a waiting state that is only left on a signal, together with
  a signal that eventually comes, reaches the edge on which the signal comes;
* `exists_first_of_rank` : a rank that drops until a signal comes gives the first signal;
* `forall_le_iff` : a property that lasts exactly as long as every step meets a condition;
* `Toggles.existsUnique_set` : events that set and clear a flag come in pairs.
-/
import Mathlib.Tactic.Common
import Mathlib.Order.WellFounded

namespace Sync

variable {σ ι : Type*}

/-- The registers after `n` clock edges, from `s` and under the inputs `inp`. -/
def run (next : σ → ι → σ) (s : σ) (inp : ℕ → ι) : ℕ → σ
  | 0 => s
  | n + 1 => next (run next s inp n) (inp n)

@[simp] theorem run_zero (next : σ → ι → σ) (s : σ) (inp : ℕ → ι) :
    run next s inp 0 = s := rfl

theorem run_succ (next : σ → ι → σ) (s : σ) (inp : ℕ → ι) (n : ℕ) :
    run next s inp (n + 1) = next (run next s inp n) (inp n) := rfl

/-- A run of `m + n` edges is a run of `n` edges from where the first `m` end. -/
theorem run_add (next : σ → ι → σ) (s : σ) (inp : ℕ → ι) (m n : ℕ) :
    run next s inp (m + n) = run next (run next s inp m) (fun i => inp (m + i)) n := by
  induction n with
  | zero => rfl
  | succ n ih => rw [← Nat.add_assoc, run_succ, run_succ, ih]

/-- A run seen from behind its first edge. -/
theorem run_cons (next : σ → ι → σ) (s : σ) (inp : ℕ → ι) (n : ℕ) :
    run next s inp (n + 1) = run next (next s (inp 0)) (fun i => inp (i + 1)) n := by
  induction n with
  | zero => rfl
  | succ n ih => rw [run_succ, ih, run_succ]

/-- A predicate that holds at the start and is kept by every edge of the run
holds after every number of edges. -/
theorem run_invariant {next : σ → ι → σ} {s : σ} {inp : ℕ → ι} {P : σ → Prop}
    (h0 : P s)
    (hstep : ∀ i, P (run next s inp i) → P (next (run next s inp i) (inp i))) :
    ∀ n, P (run next s inp n) := by
  intro n
  induction n with
  | zero => exact h0
  | succ n ih => exact hstep n ih

/-- Waiting: `W` persists until the signal `g`, and the signal comes. -/
theorem exists_of_wait {W g : ℕ → Prop} (hstay : ∀ i, W i → ¬ g i → W (i + 1))
    {n : ℕ} (hn : W n) (hg : ∃ j, n ≤ j ∧ g j) :
    ∃ j, n ≤ j ∧ W j ∧ g j := by
  obtain ⟨j, hnj, hj⟩ := hg
  obtain ⟨d, rfl⟩ := Nat.exists_eq_add_of_le hnj
  clear hnj
  induction d generalizing n with
  | zero => exact ⟨n, le_rfl, hn, hj⟩
  | succ d ih =>
    by_cases hgn : g n
    · exact ⟨n, le_rfl, hn, hgn⟩
    · have hnd : n + (d + 1) = n + 1 + d := by omega
      obtain ⟨k, hk, hW, hgk⟩ := ih (hstay n hn hgn) (hnd ▸ hj)
      exact ⟨k, by omega, hW, hgk⟩

/-- Progress by a rank: from a cycle with `P`, either the goal `Q` holds or a
later cycle has `P` again with a smaller rank. -/
theorem eventually_of_rank {P Q : ℕ → Prop} (rank : ℕ → ℕ)
    (h : ∀ i, P i → Q i ∨ ∃ j, i < j ∧ P j ∧ rank j < rank i)
    {n : ℕ} (hn : P n) : ∃ j, n ≤ j ∧ Q j := by
  induction hr : rank n using Nat.strong_induction_on generalizing n with
  | _ r ih =>
    rcases h n hn with hq | ⟨j, hnj, hj, hlt⟩
    · exact ⟨n, le_rfl, hq⟩
    · obtain ⟨k, hjk, hk⟩ := ih (rank j) (hr ▸ hlt) hj rfl
      exact ⟨k, by omega, hk⟩

/-- The first cycle with the signal `q`, by a rank: as long as the signal has not come, every
step keeps `P` and lowers the rank. -/
theorem exists_first_of_rank {P : ℕ → Prop} {q : ℕ → Bool} (rank : ℕ → ℕ) {t : ℕ} (h0 : P t)
    (hstep : ∀ n, t ≤ n → (∀ k, t ≤ k → k ≤ n → q k = false) → P n →
      P (n + 1) ∧ rank (n + 1) < rank n) :
    ∃ r, t ≤ r ∧ r ≤ t + rank t ∧ (∀ k, t ≤ k → k < r → q k = false) ∧ q r = true ∧
      ∀ k, t ≤ k → k ≤ r → P k := by
  by_contra hno
  -- without the signal, the rank would have to drop for ever
  have hrun : ∀ d ≤ rank t + 1, (∀ k, t ≤ k → k < t + d → q k = false) ∧
      (∀ k, t ≤ k → k ≤ t + d → P k) ∧ rank (t + d) + d ≤ rank t := by
    intro d
    induction d with
    | zero =>
      intro _
      refine ⟨fun k _ _ => by omega, fun k hk hk' => ?_, Nat.le_refl _⟩
      obtain rfl : k = t := by omega
      exact h0
    | succ d ih =>
      intro hd
      obtain ⟨hq, hP, hrank⟩ := ih (by omega)
      have hlow : ∀ k, t ≤ k → k ≤ t + d → q k = false := by
        intro k hk hk'
        rcases Nat.lt_or_eq_of_le hk' with hlt | rfl
        · exact hq k hk hlt
        · cases hqd : q (t + d) with
          | false => rfl
          | true => exact absurd ⟨t + d, by omega, by omega, hq, hqd, hP⟩ hno
      obtain ⟨hP', hlt⟩ := hstep (t + d) (by omega) hlow (hP _ (by omega) (Nat.le_refl _))
      have hdrop : rank (t + d + 1) + (d + 1) ≤ rank t := by omega
      refine ⟨fun k hk hk' => hlow k hk (by omega), fun k hk hk' => ?_, hdrop⟩
      rcases Nat.lt_or_eq_of_le hk' with hlt' | rfl
      · exact hP k hk (by omega)
      · exact hP'
  have hend := (hrun (rank t + 1) (Nat.le_refl _)).2.2
  omega

/-- A sequence whose every step stays or drops in rank is, later on, where it was
or strictly lower. -/
theorem eq_or_rank_lt {α : Type*} {x : ℕ → α} (rank : α → ℕ)
    (h : ∀ n, x (n + 1) = x n ∨ rank (x (n + 1)) < rank (x n)) {i m : ℕ} (him : i ≤ m) :
    x m = x i ∨ rank (x m) < rank (x i) := by
  induction m, him using Nat.le_induction with
  | base => exact .inl rfl
  | succ m _ ih =>
    rcases h m, ih with ⟨h1 | h1, h2 | h2⟩
    · exact .inl (h1.trans h2)
    · exact .inr (h1 ▸ h2)
    · exact .inr (h2 ▸ h1)
    · exact .inr (h1.trans h2)

/-- A property that holds at first and goes on, while it holds, exactly by the steps with `C`
holds up to a cycle exactly when all steps before it have `C`. -/
theorem forall_le_iff {P C : ℕ → Prop} {n : ℕ} (h0 : P 0)
    (hstep : ∀ d < n, P d → (∀ k < d, C k) → (P (d + 1) ↔ C d)) :
    (∀ k ≤ n, P k) ↔ ∀ k < n, C k := by
  induction n with
  | zero =>
    constructor
    · intro _ k hk
      omega
    · intro _ k hk
      obtain rfl : k = 0 := by omega
      exact h0
  | succ n ih =>
    have ih := ih fun d hd => hstep d (by omega)
    constructor
    · intro hP k hk
      have hC := ih.1 fun j hj => hP j (by omega)
      rcases Nat.lt_succ_iff_lt_or_eq.1 hk with hlt | rfl
      · exact hC k hlt
      · exact (hstep k (by omega) (hP k (by omega)) hC).1 (hP (k + 1) (by omega))
    · intro hC k hk
      have hC' : ∀ j < n, C j := fun j hj => hC j (by omega)
      have hP := ih.2 hC'
      rcases Nat.lt_succ_iff_lt_or_eq.1 (Nat.lt_succ_of_le hk) with hlt | rfl
      · exact hP k (by omega)
      · exact (hstep n (by omega) (hP n (by omega)) hC').2 (hC n (by omega))

/-! ## The last event -/

/-- Cycle `k` is the last of the first `n` cycles with the event `P`. -/
def IsLast (P : ℕ → Prop) (n k : ℕ) : Prop := k < n ∧ P k ∧ ∀ j, k < j → j < n → ¬ P j

section

variable {P : ℕ → Prop} {n k k' : ℕ}

theorem isLast_self (h : P n) : IsLast P (n + 1) n :=
  ⟨Nat.lt_succ_self n, h, fun j hj hj' => by omega⟩

theorem IsLast.succ (h : IsLast P n k) (hn : ¬ P n) : IsLast P (n + 1) k := by
  refine ⟨by have := h.1; omega, h.2.1, fun j hj hj' => ?_⟩
  rcases Nat.lt_succ_iff_lt_or_eq.1 hj' with hlt | rfl
  · exact h.2.2 j hj hlt
  · exact hn

end

/-! ## Events that alternate -/

/-- The flag `f` is set by `p` and cleared by `q`, and neither comes when it is so already. -/
structure Toggles (f p q : ℕ → Prop) : Prop where
  start : ¬ f 0 ∧ ¬ p 0 ∧ ¬ q 0
  set : ∀ n, p (n + 1) → ¬ f n ∧ f (n + 1)
  clear : ∀ n, q (n + 1) → f n ∧ ¬ f (n + 1)
  keep : ∀ n, ¬ p (n + 1) → ¬ q (n + 1) → (f (n + 1) ↔ f n)

namespace Toggles

variable {f p q : ℕ → Prop} {m n : ℕ}

theorem of_set (h : Toggles f p q) (hm : p m) : f m := by
  cases m with
  | zero => exact absurd hm h.start.2.1
  | succ m => exact (h.set m hm).2

theorem not_of_clear (h : Toggles f p q) (hm : q m) : ¬ f m := by
  cases m with
  | zero => exact absurd hm h.start.2.2
  | succ m => exact (h.clear m hm).2

/-- The flag stays until it is cleared. -/
theorem stays (h : Toggles f p q) (hm : f m) (hmn : m ≤ n)
    (hq : ∀ k, m < k → k ≤ n → ¬ q k) : f n := by
  induction n, hmn using Nat.le_induction with
  | base => exact hm
  | succ n hmn ih =>
    by_cases hp : p (n + 1)
    · exact (h.set n hp).2
    · exact (h.keep n hp (hq (n + 1) (by omega) le_rfl)).2
        (ih fun k hk hk' => hq k hk (by omega))

/-- A flag that is up was set, and not cleared since. -/
theorem exists_set (h : Toggles f p q) (hn : f n) :
    ∃ m, m ≤ n ∧ p m ∧ ∀ k, m ≤ k → k ≤ n → ¬ q k := by
  induction n with
  | zero => exact absurd hn h.start.1
  | succ n ih =>
    have hq : ¬ q (n + 1) := fun hq => h.not_of_clear hq hn
    by_cases hp : p (n + 1)
    · refine ⟨n + 1, le_rfl, hp, fun k hk hk' => ?_⟩
      obtain rfl : k = n + 1 := by omega
      exact hq
    · obtain ⟨m, hmn, hm, hno⟩ := ih ((h.keep n hp hq).1 hn)
      refine ⟨m, by omega, hm, fun k hk hk' => ?_⟩
      rcases Nat.lt_succ_iff_lt_or_eq.1 (Nat.lt_succ_of_le hk') with hlt | rfl
      · exact hno k hk (by omega)
      · exact hq

/-- Two settings have a clearing between them. -/
theorem not_set_of_set (h : Toggles f p q) (hm : p m) (hmn : m < n)
    (hq : ∀ k, m < k → k < n → ¬ q k) : ¬ p n := by
  intro hn
  obtain ⟨n, rfl⟩ : ∃ i, n = i + 1 := ⟨n - 1, by omega⟩
  exact (h.set n hn).1 (h.stays (h.of_set hm) (by omega) fun k hk hk' => hq k hk (by omega))

/-- Each clearing has exactly one setting of its own. -/
theorem existsUnique_set (h : Toggles f p q) (hn : q n) :
    ∃! m, m ≤ n ∧ p m ∧ ∀ k, m ≤ k → k < n → ¬ q k := by
  cases n with
  | zero => exact absurd hn h.start.2.2
  | succ n =>
    obtain ⟨m, hmn, hm, hno⟩ := h.exists_set (h.clear n hn).1
    refine ⟨m, ⟨by omega, hm, fun k hk hk' => hno k hk (by omega)⟩, ?_⟩
    rintro m' ⟨hmn', hm', hno'⟩
    rcases Nat.lt_trichotomy m' m with hlt | heq | hlt
    · exact absurd hm (h.not_set_of_set hm' hlt fun k hk hk' => hno' k hk.le (by omega))
    · exact heq
    · exact absurd hm' (h.not_set_of_set hm hlt fun k hk hk' => hno k hk.le (by omega))

end Toggles

/-! ## Logs -/

section

variable {α : Type*} (f : ℕ → Option α)

/-- What `f` reports in the first `n` cycles, in order. -/
def log : ℕ → List α
  | 0 => []
  | n + 1 => log n ++ (f n).toList

theorem log_succ (n : ℕ) : log f (n + 1) = log f n ++ (f n).toList := rfl

theorem log_mono {m n : ℕ} (h : m ≤ n) : log f m <+: log f n := by
  induction n, h using Nat.le_induction with
  | base => exact List.prefix_rfl
  | succ n _ ih => exact ih.trans (List.prefix_append _ _)

/-- Cycles without a report. -/
theorem log_eq_of_none {m n : ℕ} (h : m ≤ n) (hf : ∀ k, m ≤ k → k < n → f k = none) :
    log f n = log f m := by
  induction n, h using Nat.le_induction with
  | base => rfl
  | succ n hmn ih =>
    rw [log_succ, hf n hmn (Nat.lt_succ_self n), ih fun k hk hk' => hf k hk (by omega)]
    simp

theorem log_map {β : Type*} (g : α → β) (n : ℕ) :
    log (fun k => (f k).map g) n = (log f n).map g := by
  induction n with
  | zero => rfl
  | succ n ih =>
    rw [log_succ, log_succ, ih, List.map_append]
    cases f n <;> rfl

variable {f} {g : ℕ → Option α}

/-- A log of the same reports a cycle later. -/
theorem log_shift (h0 : g 0 = none) (h : ∀ n, g (n + 1) = f n) (n : ℕ) :
    log g (n + 1) = log f n := by
  induction n with
  | zero =>
    rw [log_succ, h0]
    rfl
  | succ n ih => rw [log_succ, ih, h n, log_succ]

/-- What `f` reports waits until `g` reports it.  If nothing waits forever, then `g` reports all
of it. -/
theorem exists_log_prefix {rest : ℕ → List α} (hsplit : ∀ n, log f n = log g n ++ rest n)
    (hmove : ∀ n, rest n ≠ [] → ∃ m, n ≤ m ∧ (g m).isSome) (n : ℕ) :
    ∃ m, n ≤ m ∧ log f n <+: log g m := by
  have hlong : ∀ d, ∃ m, n ≤ m ∧ min d (log f n).length ≤ (log g m).length := by
    intro d
    induction d with
    | zero => exact ⟨n, le_rfl, by omega⟩
    | succ d ih =>
      obtain ⟨m, hnm, hm⟩ := ih
      by_cases hd : (log f n).length ≤ (log g m).length
      · exact ⟨m, hnm, by omega⟩
      · -- Something is left, of which the first is reported.
        have hrest : rest m ≠ [] := by
          intro hnil
          have hle := (log_mono f hnm).length_le
          rw [hsplit m, hnil, List.append_nil] at hle
          exact hd hle
        obtain ⟨k, hmk, hk⟩ := hmove m hrest
        obtain ⟨a, ha⟩ := Option.isSome_iff_exists.1 hk
        have hle := (log_mono g hmk).length_le
        have hsucc : (log g (k + 1)).length = (log g k).length + 1 := by
          rw [log_succ, ha, List.length_append]
          rfl
        exact ⟨k + 1, by omega, by omega⟩
  obtain ⟨m, hnm, hm⟩ := hlong (log f n).length
  have hg : log g m <+: log f m := by
    rw [hsplit m]
    exact List.prefix_append _ _
  exact ⟨m, hnm, List.prefix_of_prefix_length_le (log_mono f hnm) hg (by omega)⟩

end

end Sync
