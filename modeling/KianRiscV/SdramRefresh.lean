/-
# The refresh credits of the SDRAM controller

The refresh timer of `mt48lc16m16a2_ctrl.v` earns a credit each time it expires, and a refresh
from `IDLE` or `REFRESH` spends one.  Both write `ref_credit_nxt`, the refresh last, so a credit
earned in the very cycle of a refresh is lost.

* `next_refCredit` : what a clock edge does to the credit;
* `conserved_iff_paid` : a clock edge keeps the balance exactly when its refresh is paid for;
* `refresh_credits_conserved_iff` : the balance holds all along a run exactly when every refresh
  in it is paid for.
-/
import KianRiscV.SdramTiming
import Mathlib.Data.Nat.Count

namespace KianRiscV

namespace SdramCore

variable {t : SdramSettings} {c : SdramCore} {q : SdramReq} {x : BitVec 16}

/-- The edge out of `IDLE` or `REFRESH` that gives the command `REF`. -/
def refreshes (t : SdramSettings) (c : SdramCore) (q : SdramReq) (x : BitVec 16) : Bool :=
  (c.state == .idle || c.state == .refresh) && (c.next t q x).pins.command == .ref

/-- `ref_credit` is not zero, and the timer does not expire.  From `REFRESH` the credit is not
taken below zero, so that an expiry pays for a refresh without credit. -/
def Paid (c : SdramCore) : Prop :=
  if c.state = .refresh then (c.refTimer ≠ 0 ↔ c.refCredit ≠ 0)
  else c.refTimer ≠ 0 ∧ c.refCredit ≠ 0

instance : Decidable c.Paid :=
  inferInstanceAs (Decidable (if c.state = .refresh then (c.refTimer ≠ 0 ↔ c.refCredit ≠ 0)
    else c.refTimer ≠ 0 ∧ c.refCredit ≠ 0))

/-! ## One clock edge -/

/-- The credit after an edge: a refresh spends one, every other edge takes what the timer earns. -/
theorem next_refCredit (hsat : t.creditSaturates = false) :
    (c.next t q x).refCredit =
      if c.refreshes t q x then
        (if c.state = .refresh then decCredit c.refCredit else c.refCredit - 1)
      else (c.rest t).refCredit := by
  unfold refreshes
  cases hst : c.state with
  | idle =>
    rw [next_of_idle hst]
    unfold idleNext
    dsimp only
    split
    · rfl
    · split
      · split <;> rfl
      · split
        · unfold idleRefresh
          split
          · rfl
          · simp [waitFor, hsat]
        · split
          · unfold idleAccept
            dsimp only
            split
            · split
              · rfl
              · split <;> rfl
            · rfl
          · rfl
  | refresh => simp [next, hst, waitFor]
  | waitState =>
    simp only [next, hst]
    split <;> rfl
  | _ => simp only [next, hst]; rfl

/-- With room for it, the timer earns a credit when it expires. -/
theorem toNat_rest_refCredit (hle : c.refCredit ≤ t.creditsMax)
    (hmax : c.refTimer = 0 → c.refCredit ≠ t.creditsMax) :
    (c.rest t).refCredit.toNat = c.refCredit.toNat + if c.refTimer = 0 then 1 else 0 := by
  have hrest : (c.rest t).refCredit =
      if c.refTimer = 0 ∧ c.refCredit < t.creditsMax then c.refCredit + 1 else c.refCredit := rfl
  rw [hrest]
  by_cases h0 : c.refTimer = 0
  · have hlt : c.refCredit < t.creditsMax := by
      have := hmax h0
      bv_omega
    rw [if_pos ⟨h0, hlt⟩, if_pos h0]
    bv_omega
  · rw [if_neg fun h => h0 h.1, if_neg h0, Nat.add_zero]

/-- The balance of an edge: what there was and what the timer earns is what a refresh spends and
what there is then. -/
theorem conserved_iff_paid (hsat : t.creditSaturates = false) (hle : c.refCredit ≤ t.creditsMax)
    (hmax : c.refTimer = 0 → c.refCredit ≠ t.creditsMax) :
    c.refCredit.toNat + (if c.refTimer = 0 then 1 else 0)
        = (if c.refreshes t q x then 1 else 0) + (c.next t q x).refCredit.toNat ↔
      (c.refreshes t q x = true → c.Paid) := by
  rw [next_refCredit hsat]
  cases href : c.refreshes t q x with
  | false =>
    rw [if_neg Bool.false_ne_true, if_neg Bool.false_ne_true, toNat_rest_refCredit hle hmax]
    simp
  | true =>
    rw [if_pos rfl, if_pos rfl, imp_iff_right rfl, Paid]
    by_cases hcr : c.refCredit = 0
    · -- Without credit: `IDLE` takes it below zero, `REFRESH` leaves it there.
      by_cases hst : c.state = .refresh
      · rw [if_pos hst, if_pos hst, hcr]
        have hzero : (decCredit 0).toNat = 0 := rfl
        rw [hzero]
        by_cases h0 : c.refTimer = 0
        · simp [h0]
        · rw [if_neg h0]
          simp
          exact h0
      · rw [if_neg hst, if_neg hst, hcr]
        have hbelow : (0 - 1 : BitVec 4).toNat = 15 := rfl
        rw [hbelow]
        by_cases h0 : c.refTimer = 0
        · simp [h0]
        · rw [if_neg h0]
          simp
    · have hspent : (if c.state = .refresh then decCredit c.refCredit else c.refCredit - 1)
          = c.refCredit - 1 := by
        rw [decCredit, if_neg hcr, ite_self]
      have hdec : (c.refCredit - 1).toNat + 1 = c.refCredit.toNat := by bv_omega
      rw [hspent]
      by_cases h0 : c.refTimer = 0
      · simp only [h0, hcr, if_true, ne_eq, not_true_eq_false, not_false_eq_true, false_and,
          false_iff, ite_self, iff_false]
        omega
      · simp only [h0, hcr, if_false, ne_eq, not_false_eq_true, and_self, ite_self, iff_true]
        omega

/-- Spending and earning leave the credit within its bound. -/
theorem next_refCredit_le (hsat : t.creditSaturates = false) (hle : c.refCredit ≤ t.creditsMax)
    (hpaid : c.refreshes t q x = true → c.Paid) :
    (c.next t q x).refCredit ≤ t.creditsMax := by
  rw [next_refCredit hsat]
  cases href : c.refreshes t q x with
  | false =>
    have hrest : (c.rest t).refCredit =
        if c.refTimer = 0 ∧ c.refCredit < t.creditsMax then c.refCredit + 1 else c.refCredit := rfl
    rw [if_neg Bool.false_ne_true, hrest]
    split
    · bv_omega
    · exact hle
  | true =>
    have hp := hpaid href
    rw [if_pos rfl, decCredit]
    by_cases hcr : c.refCredit = 0
    · by_cases hst : c.state = .refresh
      · rw [if_pos hst, if_pos hcr]
        bv_omega
      · rw [Paid, if_neg hst] at hp
        exact absurd hcr hp.2
    · rw [if_neg hcr, ite_self]
      bv_omega

/-- With thresholds other than zero, a refresh that waits for the banks to be closed has a
credit to spend. -/
def Backed (c : SdramCore) : Prop := c.pos = .refresh → c.refCredit ≠ 0

theorem rest_refCredit_ne_zero (h : c.refCredit ≠ 0) : (c.rest t).refCredit ≠ 0 := by
  have hrest : (c.rest t).refCredit =
      if c.refTimer = 0 ∧ c.refCredit < t.creditsMax then c.refCredit + 1 else c.refCredit := rfl
  rw [hrest]
  split
  · bv_omega
  · exact h

/-- `IDLE` refreshes, or prepares to, with a credit that reaches a threshold. -/
theorem refCredit_ne_zero_of_idle (hload : t.loadMode = false) (hforce : t.forceThresh ≠ 0)
    (hsoft : t.softThresh ≠ 0) (hst : c.state = .idle)
    (h : (c.next t q x).pins.command = .ref ∨ (c.next t q x).pos = .refresh) :
    c.refCredit ≠ 0 := by
  intro hcr
  have hcond : ¬ (t.forceThresh ≤ c.refCredit ∨
      t.softThresh ≤ c.refCredit ∧ (q.valid && !c.ready) = false) := by
    rw [hcr]
    rintro (h | ⟨h, -⟩) <;> bv_omega
  simp only [next, hst, idleNext, hload, hcond, if_false, Bool.false_eq_true] at h
  split at h
  · simp [waitFor, pos, rest] at h
  · split at h
    · unfold idleAccept at h
      dsimp only at h
      split at h
      · split at h
        · split at h <;> simp [pos, rest] at h
        · split at h <;> simp [waitFor, pos, rest] at h
      · simp [pos, rest] at h
    · simp [pos, rest, hst] at h

/-- Before the banks are closed there is no `REF`. -/
theorem command_ne_ref_of_pos_refresh (hst : c.state = .idle)
    (hpos : (c.next t q x).pos = .refresh) : (c.next t q x).pins.command ≠ .ref := by
  intro hcmd
  have hd : (c.next t q x).pins.decode = .ref := by rw [SdramPins.decode, hcmd]
  cases idle_next (t := t) (q := q) (x := x) hst with
  | preAll hd' => exact absurd (hd.symm.trans hd') (by simp)
  | refresh _ hp => exact absurd (hpos.symm.trans hp) (by decide)
  | reinit hd' => exact absurd (hd.symm.trans hd') (by simp)
  | loadMode hd' => exact absurd (hd.symm.trans hd') (by simp)
  | hit _ hd' => exact absurd (hd.symm.trans hd') (by simp)
  | miss _ hd' => exact absurd (hd.symm.trans hd') (by simp)
  | closed _ hd' => exact absurd (hd.symm.trans hd') (by simp)
  | wait hd' => exact absurd (hd.symm.trans hd') (by simp)

theorem Backed.next (h : c.Backed) (hsat : t.creditSaturates = false) (hload : t.loadMode = false)
    (hforce : t.forceThresh ≠ 0) (hsoft : t.softThresh ≠ 0) : (c.next t q x).Backed := by
  intro hpos
  obtain ⟨hcr, href⟩ : c.refCredit ≠ 0 ∧ c.refreshes t q x = false := by
    by_cases hst : c.state = .idle
    · refine ⟨refCredit_ne_zero_of_idle hload hforce hsoft hst (.inr hpos), ?_⟩
      have hcmd : (c.next t q x).pins.command ≠ .ref :=
        command_ne_ref_of_pos_refresh hst hpos
      simp [refreshes, hcmd]
    · have hnext := next_pos (t := t) (q := q) (x := x) hst
      rw [hpos] at hnext
      have hwait : c.state = .waitState := by
        cases hs : c.state with
        | waitState => rfl
        | activate =>
          simp only [hs] at hnext
          split at hnext <;> cases hnext
        | _ =>
          simp only [hs] at hnext
          cases hnext
      rw [hwait] at hnext
      exact ⟨h hnext.symm, by simp [refreshes, hwait]⟩
  rw [next_refCredit hsat, href]
  exact rest_refCredit_ne_zero hcr

/-- A refresh with a credit is paid for exactly when the timer does not expire in its cycle. -/
theorem paid_iff (h : c.refCredit ≠ 0) : c.Paid ↔ c.refTimer ≠ 0 := by
  unfold Paid
  split
  · exact iff_true_right h
  · exact and_iff_left h

end SdramCore

/-! ## Whole runs -/

namespace SdramCtrl

variable {p : SdramParams} {inp : ℕ → SdramIn}

/-- Cycle `n` gives a `REF` from `IDLE` or `REFRESH`. -/
def refreshesAt (p : SdramParams) (inp : ℕ → SdramIn) (n : ℕ) : Bool :=
  (run p inp n).refreshes p.settings (inp n).req (inp n).dqRd

/-- The expirations of the refresh timer in the `d` cycles from `m`. -/
def expirations (p : SdramParams) (inp : ℕ → SdramIn) (m d : ℕ) : ℕ :=
  Nat.count (fun k => (run p inp (m + k)).refTimer = 0) d

/-- The `REF` commands from `IDLE` or `REFRESH` in the `d` cycles from `m`. -/
def refreshCount (p : SdramParams) (inp : ℕ → SdramIn) (m d : ℕ) : ℕ :=
  Nat.count (fun k => refreshesAt p inp (m + k) = true) d

/-- What was there and what was earned is what was spent and what is there. -/
def Balanced (p : SdramParams) (inp : ℕ → SdramIn) (m d : ℕ) : Prop :=
  (run p inp m).refCredit.toNat + expirations p inp m d
    = refreshCount p inp m d + (run p inp (m + d)).refCredit.toNat

theorem balanced_zero (p : SdramParams) (inp : ℕ → SdramIn) (m : ℕ) : Balanced p inp m 0 := by
  simp [Balanced, expirations, refreshCount]

/-- A balance goes on exactly when the refresh of the cycle, if any, is paid for. -/
theorem Balanced.succ_iff {m d : ℕ} (h : Balanced p inp m d)
    (hle : (run p inp (m + d)).refCredit ≤ p.settings.creditsMax)
    (hmax : (run p inp (m + d)).refTimer = 0 →
      (run p inp (m + d)).refCredit ≠ p.settings.creditsMax) :
    Balanced p inp m (d + 1) ↔ (refreshesAt p inp (m + d) = true → (run p inp (m + d)).Paid) := by
  have hstep : (run p inp (m + d)).refCredit.toNat
        + (if (run p inp (m + d)).refTimer = 0 then 1 else 0)
      = (if refreshesAt p inp (m + d) = true then 1 else 0)
        + (run p inp (m + (d + 1))).refCredit.toNat ↔
      (refreshesAt p inp (m + d) = true → (run p inp (m + d)).Paid) :=
    SdramCore.conserved_iff_paid rfl hle hmax
  rw [← hstep, Balanced, expirations, refreshCount, Nat.count_succ, Nat.count_succ]
  rw [Balanced, expirations, refreshCount] at h
  omega

/-- Along paid refreshes the credit stays within its bound. -/
theorem refCredit_le {m : ℕ} (hm : (run p inp m).refCredit ≤ p.settings.creditsMax) (d : ℕ)
    (hpaid : ∀ k < d, refreshesAt p inp (m + k) = true → (run p inp (m + k)).Paid) :
    (run p inp (m + d)).refCredit ≤ p.settings.creditsMax := by
  induction d with
  | zero => exact hm
  | succ d ih =>
    exact SdramCore.next_refCredit_le rfl (ih fun k hk => hpaid k (by omega)) (hpaid d (by omega))

/-- With thresholds other than zero no refresh is without credit. -/
theorem refCredit_ne_zero_of_refreshesAt (hforce : p.settings.forceThresh ≠ 0)
    (hsoft : p.settings.softThresh ≠ 0) {n : ℕ} (h : refreshesAt p inp n = true) :
    (run p inp n).refCredit ≠ 0 := by
  have hbacked : ∀ n, (run p inp n).Backed := by
    intro n
    induction n with
    | zero =>
      intro hpos
      have hreset : SdramState.reset = .refresh := hpos
      exact absurd hreset (by decide)
    | succ n ih => exact ih.next rfl rfl hforce hsoft
  simp only [refreshesAt, SdramCore.refreshes, Bool.and_eq_true, Bool.or_eq_true, beq_iff_eq] at h
  obtain ⟨hst | hst, hcmd⟩ := h
  · exact SdramCore.refCredit_ne_zero_of_idle rfl hforce hsoft hst (.inl hcmd)
  · exact hbacked n ((SdramCore.pos_of_state (by rw [hst]; decide)).trans hst)

/-- From any cycle, as long as no expiry finds the credit at its bound, the balance of credits
holds all along the run exactly when every refresh is paid for.  With thresholds other than zero
this means that the timer expires in no cycle of a refresh. -/
theorem refresh_credits_conserved_iff (p : SdramParams) (inp : ℕ → SdramIn) {m : ℕ}
    (hm : (run p inp m).refCredit ≤ p.settings.creditsMax) (d : ℕ)
    (hmax : ∀ k < d, (run p inp (m + k)).refTimer = 0 →
      (run p inp (m + k)).refCredit ≠ p.settings.creditsMax) :
    ((∀ k ≤ d, Balanced p inp m k) ↔
      ∀ k < d, refreshesAt p inp (m + k) = true → (run p inp (m + k)).Paid) ∧
    (p.settings.forceThresh ≠ 0 → p.settings.softThresh ≠ 0 → ∀ n, refreshesAt p inp n = true →
      ((run p inp n).Paid ↔ (run p inp n).refTimer ≠ 0)) := by
  constructor
  · apply Sync.forall_le_iff (balanced_zero p inp m)
    intro k hk hbal hpaid
    exact hbal.succ_iff (refCredit_le hm k hpaid) (hmax k hk)
  · intro hforce hsoft n href
    exact SdramCore.paid_iff (refCredit_ne_zero_of_refreshesAt hforce hsoft href)

/-- A clock of 1 MHz, and a refresh interval of 30 microseconds. -/
def quickParams : SdramParams where
  sdramClkFreq := 1
  trpNs := 15
  trcdNs := 15
  tchNs := 2
  cas := 2#3
  trfcNs := 66
  twrNs := 15
  trefiNs := 30000
  refCreditsMax := 8
  refForceThresh := 4
  refSoftThresh := 1
  keepOpen := true
  readExtraCyc := 0

/-- No request at all. -/
def noRequests (_ : ℕ) : SdramIn := ⟨⟨false, 0, 0, 0⟩, 0⟩

/-- During the initialisation the timer earns six credits, of which the first refresh spends
one. -/
theorem refresh_credits_conserved_iff_first : Balanced quickParams noRequests 0 216 :=
  (refresh_credits_conserved_iff quickParams noRequests (m := 0) (by decide +kernel) 216
    (by decide +kernel)).1.2 (by decide +kernel) 216 (Nat.le_refl 216)

/-- In cycle 216 the timer expires and `IDLE` refreshes: of seven credits two are spent and four
are left. -/
theorem expiry_while_refreshing_lost :
    ¬ ∀ (p : SdramParams) (inp : ℕ → SdramIn) (n : ℕ),
      (∀ k < n, (run p inp k).refTimer = 0 → (run p inp k).refCredit ≠ p.settings.creditsMax) →
        expirations p inp 0 n = refreshCount p inp 0 n + (run p inp n).refCredit.toNat := by
  intro h
  have hbal := h quickParams noRequests 217 (by decide +kernel)
  revert hbal
  decide +kernel

end SdramCtrl

end KianRiscV
