/-
# Runs of the multiplier and of the divider

Both units are driven by a handshake: a request is held on the inputs until `ready`.  The
multiplier then waits in `DONE` for `valid` to drop.  The divider does not wait: its `ready` is
a pulse, and a `valid` that is still high in the cycle after it is the next request.

* `Multiplier.both_builds_answer` : both builds answer every request made in `IDLE`, and are back
  in `IDLE` after it;
* `Divider.division_answered` : so does the divider, on each of its three paths, and its partial
  remainder always fits.
-/
import KianRiscV.MulDivUnits
import KianRiscV.SyncRun

namespace KianRiscV

/-- The request `x` is made in cycle `t` and held until `ready`. -/
def HeldUntilReady {α : Type*} (ready : ℕ → Bool) (inp : ℕ → α) (x : α) (t : ℕ) : Prop :=
  ∀ n, t ≤ n → (∀ k, t ≤ k → k ≤ n → ready k = false) → inp n = x

/-- Cycle `r` is the first one after `t` with `ready`. -/
structure FirstReady (ready : ℕ → Bool) (t r : ℕ) : Prop where
  after : t < r
  low : ∀ k, t ≤ k → k < r → ready k = false
  high : ready r = true

/-- The unit gets `ready` and then shows `v` until `valid` drops. -/
def Answers (ready : ℕ → Bool) (result : ℕ → Word) (valid : ℕ → Bool) (t : ℕ) (v : Word) : Prop :=
  ∃ r, FirstReady ready t r ∧
    ∀ n, r ≤ n → (∀ k, r ≤ k → k < n → valid k = true) → result n = v

/-! ## The multiplier -/

/-- The inputs of `multiplier`. -/
structure MulIn where
  multiplicandOp : Word
  multiplierOp : Word
  mulOp : MulOp
  valid : Bool
  deriving DecidableEq

namespace Multiplier

variable {fpga : Bool} {inp : ℕ → MulIn} {op : MulOp} {a b : Word} {t : ℕ}

/-- The registers `n` cycles after reset. -/
def after (fpga : Bool) (inp : ℕ → MulIn) (n : ℕ) : Multiplier :=
  Sync.run (fun m i => m.next fpga i.multiplicandOp i.multiplierOp i.mulOp i.valid) reset inp n

theorem after_succ (n : ℕ) :
    after fpga inp (n + 1) = (after fpga inp n).next fpga (inp n).multiplicandOp
      (inp n).multiplierOp (inp n).mulOp (inp n).valid := rfl

/-- `ready` is high only in `DONE`. -/
theorem ready_of_ne_done (n : ℕ) :
    (after fpga inp n).state ≠ .done → (after fpga inp n).ready = false := by
  induction n with
  | zero => exact fun _ => rfl
  | succ n ih =>
    rw [after_succ]
    generalize after fpga inp n = m at ih
    intro hne
    cases hs : m.state with
    | idle =>
      simp only [next, hs]
      split <;> rfl
    | done =>
      revert hne
      simp only [next, hs]
      split
      · exact fun hne => absurd rfl hne
      · exact fun _ => rfl
    | prep | «calc» | mul1 | ready =>
      have hr := ih (by rw [hs]; decide)
      simp only [next, hs]
      repeat' split
      all_goals exact hr

/-- While `valid` is high, `DONE` keeps `ready` and the result. -/
theorem done_keeps {r : ℕ} {v : Word} (hs : (after fpga inp r).state = .done)
    (hr : (after fpga inp r).ready = true) (hv : (after fpga inp r).resQ = v) {n : ℕ} (hn : r ≤ n)
    (hvalid : ∀ k, r ≤ k → k < n → (inp k).valid = true) :
    (after fpga inp n).state = .done ∧ (after fpga inp n).ready = true ∧
      (after fpga inp n).resQ = v := by
  induction n, hn using Nat.le_induction with
  | base => exact ⟨hs, hr, hv⟩
  | succ n hn ih =>
    obtain ⟨hs', -, hv'⟩ := ih fun k hk hk' => hvalid k hk (by omega)
    rw [after_succ]
    simp only [next, hs', hvalid n hn (Nat.lt_succ_self n), if_true]
    exact ⟨trivial, trivial, hv'⟩

/-- **Every request is answered.**  A request made in `IDLE` and held until `ready` gets, in both
builds, the specified word of the product; it is shown until `valid` drops, and the cycle after
that the unit is in `IDLE` again. -/
theorem both_builds_answer (fpga : Bool) (inp : ℕ → MulIn) (op : MulOp) (a b : Word) (t : ℕ)
    (hidle : (after fpga inp t).state = .idle)
    (hheld : HeldUntilReady (fun n => (after fpga inp n).ready) inp ⟨a, b, op, true⟩ t) :
    ∃ r, FirstReady (fun n => (after fpga inp n).ready) t r ∧
      ∀ n, r ≤ n → (∀ k, r ≤ k → k < n → (inp k).valid = true) →
        (after fpga inp n).ready = true ∧ (after fpga inp n).resQ = (specOp op).eval a b ∧
          ((inp n).valid = false →
            (after fpga inp (n + 1)).state = .idle ∧ (after fpga inp (n + 1)).ready = false ∧
              (after fpga inp (n + 1)).resQ = (specOp op).eval a b) := by
  have hr0 : (after fpga inp t).ready = false := by
    apply ready_of_ne_done
    rw [hidle]
    decide
  have hwork : (after fpga inp t).Working fpga op a b := by
    unfold Working
    rw [hidle]
    exact hr0
  -- the request stays on the inputs until `ready`, and every cycle of it lowers the rank
  obtain ⟨r, htr, _, hlow, hhigh, hP⟩ := Sync.exists_first_of_rank
    (P := fun n => (after fpga inp n).Working fpga op a b)
    (q := fun n => (after fpga inp n).ready) (fun n => (after fpga inp n).rank) hwork
    (fun n hn hq hw => by
      have hin : inp n = ⟨a, b, op, true⟩ := hheld n hn hq
      rw [after_succ, hin]
      exact hw.next (hq n hn (Nat.le_refl n)))
  have hne : t ≠ r := by
    rintro rfl
    exact absurd (hr0.symm.trans hhigh) (by decide)
  obtain ⟨hdone, hres⟩ := (hP r htr (Nat.le_refl r)).of_ready hhigh
  refine ⟨r, ⟨by omega, hlow, hhigh⟩, fun n hn hvalid => ?_⟩
  obtain ⟨hs, hr, hv⟩ := done_keeps hdone hhigh hres hn hvalid
  refine ⟨hr, hv, fun hdrop => ?_⟩
  rw [after_succ]
  simp only [next, hs, hdrop, Bool.false_eq_true, if_false]
  exact ⟨trivial, trivial, hv⟩

/-- `6 * 7` in both builds. -/
theorem both_builds_answer_six_seven :
    (specOp .mul).eval 6#32 7#32 = 42#32 ∧
      ∀ fpga, ∃ r, FirstReady (fun n => (after fpga (fun _ => ⟨6, 7, .mul, true⟩) n).ready) 0 r ∧
        (after fpga (fun _ => ⟨6, 7, .mul, true⟩) r).resQ = (specOp .mul).eval 6 7 := by
  refine ⟨by decide, fun fpga => ?_⟩
  obtain ⟨r, hr, h⟩ := both_builds_answer fpga (fun _ => ⟨6, 7, .mul, true⟩) .mul 6 7 0 rfl
    (fun _ _ _ => rfl)
  exact ⟨r, hr, (h r (Nat.le_refl r) fun k hk hk' => by omega).2.1⟩

end Multiplier

/-! ## The divider -/

/-- The inputs of `divider`. -/
structure DivIn where
  divident : Word
  divisor : Word
  divOp : DivOp
  valid : Bool
  deriving DecidableEq

namespace Divider

variable {inp : ℕ → DivIn} {op : DivOp} {a b : Word} {d : Divider} {t r : ℕ}

/-- `rem_rslt_next`: the partial remainder with the next bit of the dividend. -/
def remRsltNext (d : Divider) : Word :=
  (d.remRslt <<< 1) ||| boolWord (d.dvdQ.getLsbD d.bitIdx.toNat)

/-- The registers `n` cycles after `d`. -/
def runFrom (d : Divider) (inp : ℕ → DivIn) (n : ℕ) : Divider :=
  Sync.run (fun d i => d.next i.divident i.divisor i.divOp i.valid) d inp n

/-- The registers `n` cycles after reset. -/
def after (inp : ℕ → DivIn) (n : ℕ) : Divider := reset.runFrom inp n

theorem runFrom_succ (n : ℕ) :
    d.runFrom inp (n + 1) = (d.runFrom inp n).next (inp n).divident (inp n).divisor
      (inp n).divOp (inp n).valid := rfl

/-- Out of `IDLE` the inputs do not matter. -/
theorem next_of_ne_idle (hs : d.divState ≠ .idle) (i : DivIn) :
    d.next i.divident i.divisor i.divOp i.valid = d.next a b op true := by
  cases h : d.divState with
  | idle => exact absurd h hs
  | «calc» | fast | ready => simp only [next, h]

/-- A busy unit gets back to `IDLE` with `ready`. -/
theorem next_ready_of_idle (hs : d.divState ≠ .idle) (i : DivIn)
    (hidle : (d.next i.divident i.divisor i.divOp i.valid).divState = .idle) :
    (d.next i.divident i.divisor i.divOp i.valid).ready = true := by
  revert hidle
  cases h : d.divState with
  | idle => exact absurd h hs
  | ready => simp [next, h]
  | fast => simp [next, h]
  | «calc» =>
    simp only [next, h]
    split <;> simp

/-- A busy unit gets `ready`, whatever its inputs. -/
theorem Working.reaches (hwork : (d.runFrom inp t).Working op a b)
    (hbusy : (d.runFrom inp t).divState ≠ .idle) :
    ∃ r, t ≤ r ∧ r ≤ t + (d.runFrom inp t).rank ∧
      (∀ k, t ≤ k → k < r → (d.runFrom inp k).ready = false) ∧ (d.runFrom inp r).ready = true ∧
      ∀ k, t ≤ k → k ≤ r → (d.runFrom inp k).Working op a b := by
  obtain ⟨r, htr, hle, hlow, hhigh, hP⟩ := Sync.exists_first_of_rank (t := t)
    (P := fun n => (d.runFrom inp n).Working op a b ∧
      ((d.runFrom inp n).divState = .idle → (d.runFrom inp n).ready = true))
    (q := fun n => (d.runFrom inp n).ready) (fun n => (d.runFrom inp n).rank)
    ⟨hwork, fun hidle => absurd hidle hbusy⟩ (fun n hn hq hw => by
      have hr : (d.runFrom inp n).ready = false := hq n hn (Nat.le_refl n)
      have hne : (d.runFrom inp n).divState ≠ .idle := by
        intro hidle
        exact absurd (hr.symm.trans (hw.2 hidle)) (by decide)
      have hnext := hw.1.next hr
      rw [← next_of_ne_idle hne (inp n), ← runFrom_succ] at hnext
      exact ⟨⟨hnext.1, next_ready_of_idle hne (inp n)⟩, hnext.2⟩)
  exact ⟨r, htr, hle, hlow, hhigh, fun k hk hk' => (hP k hk hk').1⟩

/-- The shift into the partial remainder is exact: the bit that is dropped is zero. -/
theorem Working.remRsltNext_eq (h : d.Working op a b) (hs : d.divState = .calc) :
    d.remRsltNext.toNat = 2 * d.remRslt.toNat + (d.dvdQ.getLsbD d.bitIdx.toNat).toNat := by
  unfold Working at h
  rw [hs] at h
  obtain ⟨-, hdvd, hcnt, hdiv⟩ := h
  have hin : d.dvdQ.getLsbD d.bitIdx.toNat
      = decide (dividentAbs op a / 2 ^ d.bitIdx.toNat % 2 = 1) := by
    rw [hdvd, BitVec.getLsbD, Nat.testBit_eq_decide_div_mod_eq]
    rfl
  rw [hcnt] at hdiv
  have hseen : dividentAbs op a / 2 ^ d.bitIdx.toNat < 2 ^ 32 :=
    lt_of_le_of_lt (Nat.div_le_self _ _) (absOf op a).isLt
  rw [remRsltNext, toNat_shiftIn hin (lt_of_le_of_lt hdiv.shiftIn_le hseen), hin,
    BitSerial.shiftIn]
  rcases Nat.mod_two_eq_zero_or_one (dividentAbs op a / 2 ^ d.bitIdx.toNat) with h | h <;>
    rw [h] <;> rfl

/-- The result stands in the cycle of `ready`, in the next one, and on while `valid` is low. -/
theorem result_keeps {v : Word} (hs : (d.runFrom inp r).divState = .idle)
    (hr : (d.runFrom inp r).ready = true) (hv : (d.runFrom inp r).divOrRemRslt = v) {n : ℕ}
    (hn : r < n) (hvalid : ∀ k, r < k → k < n → (inp k).valid = false) :
    (d.runFrom inp n).divState = .idle ∧ (d.runFrom inp n).ready = false ∧
      (d.runFrom inp n).divOrRemRslt = v := by
  induction n, hn using Nat.le_induction with
  | base =>
    rw [runFrom_succ]
    simp only [next, hs, hr, Bool.not_true, Bool.false_and, Bool.false_eq_true, if_false]
    exact ⟨trivial, trivial, hv⟩
  | succ n hn ih =>
    obtain ⟨hs', -, hv'⟩ := ih fun k hk hk' => hvalid k hk (by omega)
    rw [runFrom_succ]
    simp only [next, hs', hvalid n hn (Nat.lt_succ_self n), Bool.and_false, Bool.false_eq_true,
      if_false]
    exact ⟨trivial, trivial, hv'⟩

/-- **Every request is answered.**  A request made in `IDLE` and held until `ready` gets the
specified quotient or remainder with the first `ready`, within forty cycles.  The result stands
in the cycle after that, in which the unit is ready for the next request, and then for as long
as `valid` is low.  The partial remainder loses no bit on the way.  The path taken is one that
the operands admit, and every other path that they admit gives the same result. -/
theorem division_answered (inp : ℕ → DivIn) (op : DivOp) (a b : Word) (t : ℕ)
    (hidle : (after inp t).divState = .idle) (hready : (after inp t).ready = false)
    (hheld : HeldUntilReady (fun n => (after inp n).ready) inp ⟨a, b, op, true⟩ t) :
    (∃ r ≤ t + 40, FirstReady (fun n => (after inp n).ready) t r ∧
      (after inp r).divOrRemRslt = (specOp op).eval a b ∧
      (∀ n, r < n → (∀ k, r < k → k < n → (inp k).valid = false) →
        (after inp n).divState = .idle ∧ (after inp n).ready = false ∧
          (after inp n).divOrRemRslt = (specOp op).eval a b) ∧
      ∀ k, t ≤ k → k ≤ r → (after inp k).divState = .calc →
        (after inp k).remRsltNext.toNat = 2 * (after inp k).remRslt.toNat
          + ((after inp k).dvdQ.getLsbD (after inp k).bitIdx.toNat).toNat) ∧
    (∃ path, Admits op a b path ∧ after inp (t + 1) = (after inp t).takePath op a b path) ∧
    ∀ path, Admits op a b path → ∀ inp' : ℕ → DivIn,
      ∃ r, FirstReady (fun n => (((after inp t).takePath op a b path).runFrom inp' n).ready) 0 r ∧
        (((after inp t).takePath op a b path).runFrom inp' r).divOrRemRslt
          = (specOp op).eval a b := by
  have hin : inp t = ⟨a, b, op, true⟩ := by
    apply hheld t (Nat.le_refl t)
    intro k hk hk'
    obtain rfl : k = t := by omega
    exact hready
  have hfirst : after inp (t + 1) = (after inp t).next a b op true := by
    rw [after, runFrom_succ, hin]
    rfl
  obtain ⟨path, hpath, hnext⟩ := next_eq_takePath op a b hidle hready
  refine ⟨?_, ⟨path, hpath, hfirst.trans hnext⟩, fun path' hpath' inp' => ?_⟩
  -- the rank bounds the cycles, and the invariant gives the result with the first `ready`
  · have hrank : (after inp t).rank = 40 := by rw [rank, hidle, hready]; rfl
    obtain ⟨hwork, hlt⟩ := Working.takePath hpath hidle hready
    have hbusy : ((after inp t).takePath op a b path).divState ≠ .idle := hpath.ne_idle
    rw [← hnext, ← hfirst] at hwork hlt hbusy
    obtain ⟨r, htr, hle, hlow, hhigh, hP⟩ := Working.reaches (d := reset) hwork hbusy
    change r ≤ t + 1 + (after inp (t + 1)).rank at hle
    obtain ⟨hs, hres⟩ := (hP r htr (Nat.le_refl r)).of_ready hhigh
    refine ⟨r, by omega, ⟨htr, ?_, hhigh⟩, hres, ?_, ?_⟩
    · intro k hk hk'
      rcases Nat.eq_or_lt_of_le hk with rfl | hlt'
      · exact hready
      · exact hlow k hlt' hk'
    · intro n hn hvalid
      exact result_keeps hs hhigh hres hn hvalid
    · intro k hk hk' hcalc
      rcases Nat.eq_or_lt_of_le hk with rfl | hlt'
      · exact absurd (hidle.symm.trans hcalc) (by decide)
      · exact (hP k hlt' hk').remRsltNext_eq hcalc
  -- any other path that the operands admit starts from the same registers
  · have hwork : (((after inp t).takePath op a b path').runFrom inp' 0).Working op a b :=
      (Working.takePath hpath' hidle hready).1
    obtain ⟨r, -, -, hlow, hhigh, hP⟩ := hwork.reaches hpath'.ne_idle
    obtain ⟨-, hres⟩ := (hP r (Nat.zero_le r) (Nat.le_refl r)).of_ready hhigh
    have hpos : r ≠ 0 := by
      rintro rfl
      exact absurd ((takePath_ready hidle hready).symm.trans hhigh) (by decide)
    exact ⟨r, ⟨Nat.pos_of_ne_zero hpos, hlow, hhigh⟩, hres⟩

-- the quotient and the remainder at the signed extremes, and by zero
example : (specOp .div).eval 0x80000000#32 0xFFFFFFFF#32 = 0x80000000#32 ∧
    (specOp .rem).eval 0x80000000#32 0xFFFFFFFF#32 = 0#32 := by decide

example (x : Word) : (specOp .div).eval x 0#32 = 0xFFFFFFFF#32 ∧ (specOp .rem).eval x 0#32 = x ∧
    (specOp .divu).eval x 0#32 = 0xFFFFFFFF#32 ∧ (specOp .remu).eval x 0#32 = x :=
  ⟨rfl, rfl, rfl, rfl⟩

/-- `-7 / 2`, with the request held for ever. -/
theorem division_answered_minus_seven :
    (specOp .div).eval 0xFFFFFFF9#32 2#32 = 0xFFFFFFFD#32 ∧
      ∃ r ≤ 40,
        FirstReady (fun n => (after (fun _ => ⟨0xFFFFFFF9, 2, .div, true⟩) n).ready) 0 r ∧
        (after (fun _ => ⟨0xFFFFFFF9, 2, .div, true⟩) r).divOrRemRslt
          = (specOp .div).eval 0xFFFFFFF9 2 := by
  refine ⟨by decide, ?_⟩
  obtain ⟨⟨r, hle, hfirst, hres, -⟩, -⟩ := division_answered
    (fun _ => ⟨0xFFFFFFF9, 2, .div, true⟩) .div 0xFFFFFFF9 2 0 rfl rfl (fun _ _ _ => rfl)
  exact ⟨r, by omega, hfirst, hres⟩

/-- With `valid` still high in the cycle after `ready` the division starts again, and two cycles
after `ready` its result is gone. -/
theorem held_valid_restarts :
    ¬ ∀ (inp : ℕ → DivIn) (op : DivOp) (a b : Word) (t : ℕ),
      (after inp t).divState = .idle → (after inp t).ready = false →
      HeldUntilReady (fun n => (after inp n).ready) inp ⟨a, b, op, true⟩ t →
      Answers (fun n => (after inp n).ready) (fun n => (after inp n).divOrRemRslt)
        (fun n => (inp n).valid) t ((specOp op).eval a b) := by
  intro h
  obtain ⟨r, hfirst, hkeep⟩ := h (fun _ => ⟨5, 0, .divu, true⟩) .divu 5 0 0 rfl rfl
    (fun _ _ _ => rfl)
  have hr : r = 2 := by
    rcases Nat.lt_trichotomy r 2 with hlt | heq | hgt
    · have hpos := hfirst.after
      obtain rfl : r = 1 := by omega
      exact absurd hfirst.high (by decide)
    · exact heq
    · exact absurd (hfirst.low 2 (by omega) hgt) (by decide)
  subst hr
  exact absurd (hkeep 4 (by omega) fun _ _ _ => rfl) (by decide)

end Divider

end KianRiscV
