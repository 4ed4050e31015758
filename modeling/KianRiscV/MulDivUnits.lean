/-
# The multiplier and the divider compute their operations

Both units hold an invariant from the cycle in which they take their operands to the one
in which they raise `ready`, and a rank that drops with every edge.  The invariants are
those of bit-serial arithmetic on the absolute values of the operands; the last state
turns the result into that of the signed operation.
-/
import KianRiscV.BitSerial
import KianRiscV.Divider
import KianRiscV.Rv32im
import Mathlib.Data.Nat.Prime.Basic

namespace KianRiscV

open BitSerial

/-! ## Counting zeros -/

/-- One halving step of `ctz32`. -/
def ctzHalve (h : ℕ) (s : ℕ × Word) : ℕ × Word :=
  if s.2.extractLsb' 0 h = BitVec.ofNat h 0 then (s.1 + h, s.2 >>> h) else s

/-- One halving step of `clz32`. -/
def clzHalve (h : ℕ) (s : ℕ × Word) : ℕ × Word :=
  if s.2.extractLsb' (32 - h) h = BitVec.ofNat h 0 then (s.1 + h, s.2 <<< h) else s

theorem ctz32_eq {x : Word} (hx : x ≠ 0#32) :
    ctz32 x = (if (ctzHalve 2 (ctzHalve 4 (ctzHalve 8 (ctzHalve 16 (0, x))))).2.getLsbD 0
      then (ctzHalve 2 (ctzHalve 4 (ctzHalve 8 (ctzHalve 16 (0, x))))).1
      else (ctzHalve 2 (ctzHalve 4 (ctzHalve 8 (ctzHalve 16 (0, x))))).1 + 1) := by
  rw [ctz32, if_neg hx]
  rfl

theorem clz32_eq {x : Word} (hx : x ≠ 0#32) :
    clz32 x = (if (clzHalve 2 (clzHalve 4 (clzHalve 8 (clzHalve 16 (0, x))))).2.getLsbD 31
      then (clzHalve 2 (clzHalve 4 (clzHalve 8 (clzHalve 16 (0, x))))).1
      else (clzHalve 2 (clzHalve 4 (clzHalve 8 (clzHalve 16 (0, x))))).1 + 1) := by
  rw [clz32, if_neg hx]
  rfl

/-- A step on words is one on naturals. -/
theorem ctzHalve_toNat (h : ℕ) (s : ℕ × Word) :
    ((ctzHalve h s).1, (ctzHalve h s).2.toNat) = dropLow h (s.1, s.2.toNat) := by
  have hz : s.2.extractLsb' 0 h = BitVec.ofNat h 0 ↔ s.2.toNat % 2 ^ h = 0 := by
    rw [← BitVec.toNat_inj]
    simp
  unfold ctzHalve dropLow
  simp only [hz]
  split
  · simp [Nat.shiftRight_eq_div_pow]
  · rfl

theorem clzHalve_toNat {h : ℕ} (hh : h ≤ 32) (s : ℕ × Word) :
    ((clzHalve h s).1, (clzHalve h s).2.toNat) = liftHigh 32 h (s.1, s.2.toNat) := by
  have hpow : (2 : ℕ) ^ 32 = 2 ^ (32 - h) * 2 ^ h := by rw [← pow_add, Nat.sub_add_cancel hh]
  have hlt : s.2.toNat / 2 ^ (32 - h) < 2 ^ h := by
    rw [Nat.div_lt_iff_lt_mul (by positivity), mul_comm, ← hpow]
    exact s.2.isLt
  have hz : s.2.extractLsb' (32 - h) h = BitVec.ofNat h 0 ↔ s.2.toNat < 2 ^ (32 - h) := by
    rw [← BitVec.toNat_inj]
    simp only [BitVec.extractLsb'_toNat, Nat.shiftRight_eq_div_pow, BitVec.toNat_ofNat,
      Nat.zero_mod]
    rw [Nat.mod_eq_of_lt hlt, Nat.div_eq_zero_iff]
    simp
  unfold clzHalve liftHigh
  simp only [hz]
  split
  · rename_i hs
    have hfit : s.2.toNat * 2 ^ h < 2 ^ 32 := by
      rw [hpow]
      exact Nat.mul_lt_mul_of_pos_right hs (by positivity)
    simpa [Nat.shiftLeft_eq] using hfit
  · rfl

/-- `ctz32` splits off the largest power of two. -/
theorem ctz32_spec {x : Word} (hx : x ≠ 0#32) :
    ∃ y, x.toNat = y * 2 ^ ctz32 x ∧ y % 2 = 1 := by
  have h0 : (0, x.toNat).2 % 2 ^ (16 + 16) ≠ 0 := by
    intro hz
    rw [Nat.mod_eq_of_lt x.isLt] at hz
    exact hx (BitVec.eq_of_toNat_eq hz)
  have hlow := dropLow_low (h := 2) (dropLow_low (h := 4) (dropLow_low (h := 8)
    (dropLow_low (h := 16) h0)))
  have hval : (dropLow 2 (dropLow 4 (dropLow 8 (dropLow 16 (0, x.toNat))))).2
      * 2 ^ (dropLow 2 (dropLow 4 (dropLow 8 (dropLow 16 (0, x.toNat))))).1 = x.toNat := by
    rw [dropLow_value, dropLow_value, dropLow_value, dropLow_value, pow_zero, mul_one]
  have hs : ∀ s : ℕ × Word, dropLow 2 (dropLow 4 (dropLow 8 (dropLow 16 (s.1, s.2.toNat))))
      = ((ctzHalve 2 (ctzHalve 4 (ctzHalve 8 (ctzHalve 16 s)))).1,
         (ctzHalve 2 (ctzHalve 4 (ctzHalve 8 (ctzHalve 16 s)))).2.toNat) := by
    intro s
    rw [ctzHalve_toNat, ctzHalve_toNat, ctzHalve_toNat, ctzHalve_toNat]
  rw [hs (0, x)] at hlow hval
  rw [ctz32_eq hx]
  generalize ctzHalve 2 (ctzHalve 4 (ctzHalve 8 (ctzHalve 16 (0, x)))) = s at hlow hval
  have hbit : s.2.getLsbD 0 = decide (s.2.toNat % 2 = 1) := by
    rw [BitVec.getLsbD, Nat.testBit_zero]
  split
  · rename_i hodd
    rw [hbit] at hodd
    exact ⟨s.2.toNat, hval.symm, of_decide_eq_true hodd⟩
  · rename_i heven
    rw [hbit] at heven
    -- the two low bits are not both zero, so the second is set
    have hl : s.2.toNat % 4 ≠ 0 := hlow
    have h2 : s.2.toNat % 2 = 0 := by
      have hne := of_decide_eq_false (Bool.eq_false_of_not_eq_true heven)
      omega
    refine ⟨s.2.toNat / 2, ?_, by omega⟩
    rw [pow_succ, mul_comm (2 ^ s.1), ← mul_assoc, Nat.div_mul_cancel (by omega), hval]

/-- `clz32` leaves enough bits for the number. -/
theorem clz32_spec {x : Word} (hx : x ≠ 0#32) :
    clz32 x < 32 ∧ x.toNat < 2 ^ (32 - clz32 x) := by
  have hs : ∀ s : ℕ × Word,
      ((clzHalve 2 (clzHalve 4 (clzHalve 8 (clzHalve 16 s)))).1,
         (clzHalve 2 (clzHalve 4 (clzHalve 8 (clzHalve 16 s)))).2.toNat)
      = liftHigh 32 2 (liftHigh 32 4 (liftHigh 32 8 (liftHigh 32 16 (s.1, s.2.toNat)))) := by
    intro s
    rw [clzHalve_toNat (by omega), clzHalve_toNat (by omega), clzHalve_toNat (by omega),
      clzHalve_toNat (by omega)]
  have hval : (clzHalve 2 (clzHalve 4 (clzHalve 8 (clzHalve 16 (0, x))))).2.toNat
      = x.toNat * 2 ^ (clzHalve 2 (clzHalve 4 (clzHalve 8 (clzHalve 16 (0, x))))).1 := by
    have h := liftHigh_value 32 2 x.toNat (liftHigh_value 32 4 x.toNat
      (liftHigh_value 32 8 x.toNat (liftHigh_value 32 16 x.toNat
        (show (0, x.toNat).2 = x.toNat * 2 ^ (0, x.toNat).1 by rw [pow_zero, mul_one]))))
    rwa [← hs (0, x)] at h
  rw [clz32_eq hx]
  generalize clzHalve 2 (clzHalve 4 (clzHalve 8 (clzHalve 16 (0, x)))) = s at hval
  have hpos : 0 < x.toNat := BitVec.toNat_pos_of_ne_zero hx
  -- a number that still fits after shifting by `n` leaves `32 - n` bits
  have hfit : ∀ n, x.toNat * 2 ^ n < 2 ^ 32 → n < 32 ∧ x.toNat < 2 ^ (32 - n) := by
    intro n hn
    have hle : 2 ^ n ≤ x.toNat * 2 ^ n := Nat.le_mul_of_pos_left _ hpos
    have hlt : n < 32 := (Nat.pow_lt_pow_iff_right (by omega)).1 (lt_of_le_of_lt hle hn)
    refine ⟨hlt, Nat.lt_of_mul_lt_mul_right (a := 2 ^ n) ?_⟩
    rw [← pow_add, Nat.sub_add_cancel hlt.le]
    exact hn
  split
  · apply hfit
    rw [← hval]
    exact s.2.isLt
  · rename_i htop
    apply hfit
    have hlt : s.2.toNat < 2 ^ 31 := by
      have hmsb : s.2.msb = false := by
        rw [BitVec.msb_eq_getLsbD_last]
        exact Bool.eq_false_of_not_eq_true htop
      have htwo := BitVec.msb_eq_false_iff_two_mul_lt.1 hmsb
      omega
    rw [pow_succ, ← mul_assoc, ← hval]
    omega

/-! ## Absolute values -/

/-- The number an operand stands for. -/
def operandValue (signed : Bool) (v : Word) : ℤ := if signed then v.toInt else v.toNat

/-- The absolute value of the operand, with its sign put back. -/
theorem operandValue_eq (signed : Bool) (v : Word) :
    operandValue signed v
      = if signed && v.getLsbD 31 then -((Multiplier.absOf signed v).toNat : ℤ)
        else ((Multiplier.absOf signed v).toNat : ℤ) := by
  unfold operandValue Multiplier.absOf
  cases signed with
  | false => simp
  | true =>
    have hmsb : v.msb = v.getLsbD 31 := BitVec.msb_eq_getLsbD_last v
    cases hv : v.getLsbD 31 with
    | true => simp [← BitVec.neg_eq_not_add, toInt_of_msb (hmsb.trans hv)]
    | false => simp [toInt_of_not_msb (hmsb.trans hv)]

namespace Multiplier

/-! ## The multiplier -/

/-- The operation in the words of the specification. -/
def specOp : MulOp → Rv32im.MulDivOp
  | .mul => .mul
  | .mulh => .mulh
  | .mulsu => .mulhsu
  | .mulu => .mulhu

/-- `prod_neg_r`. -/
def prodNeg (op : MulOp) (a b : Word) : Bool :=
  (aSigned op && a.getLsbD 31) ^^ (bSigned op && b.getLsbD 31)

/-- The product of the absolute values. -/
def absProduct (op : MulOp) (a b : Word) : ℕ :=
  (absOf (aSigned op) a).toNat * (absOf (bSigned op) b).toNat

theorem absProduct_lt (op : MulOp) (a b : Word) : absProduct op a b < 2 ^ 64 := by
  have h := Nat.mul_lt_mul'' (absOf (aSigned op) a).isLt (absOf (bSigned op) b).isLt
  exact h

/-- The product of the operands is that of their absolute values, with the sign of
`prod_neg_r`. -/
theorem operand_product (op : MulOp) (a b : Word) :
    operandValue (aSigned op) a * operandValue (bSigned op) b
      = if prodNeg op a b then -(absProduct op a b : ℤ) else (absProduct op a b : ℤ) := by
  rw [operandValue_eq, operandValue_eq, prodNeg, absProduct]
  cases aSigned op && a.getLsbD 31 <;> cases bSigned op && b.getLsbD 31 <;> simp

/-- The high word of the negated accumulator, without a 64-bit negation. -/
theorem hiTc_eq (acc : BitVec 64) :
    ~~~(acc.extractLsb' 32 32) + boolWord (acc.extractLsb' 0 32 == 0#32)
      = BitVec.ofInt 32 (-(acc.toNat : ℤ) / 2 ^ 32) := by
  have hhi : acc.extractLsb' 32 32 = BitVec.ofNat 32 (acc.toNat / 2 ^ 32) := by
    apply BitVec.eq_of_toNat_eq
    simp [Nat.shiftRight_eq_div_pow]
  have hlo : (acc.extractLsb' 0 32 == 0#32) = decide (acc.toNat % 2 ^ 32 = 0) := by
    rw [Bool.eq_iff_iff, beq_iff_eq, ← BitVec.toNat_inj]
    simp
  rw [neg_ediv_two_pow, hhi, hlo]
  have hq : acc.toNat / 2 ^ 32 < 2 ^ 32 := by
    have hlt := acc.isLt
    omega
  apply BitVec.eq_of_toNat_eq
  rw [BitVec.toNat_add, BitVec.toNat_not, BitVec.toNat_ofNat, BitVec.toNat_ofInt,
    Nat.mod_eq_of_lt hq]
  generalize acc.toNat / 2 ^ 32 = q at hq
  by_cases hz : acc.toNat % 2 ^ 32 = 0
  · rw [if_pos hz, decide_eq_true hz, show (boolWord true).toNat = 1 from rfl]
    omega
  · rw [if_neg hz, decide_eq_false hz, show (boolWord false).toNat = 0 from rfl]
    omega

/-- What `READY` stores, from the product of the absolute values. -/
theorem resultOf_eq (op : MulOp) (a b : Word) {acc : BitVec 64}
    (hacc : acc.toNat = absProduct op a b) :
    resultOf op (prodNeg op a b) acc = (specOp op).eval a b := by
  have hprod := operand_product op a b
  have hhi : acc.extractLsb' 32 32 = BitVec.ofInt 32 (acc.toNat / 2 ^ 32) := by
    have hcast : ((acc.toNat : ℤ) / 2 ^ 32) = ((acc.toNat / 2 ^ 32 : ℕ) : ℤ) := by norm_cast
    rw [hcast, BitVec.ofInt_natCast]
    apply BitVec.eq_of_toNat_eq
    simp [Nat.shiftRight_eq_div_pow]
  -- the three high-word operations differ only in which operands are signed
  have high : op ≠ .mul → resultOf op (prodNeg op a b) acc
      = BitVec.ofInt 32 (operandValue (aSigned op) a * operandValue (bSigned op) b / 2 ^ 32) := by
    intro hne
    rw [hprod, ← hacc]
    have hres : resultOf op (prodNeg op a b) acc
        = if prodNeg op a b then
            ~~~(acc.extractLsb' 32 32) + boolWord (acc.extractLsb' 0 32 == 0#32)
          else acc.extractLsb' 32 32 := by
      cases op with
      | mul => exact absurd rfl hne
      | mulh => rfl
      | mulsu => rfl
      | mulu => rfl
    rw [hres]
    split
    · exact hiTc_eq acc
    · exact hhi
  cases op with
  | mul =>
    show acc.extractLsb' 0 32 = BitVec.ofNat 32 (a.toNat * b.toNat)
    apply BitVec.eq_of_toNat_eq
    have hacc' : acc.toNat = a.toNat * b.toNat := hacc
    simp [hacc']
  | mulh => exact high (by decide)
  | mulsu => exact high (by decide)
  | mulu =>
    rw [high (by decide)]
    show BitVec.ofInt 32 ((a.toNat : ℤ) * (b.toNat : ℤ) / 2 ^ 32)
      = BitVec.ofNat 32 (a.toNat * b.toNat / 2 ^ 32)
    rw [← BitVec.ofInt_natCast]
    norm_cast

/-- What the registers hold while the unit works on `a` and `b`. -/
def Working (fpga : Bool) (op : MulOp) (a b : Word) (m : Multiplier) : Prop :=
  match m.state with
  | .idle => m.ready = false
  | .prep => m.ready = false ∧ m.mulOpQ = op ∧ m.aQ = a ∧ m.bQ = b
  | .calc =>
    m.ready = false ∧ m.mulOpQ = op ∧ m.prodNegR = prodNeg op a b ∧ fpga = false ∧
      m.acc.toNat + m.mcand.toNat * m.mulr.toNat = absProduct op a b
  | .mul1 =>
    m.ready = false ∧ m.mulOpQ = op ∧ m.prodNegR = prodNeg op a b ∧ fpga = true ∧
      m.aDsp = absOf (aSigned op) a ∧ m.bDsp = absOf (bSigned op) b
  | .ready =>
    m.ready = false ∧ m.mulOpQ = op ∧ m.prodNegR = prodNeg op a b ∧
      m.acc.toNat = absProduct op a b
  | .done => m.resQ = (specOp op).eval a b

/-- The number of edges to `ready`, at most. -/
def rank (m : Multiplier) : ℕ :=
  match m.state with
  | .idle => 2 ^ 32 + 4
  | .prep => 2 ^ 32 + 3
  | .calc => m.mulr.toNat + 3
  | .mul1 => 3
  | .ready => 2
  | .done => if m.ready then 0 else 1

variable {fpga : Bool} {op : MulOp} {a b : Word} {m : Multiplier}

/-- The first partial product: trailing zeros of the multiplier move to the
multiplicand. -/
theorem skipZeros (x y : Word) (hy : y ≠ 0#32) :
    (x.setWidth 64 <<< ctz32 y).toNat * (y >>> ctz32 y).toNat = x.toNat * y.toNat := by
  obtain ⟨z, hz, -⟩ := ctz32_spec hy
  have hlt : z * 2 ^ ctz32 y < 2 ^ 32 := by
    rw [← hz]
    exact y.isLt
  have hdiv : (y >>> ctz32 y).toNat = z := by
    rw [BitVec.toNat_ushiftRight, Nat.shiftRight_eq_div_pow, hz]
    exact Nat.mul_div_cancel z (by positivity)
  have hpos : 0 < z := by
    rcases Nat.eq_zero_or_pos z with h0 | hpos
    · rw [h0, zero_mul] at hz
      exact absurd (BitVec.eq_of_toNat_eq hz) hy
    · exact hpos
  have hpow : 2 ^ ctz32 y < 2 ^ 32 := lt_of_le_of_lt (Nat.le_mul_of_pos_left _ hpos) hlt
  have hfit : x.toNat * 2 ^ ctz32 y < 2 ^ 64 := by
    have h := Nat.mul_lt_mul'' x.isLt hpow
    exact h
  have hx : (x.setWidth 64).toNat = x.toNat := BitVec.toNat_setWidth_of_le (by decide)
  rw [hdiv, BitVec.toNat_shiftLeft, hx, Nat.shiftLeft_eq, Nat.mod_eq_of_lt hfit]
  conv_rhs => rw [hz]
  ring

/-- One step of the iterative build keeps the invariant. -/
theorem calc_step {acc mcand : BitVec 64} {mulr : Word} {product : ℕ}
    (h : acc.toNat + mcand.toNat * mulr.toNat = product) (hlt : product < 2 ^ 64) :
    (if mulr.getLsbD 0 then acc + mcand else acc).toNat
      + (mcand <<< 1).toNat * (mulr >>> 1).toNat = product := by
  have hstep := shiftAdd_step h hlt
  have hbit : mulr.getLsbD 0 = decide (mulr.toNat % 2 = 1) := by
    rw [BitVec.getLsbD, Nat.testBit_zero]
  rw [hbit, BitVec.toNat_shiftLeft, BitVec.toNat_ushiftRight, Nat.shiftLeft_eq,
    Nat.shiftRight_eq_div_pow, pow_one]
  by_cases ho : mulr.toNat % 2 = 1
  · rw [if_pos ho] at hstep
    rw [decide_eq_true ho, if_pos rfl, BitVec.toNat_add]
    exact hstep
  · rw [if_neg ho] at hstep
    rw [decide_eq_false ho, if_neg Bool.false_ne_true]
    exact hstep

/-- **One edge of the multiplier** while its operands are valid. -/
theorem Working.next (h : m.Working fpga op a b) (hr : m.ready = false) :
    (m.next fpga a b op true).Working fpga op a b ∧ (m.next fpga a b op true).rank < m.rank := by
  unfold Working at h
  cases hs : m.state with
  | idle =>
    simp [Multiplier.next, hs, Working, rank]
  | prep =>
    rw [hs] at h
    obtain ⟨hready, hop, ha, hb⟩ := h
    have hrank : m.rank = 2 ^ 32 + 3 := by rw [rank, hs]
    rw [hrank]
    simp only [Multiplier.next, hs, hop, ha, hb]
    cases fpga with
    | true => exact ⟨⟨hready, rfl, rfl, rfl, rfl, rfl⟩, show 3 < 2 ^ 32 + 3 by omega⟩
    | false =>
      simp only [Bool.false_eq_true, if_false]
      -- without the fast multiplication the trailing zeros of the multiplier are skipped at once
      by_cases hz : absOf (bSigned op) b = 0#32
      · rw [if_pos hz]
        refine ⟨⟨hready, rfl, rfl, ?_⟩, show 2 < 2 ^ 32 + 3 by omega⟩
        rw [absProduct, hz]
        rfl
      · rw [if_neg hz]
        refine ⟨⟨hready, rfl, rfl, rfl, ?_⟩, ?_⟩
        · rw [absProduct, ← skipZeros _ _ hz]
          exact Nat.zero_add _
        · exact Nat.add_lt_add_right (BitVec.isLt _) 3
  | «calc» =>
    rw [hs] at h
    obtain ⟨hready, hop, hneg, hf, hinv⟩ := h
    have hrank : m.rank = m.mulr.toNat + 3 := by rw [rank, hs]
    have hstep := calc_step hinv (absProduct_lt op a b)
    have hhalf : (m.mulr >>> 1).toNat = m.mulr.toNat / 2 := by
      rw [BitVec.toNat_ushiftRight, Nat.shiftRight_eq_div_pow, pow_one]
    rw [hrank]
    simp only [Multiplier.next, hs, hf, Bool.false_eq_true, if_false]
    -- it ends as soon as no one is left in the multiplier
    by_cases hz : m.mulr >>> 1 = 0#32
    · rw [if_pos hz]
      refine ⟨⟨hready, hop, hneg, ?_⟩, show 2 < m.mulr.toNat + 3 by omega⟩
      rw [hz] at hstep
      simpa using hstep
    · rw [if_neg hz]
      refine ⟨⟨hready, hop, hneg, rfl, hstep⟩, ?_⟩
      have hpos : (m.mulr >>> 1).toNat ≠ 0 := fun h0 => hz (BitVec.eq_of_toNat_eq h0)
      show (m.mulr >>> 1).toNat + 3 < m.mulr.toNat + 3
      omega
  | mul1 =>
    rw [hs] at h
    obtain ⟨hready, hop, hneg, hf, ha, hb⟩ := h
    have hrank : m.rank = 3 := by rw [rank, hs]
    rw [hrank]
    simp only [Multiplier.next, hs, hf, if_true, ha, hb]
    refine ⟨⟨hready, hop, hneg, ?_⟩, show 2 < 3 by omega⟩
    have hlt := absProduct_lt op a b
    have hw : ∀ x : Word, (x.setWidth 64).toNat = x.toNat := fun x =>
      BitVec.toNat_setWidth_of_le (by decide)
    show (BitVec.setWidth 64 _ * BitVec.setWidth 64 _).toNat = absProduct op a b
    rw [BitVec.toNat_mul, hw, hw]
    exact Nat.mod_eq_of_lt hlt
  | ready =>
    rw [hs] at h
    obtain ⟨hready, hop, hneg, hacc⟩ := h
    have hrank : m.rank = 2 := by rw [rank, hs]
    rw [hrank]
    simp only [Multiplier.next, hs, hop, hneg]
    refine ⟨resultOf_eq op a b hacc, ?_⟩
    show (if m.ready then 0 else 1) < 2
    split <;> omega
  | done =>
    rw [hs] at h
    simp [Multiplier.next, hs, Working, rank, hr, h]

/-- Once it is `ready`, the unit keeps its result for as long as the operands are valid. -/
theorem Working.of_ready (h : m.Working fpga op a b) (hr : m.ready = true) :
    m.state = .done ∧ m.resQ = (specOp op).eval a b := by
  unfold Working at h
  cases hs : m.state <;> rw [hs] at h
  case done => exact ⟨rfl, h⟩
  case idle => exact absurd (h.symm.trans hr) (by decide)
  all_goals exact absurd (h.1.symm.trans hr) (by decide)

end Multiplier

namespace Divider

/-! ## The divider -/

/-- The operation in the words of the specification. -/
def specOp : DivOp → Rv32im.MulDivOp
  | .div => .div
  | .divu => .divu
  | .rem => .rem
  | .remu => .remu

/-- The absolute values of dividend and divisor. -/
def dividentAbs (op : DivOp) (a : Word) : ℕ := (absOf op a).toNat

def divisorAbs (op : DivOp) (b : Word) : ℕ := (absOf op b).toNat

theorem absOf_eq (op : DivOp) (v : Word) : absOf op v = Multiplier.absOf (isSigned op) v := rfl

/-- Only zero has absolute value zero. -/
theorem absOf_eq_zero {op : DivOp} {v : Word} : absOf op v = 0#32 ↔ v = 0#32 := by
  unfold absOf
  split
  · rw [← BitVec.neg_eq_not_add, BitVec.neg_eq_zero_iff]
  · rfl

/-- A signed result from an absolute one. -/
theorem ofInt_sign (neg : Bool) (n : ℕ) :
    (if neg then ~~~(BitVec.ofNat 32 n) + 1#32 else BitVec.ofNat 32 n)
      = BitVec.ofInt 32 (if neg then -(n : ℤ) else n) := by
  cases neg with
  | true =>
    simp only [if_true]
    rw [← BitVec.neg_eq_not_add, BitVec.ofInt_neg, BitVec.ofInt_natCast]
  | false => simp [BitVec.ofInt_natCast]

/-- The quotient of the operands from that of the absolute values. -/
theorem operand_tdiv (op : DivOp) (a b : Word) :
    (operandValue (isSigned op) a).tdiv (operandValue (isSigned op) b)
      = if isSigned op && (a.getLsbD 31 ^^ b.getLsbD 31)
        then -((dividentAbs op a / divisorAbs op b : ℕ) : ℤ)
        else ((dividentAbs op a / divisorAbs op b : ℕ) : ℤ) := by
  rw [operandValue_eq, operandValue_eq, dividentAbs, divisorAbs, absOf_eq, absOf_eq]
  cases isSigned op <;> cases a.getLsbD 31 <;> cases b.getLsbD 31 <;> simp

/-- The remainder of the operands, which has the sign of the dividend. -/
theorem operand_tmod (op : DivOp) (a b : Word) :
    (operandValue (isSigned op) a).tmod (operandValue (isSigned op) b)
      = if isSigned op && a.getLsbD 31
        then -((dividentAbs op a % divisorAbs op b : ℕ) : ℤ)
        else ((dividentAbs op a % divisorAbs op b : ℕ) : ℤ) := by
  have hmod : ∀ x y : ℕ, (x : ℤ).tmod y = (x : ℤ) % y :=
    fun x y => Int.tmod_eq_emod_of_nonneg (Int.natCast_nonneg x)
  rw [operandValue_eq, operandValue_eq, dividentAbs, divisorAbs, absOf_eq, absOf_eq]
  cases isSigned op <;> cases a.getLsbD 31 <;> cases b.getLsbD 31 <;> simp [hmod]

/-- The specified result for a divisor other than zero. -/
theorem eval_of_ne_zero {op : DivOp} {a b : Word} (hb : b ≠ 0#32) :
    (specOp op).eval a b = BitVec.ofInt 32
      (if op = .div ∨ op = .divu
        then (operandValue (isSigned op) a).tdiv (operandValue (isSigned op) b)
        else (operandValue (isSigned op) a).tmod (operandValue (isSigned op) b)) := by
  cases op with
  | div => exact if_neg hb
  | rem => exact if_neg hb
  | divu =>
    refine (if_neg hb).trans ?_
    rw [← BitVec.ofInt_natCast, Int.ofNat_tdiv]
    rfl
  | remu =>
    refine (if_neg hb).trans ?_
    rw [← BitVec.ofInt_natCast, Int.ofNat_tmod]
    rfl

/-- The operands in work. -/
structure Latched (op : DivOp) (a b : Word) (d : Divider) : Prop where
  ready : d.ready = false
  op : d.divOpQ = op
  divident : d.dividentQ = a
  divisor : d.divisorQ = b

/-- What the registers hold while the unit works on `a` and `b`. -/
def Working (op : DivOp) (a b : Word) (d : Divider) : Prop :=
  match d.divState with
  | .idle => d.ready = true → d.divOrRemRslt = (specOp op).eval a b
  | .calc =>
    d.Latched op a b ∧ d.dvdQ = absOf op a ∧ d.iterCnt.toNat = d.bitIdx.toNat + 1 ∧
      Divides (dividentAbs op a) (divisorAbs op b) d.iterCnt.toNat d.quoRslt.toNat
        d.remRslt.toNat
  | .fast =>
    d.Latched op a b ∧ isPow2 (absOf op b) = true ∧
      d.pow2ShiftQ = BitVec.ofNat 5 (ctz32 (absOf op b))
  | .ready =>
    d.Latched op a b ∧ (b ≠ 0#32 → d.quoRslt.toNat = dividentAbs op a / divisorAbs op b ∧
      d.remRslt.toNat = dividentAbs op a % divisorAbs op b)

/-- The number of edges to `ready`, at most. -/
def rank (d : Divider) : ℕ :=
  match d.divState with
  | .idle => if d.ready then 0 else 40
  | .calc => d.iterCnt.toNat + 2
  | .fast => 2
  | .ready => 1

variable {op : DivOp} {a b : Word} {d : Divider}

/-- A power of two is `2` to the number of its trailing zeros. -/
theorem eq_two_pow_of_isPow2 {x : Word} (h : isPow2 x = true) :
    ctz32 x < 32 ∧ x.toNat = 2 ^ ctz32 x := by
  simp only [isPow2, Bool.and_eq_true, bne_iff_ne, beq_iff_eq] at h
  obtain ⟨hx, hand⟩ := h
  obtain ⟨y, hy, hodd⟩ := ctz32_spec hx
  have hpos : 0 < x.toNat := BitVec.toNat_pos_of_ne_zero hx
  have hsub : (x - 1#32).toNat = x.toNat - 1 := by
    have hlt := x.isLt
    rw [BitVec.toNat_sub, show (1#32).toNat = 1 from rfl]
    omega
  have hnat : x.toNat &&& (x.toNat - 1) = 0 := by
    have h0 := congrArg BitVec.toNat hand
    rwa [BitVec.toNat_and, hsub] at h0
  obtain ⟨k, hk⟩ := (Nat.and_sub_one_eq_zero_iff_isPowerOfTwo hpos.ne').1 hnat
  -- an odd divisor of a power of two is one
  have hone : y = 1 := by
    have hdvd : y ∣ 2 ^ k := by
      rw [← hk, hy]
      exact Nat.dvd_mul_right y _
    obtain ⟨j, -, hj⟩ := (Nat.dvd_prime_pow Nat.prime_two).1 hdvd
    rcases j with _ | j
    · simpa using hj
    · rw [hj, pow_succ] at hodd
      omega
  rw [hone, one_mul] at hy
  refine ⟨?_, hy⟩
  have hlt := x.isLt
  rw [hy] at hlt
  exact (Nat.pow_lt_pow_iff_right (by omega)).1 hlt

/-- The number of bits to divide: enough for the dividend. -/
theorem iterCntInit_spec (x : Word) :
    iterCntInit x ≤ 32 ∧ x.toNat < 2 ^ iterCntInit x ∧
      (x ≠ 0#32 → iterCntInit x = 32 - clz32 x ∧ clz32 x < 32) := by
  unfold iterCntInit
  by_cases hx : x = 0#32
  · rw [if_pos hx, hx]
    exact ⟨by omega, by decide, fun h => absurd rfl h⟩
  · obtain ⟨hlt, hfit⟩ := clz32_spec hx
    rw [if_neg hx]
    exact ⟨by omega, hfit, fun _ => ⟨rfl, hlt⟩⟩

/-! ### The three paths -/

/-- The operands may take the path that begins in the state: nothing to divide, a shift, or
restoring division from the leading one of the dividend. -/
def Admits (op : DivOp) (a b : Word) : DivState → Prop
  | .idle => False
  | .ready => absOf op b = 0#32 ∨ iterCntInit (absOf op a) = 0
  | .fast => isPow2 (absOf op b) = true
  | .calc => absOf op b ≠ 0#32 ∧ iterCntInit (absOf op a) ≠ 0

/-- The operands taken, on the given path. -/
def takePath (op : DivOp) (a b : Word) (path : DivState) (d : Divider) : Divider :=
  { d.next a b op true with divState := path }

theorem Admits.ne_idle {path : DivState} (h : Admits op a b path) : path ≠ .idle := by
  rintro rfl
  exact h

theorem takePath_ready {path : DivState} (hs : d.divState = .idle) (hr : d.ready = false) :
    (d.takePath op a b path).ready = false := by
  simp [takePath, next, hs, hr]

/-- The path that the divider takes is one that the operands admit. -/
theorem next_eq_takePath (op : DivOp) (a b : Word) (hs : d.divState = .idle)
    (hr : d.ready = false) :
    ∃ path, Admits op a b path ∧ d.next a b op true = d.takePath op a b path := by
  by_cases hdone : absOf op b = 0#32 ∨ iterCntInit (absOf op a) = 0
  · refine ⟨.ready, hdone, ?_⟩
    simp only [takePath, next, hs, hr, Bool.not_false, Bool.and_self, if_true, if_pos hdone]
  · by_cases hp : isPow2 (absOf op b) = true
    · refine ⟨.fast, hp, ?_⟩
      simp only [takePath, next, hs, hr, Bool.not_false, Bool.and_self, if_true, if_neg hdone,
        if_pos hp]
    · refine ⟨.calc, not_or.1 hdone, ?_⟩
      simp only [takePath, next, hs, hr, Bool.not_false, Bool.and_self, if_true, if_neg hdone,
        if_neg hp]

/-- The operands taken on any path that they admit. -/
theorem Working.takePath {path : DivState} (hpath : Admits op a b path)
    (hs : d.divState = .idle) (hr : d.ready = false) :
    (d.takePath op a b path).Working op a b ∧ (d.takePath op a b path).rank < d.rank := by
  have hrank : d.rank = 40 := by rw [rank, hs, hr]; rfl
  obtain ⟨hcnt, hfit, hne⟩ := iterCntInit_spec (absOf op a)
  rw [hrank]
  simp only [Divider.takePath, Divider.next, hs, hr, Bool.not_false, Bool.and_self, if_true]
  cases path with
  | idle => exact absurd hpath id
  | ready =>
    -- nothing to divide by, or nothing to divide
    refine ⟨⟨⟨rfl, rfl, rfl, rfl⟩, fun hb => ?_⟩, show 1 < 40 by omega⟩
    have hzero : dividentAbs op a = 0 := by
      rcases hpath with hz | hz
      · exact absurd (absOf_eq_zero.1 hz) hb
      · rw [hz] at hfit
        unfold dividentAbs
        omega
    rw [hzero, Nat.zero_div, Nat.zero_mod]
    exact ⟨rfl, rfl⟩
  | fast => exact ⟨⟨⟨rfl, rfl, rfl, rfl⟩, hpath, rfl⟩, show 2 < 40 by omega⟩
  | «calc» =>
    obtain ⟨hb, hiter0⟩ := hpath
    have ha : absOf op a ≠ 0#32 := by
      intro hz
      exact hiter0 (by rw [iterCntInit, if_pos hz])
    obtain ⟨hinit, hclz⟩ := hne ha
    have hiter : (BitVec.ofNat 6 (iterCntInit (absOf op a))).toNat
        = iterCntInit (absOf op a) := by
      rw [BitVec.toNat_ofNat, Nat.mod_eq_of_lt (by omega)]
    refine ⟨⟨⟨rfl, rfl, rfl, rfl⟩, rfl, ?_, ?_⟩, ?_⟩
    · show (BitVec.ofNat 6 (iterCntInit (absOf op a))).toNat
        = (if clz32 (absOf op a) = 32 then 0 else BitVec.ofNat 5 (31 - clz32 (absOf op a))).toNat
          + 1
      rw [hiter, if_neg (by omega), BitVec.toNat_ofNat, Nat.mod_eq_of_lt (by omega)]
      omega
    · show Divides _ _ (BitVec.ofNat 6 (iterCntInit (absOf op a))).toNat 0 0
      rw [hiter]
      refine Divides.init hfit (Nat.pos_of_ne_zero fun h0 => hb ?_)
      exact BitVec.eq_of_toNat_eq h0
    · show (BitVec.ofNat 6 (iterCntInit (absOf op a))).toNat + 2 < 40
      rw [hiter]
      omega

/-- The first cycle, with the operands on the inputs. -/
theorem Working.start (hs : d.divState = .idle) (hr : d.ready = false) :
    (d.next a b op true).Working op a b ∧ (d.next a b op true).rank < d.rank := by
  obtain ⟨path, hpath, hnext⟩ := next_eq_takePath op a b hs hr
  rw [hnext]
  exact Working.takePath hpath hs hr

/-- The remainder register with a bit shifted in. -/
theorem toNat_shiftIn {rem : Word} {n i : ℕ} {inBit : Bool}
    (hbit : inBit = decide (n / 2 ^ i % 2 = 1)) (hfit : BitSerial.shiftIn n i rem.toNat < 2 ^ 32) :
    ((rem <<< 1) ||| boolWord inBit).toNat = BitSerial.shiftIn n i rem.toNat := by
  have hb : (boolWord inBit).toNat = n / 2 ^ i % 2 := by
    rw [hbit]
    rcases Nat.mod_two_eq_zero_or_one (n / 2 ^ i) with h | h <;> rw [h] <;> rfl
  have hlt : (boolWord inBit).toNat < 2 ^ 1 := by
    rw [hb]
    exact Nat.mod_lt _ (by omega)
  unfold BitSerial.shiftIn at hfit ⊢
  have hsh : (rem <<< 1).toNat = rem.toNat <<< 1 := by
    rw [BitVec.toNat_shiftLeft, Nat.mod_eq_of_lt]
    rw [Nat.shiftLeft_eq]
    omega
  rw [BitVec.toNat_or, hsh, ← Nat.shiftLeft_add_eq_or_of_lt hlt, hb, Nat.shiftLeft_eq]
  omega

/-- The trial subtraction: bit 32 is the borrow. -/
theorem trial_borrow (t v : Word) :
    (t.setWidth 33 - v.setWidth 33).getLsbD 32 = decide (t.toNat < v.toNat) := by
  have ht := t.isLt
  have hv := v.isLt
  have hsub : (t.setWidth 33 - v.setWidth 33).toNat
      = (2 ^ 33 - v.toNat + t.toNat) % 2 ^ 33 := by
    rw [BitVec.toNat_sub, BitVec.toNat_setWidth, BitVec.toNat_setWidth,
      Nat.mod_eq_of_lt (show t.toNat < 2 ^ 33 by omega),
      Nat.mod_eq_of_lt (show v.toNat < 2 ^ 33 by omega)]
  rw [BitVec.getLsbD, hsub, Nat.testBit_eq_decide_div_mod_eq, decide_eq_decide]
  omega

theorem trial_difference {t v : Word} (h : v.toNat ≤ t.toNat) :
    ((t.setWidth 33 - v.setWidth 33).setWidth 32).toNat = t.toNat - v.toNat := by
  have ht := t.isLt
  have hv := v.isLt
  rw [BitVec.toNat_setWidth, BitVec.toNat_sub, BitVec.toNat_setWidth, BitVec.toNat_setWidth]
  omega

/-- One bit of restoring division: the quotient and the remainder stand for one more bit of the
dividend `n`. -/
theorem divides_trial {n i : ℕ} {v quo rem : Word} {inBit : Bool} (hn : n / 2 ^ i < 2 ^ 32)
    (hbit : inBit = decide (n / 2 ^ i % 2 = 1))
    (h : Divides n v.toNat (i + 1) quo.toNat rem.toNat) :
    Divides n v.toNat i
      (if decide (BitSerial.shiftIn n i rem.toNat < v.toNat)
        then quo <<< 1 else (quo <<< 1) ||| 1#32).toNat
      (if decide (BitSerial.shiftIn n i rem.toNat < v.toNat)
        then (rem <<< 1) ||| boolWord inBit
        else (((rem <<< 1) ||| boolWord inBit).setWidth 33 - v.setWidth 33).setWidth 32).toNat := by
  have hnext := toNat_shiftIn hbit (lt_of_le_of_lt h.shiftIn_le hn)
  by_cases hlt : BitSerial.shiftIn n i rem.toNat < v.toNat
  · rw [decide_eq_true hlt, if_pos rfl, if_pos rfl, hnext]
    have hr := h.restore hlt
    have hq := lt_of_le_of_lt hr.quotient_le hn
    rw [BitVec.toNat_shiftLeft, Nat.shiftLeft_eq, pow_one, mul_comm, Nat.mod_eq_of_lt hq]
    exact hr
  · rw [decide_eq_false hlt, if_neg Bool.false_ne_true, if_neg Bool.false_ne_true,
      trial_difference (by rw [hnext]; omega), hnext]
    have hr := h.subtract (Nat.le_of_not_lt hlt)
    have hq := lt_of_le_of_lt hr.quotient_le hn
    have hquo : ((quo <<< 1) ||| 1#32).toNat = 2 * quo.toNat + 1 := by
      rw [BitVec.toNat_or, BitVec.toNat_shiftLeft, Nat.mod_eq_of_lt (by
        rw [Nat.shiftLeft_eq]; omega)]
      rw [show (1#32).toNat = 1 from rfl, ← Nat.shiftLeft_add_eq_or_of_lt (by omega),
        Nat.shiftLeft_eq]
      omega
    rw [hquo]
    exact hr

/-- One cycle of restoring division. -/
theorem Working.calc_step (h : d.Working op a b) (hs : d.divState = .calc) :
    (d.next a b op true).Working op a b ∧ (d.next a b op true).rank < d.rank := by
  unfold Working at h
  rw [hs] at h
  obtain ⟨hl, hdvd, hcnt, hdiv⟩ := h
  have hrank : d.rank = d.iterCnt.toNat + 2 := by rw [rank, hs]
  obtain ⟨i, hi⟩ : ∃ i, d.bitIdx.toNat = i := ⟨_, rfl⟩
  rw [hi] at hcnt
  rw [hcnt] at hdiv
  have hi32 : i < 32 := by
    rw [← hi]
    exact d.bitIdx.isLt
  have hin : d.dvdQ.getLsbD d.bitIdx.toNat = decide (dividentAbs op a / 2 ^ i % 2 = 1) := by
    rw [hdvd, hi, BitVec.getLsbD, Nat.testBit_eq_decide_div_mod_eq]
    rfl
  have hseen : dividentAbs op a / 2 ^ i < 2 ^ 32 :=
    lt_of_le_of_lt (Nat.div_le_self _ _) (absOf op a).isLt
  have hnext := toNat_shiftIn hin (lt_of_le_of_lt hdiv.shiftIn_le hseen)
  have hdec : (d.iterCnt - 1).toNat = i := by
    have hlt := d.iterCnt.isLt
    rw [BitVec.toNat_sub, show (1 : BitVec 6).toNat = 1 from rfl]
    omega
  have hdivides := divides_trial hseen hin hdiv
  rw [hrank]
  simp only [Divider.next, hs, hl.op, hl.divisor, trial_borrow, hnext]
  refine ⟨?_, ?_⟩
  -- after the lowest bit the result is there, and before it the invariant is that of the next bit
  · by_cases hlast : d.iterCnt = 1#6
    · rw [if_pos hlast]
      have hi0 : i = 0 := by
        rw [hlast] at hcnt
        simpa using hcnt.symm
      subst hi0
      obtain ⟨hq, hr⟩ := hdivides.result
      exact ⟨⟨hl.ready, rfl, hl.divident, rfl⟩, fun _ => ⟨hq.symm, hr.symm⟩⟩
    · rw [if_neg hlast]
      have hpos : 0 < i := by
        rcases Nat.eq_zero_or_pos i with h0 | hpos
        · refine absurd (BitVec.eq_of_toNat_eq ?_) hlast
          rw [hcnt, h0]
          rfl
        · exact hpos
      refine ⟨⟨hl.ready, rfl, hl.divident, rfl⟩, hdvd, ?_, ?_⟩
      · show (d.iterCnt - 1).toNat = (d.bitIdx - 1).toNat + 1
        rw [hdec, BitVec.toNat_sub, show (1 : BitVec 5).toNat = 1 from rfl]
        omega
      · show Divides _ _ (d.iterCnt - 1).toNat _ _
        rw [hdec]
        exact hdivides
  · by_cases hlast : d.iterCnt = 1#6
    · rw [if_pos hlast]
      show 1 < d.iterCnt.toNat + 2
      omega
    · rw [if_neg hlast]
      show (d.iterCnt - 1).toNat + 2 < d.iterCnt.toNat + 2
      rw [hdec]
      omega

/-- The shift that divides by a power of two. -/
theorem Working.fast_step (h : d.Working op a b) (hs : d.divState = .fast) :
    (d.next a b op true).Working op a b ∧ (d.next a b op true).rank < d.rank := by
  unfold Working at h
  rw [hs] at h
  obtain ⟨hl, hp, hshift⟩ := h
  obtain ⟨hlt, hpow⟩ := eq_two_pow_of_isPow2 hp
  have hrank : d.rank = 2 := by rw [rank, hs]
  have hsh : d.pow2ShiftQ.toNat = ctz32 (absOf op b) := by
    rw [hshift, BitVec.toNat_ofNat, Nat.mod_eq_of_lt (by omega)]
  have hsub : (absOf op b - 1#32).toNat = 2 ^ ctz32 (absOf op b) - 1 := by
    have hb := (absOf op b).isLt
    have hpos : 0 < 2 ^ ctz32 (absOf op b) := by positivity
    rw [BitVec.toNat_sub, show (1#32).toNat = 1 from rfl]
    omega
  rw [hrank]
  simp only [Divider.next, hs, hl.op, hl.divisor, hl.divident]
  refine ⟨⟨⟨hl.ready, rfl, rfl, rfl⟩, fun _ => ⟨?_, ?_⟩⟩, show 1 < 2 by omega⟩
  · show (absOf op a >>> d.pow2ShiftQ.toNat).toNat = _
    rw [hsh, BitVec.toNat_ushiftRight, Nat.shiftRight_eq_div_pow, divisorAbs, hpow]
    rfl
  · show (absOf op a &&& (absOf op b - 1#32)).toNat = _
    rw [BitVec.toNat_and, hsub, Nat.and_two_pow_sub_one_eq_mod, divisorAbs, hpow]
    rfl

/-- The last step gives the results their signs. -/
theorem Working.ready_step (h : d.Working op a b) (hs : d.divState = .ready) :
    (d.next a b op true).Working op a b ∧ (d.next a b op true).rank < d.rank := by
  unfold Working at h
  rw [hs] at h
  obtain ⟨hl, hres⟩ := h
  have hrank : d.rank = 1 := by rw [rank, hs]
  rw [hrank]
  simp only [Divider.next, hs, hl.op, hl.divisor, hl.divident, absOf_eq_zero]
  refine ⟨fun _ => ?_, show 0 < 1 by omega⟩
  by_cases hb : b = 0#32
  · -- division by zero
    subst hb
    cases op <;> simp [divOrRemRslt, specOp, Rv32im.MulDivOp.eval]
  · obtain ⟨hquo, hrem⟩ := hres hb
    have hq : d.quoRslt = BitVec.ofNat 32 (dividentAbs op a / divisorAbs op b) := by
      rw [← hquo, BitVec.ofNat_toNat, BitVec.setWidth_eq]
    have hr : d.remRslt = BitVec.ofNat 32 (dividentAbs op a % divisorAbs op b) := by
      rw [← hrem, BitVec.ofNat_toNat, BitVec.setWidth_eq]
    simp only [if_neg hb, hq, hr, ofInt_sign, ← operand_tdiv, ← operand_tmod]
    rw [eval_of_ne_zero hb]
    exact (apply_ite (BitVec.ofInt 32) _ _ _).symm

/-- **One edge of the divider** while its operands are valid. -/
theorem Working.next (h : d.Working op a b) (hr : d.ready = false) :
    (d.next a b op true).Working op a b ∧ (d.next a b op true).rank < d.rank := by
  cases hs : d.divState with
  | idle => exact Working.start hs hr
  | «calc» => exact h.calc_step hs
  | fast => exact h.fast_step hs
  | ready => exact h.ready_step hs

/-- Once it is `ready`, the unit is idle and shows its result. -/
theorem Working.of_ready (h : d.Working op a b) (hr : d.ready = true) :
    d.divState = .idle ∧ d.divOrRemRslt = (specOp op).eval a b := by
  unfold Working at h
  cases hs : d.divState <;> rw [hs] at h
  case idle => exact ⟨rfl, h hr⟩
  all_goals exact absurd (h.1.ready.symm.trans hr) (by decide)

end Divider

end KianRiscV
