/-
# Bit-serial arithmetic

Facts about naturals and bit vectors behind machines that multiply and divide one bit at
a time: counting zeros by halving, one step of shift-and-add multiplication, one step of
restoring division, and the passage from absolute values to signed results.
-/
import Mathlib.Data.BitVec
import Mathlib.Tactic.LinearCombination
import Mathlib.Tactic.Positivity
import Mathlib.Tactic.Ring

namespace BitSerial

/-! ## Counting zeros by halving -/

/-- One halving step for trailing zeros: drop `h` low bits if they are all zero. -/
def dropLow (h : ℕ) (s : ℕ × ℕ) : ℕ × ℕ :=
  if s.2 % 2 ^ h = 0 then (s.1 + h, s.2 / 2 ^ h) else s

theorem dropLow_value (h : ℕ) (s : ℕ × ℕ) :
    (dropLow h s).2 * 2 ^ (dropLow h s).1 = s.2 * 2 ^ s.1 := by
  unfold dropLow
  split
  · rename_i hz
    have hd : s.2 / 2 ^ h * 2 ^ h = s.2 := Nat.div_mul_cancel (Nat.dvd_of_mod_eq_zero hz)
    show s.2 / 2 ^ h * 2 ^ (s.1 + h) = s.2 * 2 ^ s.1
    rw [pow_add, mul_comm (2 ^ s.1), ← mul_assoc, hd]
  · rfl

/-- A step of half the width leaves half as many low bits that are not all zero. -/
theorem dropLow_low {h : ℕ} {s : ℕ × ℕ} (hs : s.2 % 2 ^ (h + h) ≠ 0) :
    (dropLow h s).2 % 2 ^ h ≠ 0 := by
  unfold dropLow
  split
  · rename_i hz
    intro hno
    apply hs
    have hno' : s.2 / 2 ^ h % 2 ^ h = 0 := hno
    rw [pow_add, Nat.mod_mul, hz, hno', mul_zero, add_zero]
  · rename_i hz
    exact hz

/-- One halving step for leading zeros of a `w`-bit number: shift by `h` if the number
fits in `w - h` bits. -/
def liftHigh (w h : ℕ) (s : ℕ × ℕ) : ℕ × ℕ :=
  if s.2 < 2 ^ (w - h) then (s.1 + h, s.2 * 2 ^ h) else s

theorem liftHigh_value (w h x : ℕ) {s : ℕ × ℕ} (hs : s.2 = x * 2 ^ s.1) :
    (liftHigh w h s).2 = x * 2 ^ (liftHigh w h s).1 := by
  unfold liftHigh
  split
  · show s.2 * 2 ^ h = x * 2 ^ (s.1 + h)
    rw [hs, pow_add, mul_assoc]
  · exact hs

theorem le_liftHigh {w h : ℕ} {s : ℕ × ℕ} (hw : h + h ≤ w) (hs : 2 ^ (w - (h + h)) ≤ s.2) :
    2 ^ (w - h) ≤ (liftHigh w h s).2 := by
  unfold liftHigh
  split
  · have hpow : 2 ^ (w - h) = 2 ^ (w - (h + h)) * 2 ^ h := by
      rw [← pow_add]
      congr 1
      omega
    rw [hpow]
    exact Nat.mul_le_mul_right _ hs
  · rename_i hge
    exact Nat.le_of_not_lt hge

theorem liftHigh_lt {w h : ℕ} {s : ℕ × ℕ} (hw : h ≤ w) (hs : s.2 < 2 ^ w) :
    (liftHigh w h s).2 < 2 ^ w := by
  unfold liftHigh
  split
  · rename_i hlt
    have hpow : 2 ^ w = 2 ^ (w - h) * 2 ^ h := by rw [← pow_add, Nat.sub_add_cancel hw]
    rw [hpow]
    exact Nat.mul_lt_mul_of_pos_right hlt (by positivity)
  · exact hs

/-! ## Shift and add -/

/-- One step of a shift-and-add multiplication in registers of modulus `M` keeps
accumulator plus outstanding product, as long as the whole product fits. -/
theorem shiftAdd_step {M acc mcand mulr product : ℕ} (h : acc + mcand * mulr = product)
    (hM : product < M) :
    (if mulr % 2 = 1 then (acc + mcand) % M else acc) + mcand * 2 % M * (mulr / 2)
      = product := by
  have hmulr : mulr = 2 * (mulr / 2) + mulr % 2 := (Nat.div_add_mod mulr 2).symm
  have hrest : mcand * 2 % M * (mulr / 2) = mcand * 2 * (mulr / 2) := by
    rcases Nat.eq_zero_or_pos (mulr / 2) with hz | hpos
    · rw [hz, mul_zero, mul_zero]
    · have hle : mcand * 2 ≤ mcand * mulr := Nat.mul_le_mul_left _ (by omega)
      rw [Nat.mod_eq_of_lt (by omega)]
  have hexp : mcand * mulr = mcand * 2 * (mulr / 2) + mcand * (mulr % 2) := by
    conv_lhs => rw [hmulr]
    ring
  rw [hrest]
  split
  · rename_i hodd
    rw [hodd, mul_one] at hexp
    rw [Nat.mod_eq_of_lt (by omega)]
    omega
  · rename_i heven
    have hz : mulr % 2 = 0 := by omega
    rw [hz, mul_zero] at hexp
    omega

/-! ## Restoring division -/

/-- The quotient and remainder of the first bits of a dividend: all but the `i` lowest. -/
structure Divides (n d i q r : ℕ) : Prop where
  value : n / 2 ^ i = q * d + r
  lt : r < d

theorem Divides.init {n d i : ℕ} (hn : n < 2 ^ i) (hd : 0 < d) : Divides n d i 0 0 :=
  ⟨by rw [Nat.div_eq_of_lt hn, zero_mul], hd⟩

/-- The remainder with the next bit of the dividend shifted in. -/
def shiftIn (n i r : ℕ) : ℕ := 2 * r + n / 2 ^ i % 2

theorem Divides.shiftIn {n d i q r : ℕ} (h : Divides n d (i + 1) q r) :
    n / 2 ^ i = 2 * q * d + shiftIn n i r := by
  have hsplit : n / 2 ^ i = 2 * (n / 2 ^ (i + 1)) + n / 2 ^ i % 2 := by
    rw [pow_succ, ← Nat.div_div_eq_div_mul]
    exact (Nat.div_add_mod _ 2).symm
  rw [hsplit, h.value, BitSerial.shiftIn]
  ring

/-- The step that restores: the shifted remainder is too small to subtract from. -/
theorem Divides.restore {n d i q r : ℕ} (h : Divides n d (i + 1) q r)
    (hlt : BitSerial.shiftIn n i r < d) : Divides n d i (2 * q) (BitSerial.shiftIn n i r) :=
  ⟨h.shiftIn, hlt⟩

/-- The step that subtracts. -/
theorem Divides.subtract {n d i q r : ℕ} (h : Divides n d (i + 1) q r)
    (hle : d ≤ BitSerial.shiftIn n i r) :
    Divides n d i (2 * q + 1) (BitSerial.shiftIn n i r - d) := by
  constructor
  · have hexp : (2 * q + 1) * d = 2 * q * d + d := by ring
    rw [h.shiftIn, hexp]
    omega
  · have hr := h.lt
    have hb : n / 2 ^ i % 2 < 2 := Nat.mod_lt _ (by omega)
    unfold BitSerial.shiftIn at hle ⊢
    omega

/-- The shifted remainder never outgrows the bits seen so far. -/
theorem Divides.shiftIn_le {n d i q r : ℕ} (h : Divides n d (i + 1) q r) :
    BitSerial.shiftIn n i r ≤ n / 2 ^ i := by
  rw [h.shiftIn]
  omega

theorem Divides.quotient_le {n d i q r : ℕ} (h : Divides n d i q r) : q ≤ n / 2 ^ i := by
  have hd : 0 < d := Nat.lt_of_le_of_lt (Nat.zero_le r) h.lt
  have hq : q ≤ q * d := Nat.le_mul_of_pos_right q hd
  rw [h.value]
  omega

/-- All bits seen: quotient and remainder of the whole dividend. -/
theorem Divides.result {n d q r : ℕ} (h : Divides n d 0 q r) : n / d = q ∧ n % d = r := by
  have hv : n = q * d + r := by simpa using h.value
  have hd : 0 < d := Nat.lt_of_le_of_lt (Nat.zero_le r) h.lt
  constructor
  · rw [hv, Nat.add_comm, Nat.add_mul_div_right _ _ hd, Nat.div_eq_of_lt h.lt, Nat.zero_add]
  · rw [hv, Nat.add_comm, Nat.add_mul_mod_self_right, Nat.mod_eq_of_lt h.lt]

/-! ## Shift and subtract -/

/-- Division of `r` by `d` from a divisor shifted ahead of the dividend: in each of the rounds
that are left the divisor is taken away if it fits, and shifted back by one place. -/
def shiftSubtract (d : ℕ) : ℕ → ℕ → ℕ → ℕ
  | 0, _, q => q
  | k + 1, r, q =>
    if d * 2 ^ k ≤ r then shiftSubtract d k (r - d * 2 ^ k) (2 * q + 1)
    else shiftSubtract d k r (2 * q)

/-- `k` rounds find `k` bits of the quotient, and all ones if it has more. -/
theorem shiftSubtract_eq {d : ℕ} (hd : 0 < d) (k r q : ℕ) :
    shiftSubtract d k r q = q * 2 ^ k + min (r / d) (2 ^ k - 1) := by
  induction k generalizing r q with
  | zero => simp [shiftSubtract]
  | succ k ih =>
    have hpow : 2 ^ (k + 1) = 2 * 2 ^ k := pow_succ' 2 k
    have hpos : 0 < 2 ^ k := by positivity
    have hq : 2 * q * 2 ^ k = q * (2 * 2 ^ k) := by ring
    rw [shiftSubtract, hpow]
    split
    · rename_i hle
      have hfit : 2 ^ k ≤ r / d := by
        rw [Nat.le_div_iff_mul_le hd, mul_comm]
        exact hle
      have hrest : (r - d * 2 ^ k) / d = r / d - 2 ^ k := Nat.sub_mul_div r d (2 ^ k)
      rw [ih, hrest, add_mul, one_mul, hq]
      omega
    · rename_i hgt
      have hfit : r / d < 2 ^ k := by
        rw [Nat.div_lt_iff_lt_mul hd, mul_comm]
        omega
      rw [ih, hq]
      omega

/-! ## Signs -/

section

variable {w : ℕ}

/-- A negative number is minus its two's complement. -/
theorem toInt_of_msb {x : BitVec w} (h : x.msb = true) : x.toInt = -((-x).toNat : ℤ) := by
  have hpos : 0 < x.toNat := by
    rcases Nat.eq_zero_or_pos x.toNat with hz | hpos
    · have hx : x = 0#w := BitVec.eq_of_toNat_eq (by simpa using hz)
      rw [hx] at h
      simp at h
    · exact hpos
  have hlt := x.isLt
  rw [BitVec.toInt_eq_msb_cond, if_pos h, BitVec.toNat_neg, Nat.mod_eq_of_lt (by omega)]
  omega

theorem toInt_of_not_msb {x : BitVec w} (h : x.msb = false) : x.toInt = (x.toNat : ℤ) := by
  rw [BitVec.toInt_eq_msb_cond, h]
  rfl

/-- The high half of minus a double-width number, from the complement of its high half
and whether its low half is zero. -/
theorem neg_ediv_two_pow (n : ℕ) (k : ℕ) :
    (-(n : ℤ)) / 2 ^ k = -((n / 2 ^ k : ℕ) : ℤ) - (if n % 2 ^ k = 0 then 0 else 1) := by
  have hk : (0 : ℤ) < 2 ^ k := by positivity
  have hn : (n : ℤ) = 2 ^ k * ((n / 2 ^ k : ℕ) : ℤ) + ((n % 2 ^ k : ℕ) : ℤ) := by
    exact_mod_cast (Nat.div_add_mod n (2 ^ k)).symm
  have hr : ((n % 2 ^ k : ℕ) : ℤ) < 2 ^ k := by
    exact_mod_cast Nat.mod_lt n (show 0 < 2 ^ k by positivity)
  split
  · rename_i hz
    rw [hn, hz, Nat.cast_zero, add_zero, sub_zero, ← mul_neg, Int.mul_ediv_cancel_left _ hk.ne']
  · rename_i hz
    have hpos : (0 : ℤ) < ((n % 2 ^ k : ℕ) : ℤ) := by
      exact_mod_cast Nat.pos_of_ne_zero hz
    have hexp : -(n : ℤ) = (2 ^ k - ((n % 2 ^ k : ℕ) : ℤ))
        + 2 ^ k * (-((n / 2 ^ k : ℕ) : ℤ) - 1) := by
      linear_combination -hn
    rw [hexp, Int.add_mul_ediv_left _ _ hk.ne', Int.ediv_eq_zero_of_lt (by omega) (by omega)]
    ring

end

end BitSerial
