/-
# 64-bit division in software

`clz32`, `__udivdi3` and `__umoddi3` of the bootloader's `kianv_io_utils.c`, which stand in for
libgcc's, and the three helpers that divide the cycle counter by them.

`__udivdi3` shifts the divisor up by the leading zeros of one of its halves and then runs one
round of shift-and-subtract for each place.  With a divisor below `2 ^ 32` these are the places of
the low half only: the shifted divisor stays below `2 ^ 32` whatever the dividend is, and a
quotient of more bits comes out as all ones (`udivdi3_toNat`).
-/
import KianRiscV.BitSerial
import KianRiscV.Instruction

namespace KianRiscV.IoUtils

open BitSerial

/-! ## The model -/

/-- `if (!(x & mask)) { n += h; x <<= h; }` -/
def clzHalf (mask : Word) (h : ℕ) (s : ℕ × Word) : ℕ × Word :=
  if s.2 &&& mask = 0#32 then (s.1 + h, s.2 <<< h) else s

def clz32 (x : Word) : ℕ :=
  if x = 0#32 then 32 else
    let s := clzHalf 0xFFFF0000#32 16 (0, x)
    let s := clzHalf 0xFF000000#32 8 s
    let s := clzHalf 0xF0000000#32 4 s
    let s := clzHalf 0xC0000000#32 2 s
    if s.2 &&& 0x80000000#32 = 0#32 then s.1 + 1 else s.1

/-- The `for` loop of `__udivdi3`, with the number of rounds still to go. -/
def udivLoop : ℕ → BitVec 64 → BitVec 64 → BitVec 64 → BitVec 64
  | 0, _, _, quot => quot
  | rounds + 1, num, den, quot =>
    if num ≥ den then udivLoop rounds (num - den) (den >>> 1) (quot <<< 1 ||| 1#64)
    else udivLoop rounds num (den >>> 1) (quot <<< 1)

/-- `shift` of `__udivdi3`. -/
def udivShift (den : BitVec 64) : ℕ :=
  clz32 (if den >>> 32 ≠ 0#64 then (den >>> 32).setWidth 32 else den.setWidth 32)

/-- `__udivdi3`. -/
def udivdi3 (num den : BitVec 64) : BitVec 64 :=
  if den = 0#64 then 0xFFFFFFFFFFFFFFFF#64
  else if den > num then 0#64
  else if den = num then 1#64
  else udivLoop (udivShift den + 1) num (den <<< udivShift den) 0#64

/-- `__umoddi3`. -/
def umoddi3 (num den : BitVec 64) : BitVec 64 :=
  if den = 0#64 then num else num - udivdi3 num den * den

/-- `elapsed_microseconds`, with the frequency and the cycle counter read. -/
def elapsedMicroseconds (freq : Word) (cycles : BitVec 64) : BitVec 64 :=
  if freq = 0#32 then 0#64 else udivdi3 cycles (udivdi3 (freq.setWidth 64) 1000000#64)

/-- `elapsed_milliseconds`. -/
def elapsedMilliseconds (freq : Word) (cycles : BitVec 64) : BitVec 64 :=
  if freq = 0#32 then 0#64 else udivdi3 cycles (udivdi3 (freq.setWidth 64) 1000#64)

/-- `elapsed_seconds`. -/
def elapsedSeconds (freq : Word) (cycles : BitVec 64) : BitVec 64 :=
  if freq = 0#32 then 0#64 else udivdi3 cycles (freq.setWidth 64)

/-! ## Leading zeros -/

/-- A mask of the `h` highest bits tells whether the number fits in the others. -/
theorem and_high_eq_zero_iff {h : ℕ} {mask : Word}
    (hmask : ∀ i < 32, mask.getLsbD i = decide (32 - h ≤ i)) (x : Word) :
    x &&& mask = 0#32 ↔ x.toNat < 2 ^ (32 - h) := by
  constructor
  · intro hz
    apply Nat.lt_pow_two_of_testBit _
    intro i hi
    by_cases hi32 : i < 32
    · have hbit := congrArg (fun y : Word => y.getLsbD i) hz
      simp only [BitVec.getLsbD_and, hmask i hi32, BitVec.getLsbD_zero] at hbit
      rw [decide_eq_true (show 32 - h ≤ i from hi), Bool.and_true] at hbit
      exact hbit
    · exact BitVec.getLsbD_of_ge x i (by omega)
  · intro hlt
    apply BitVec.eq_of_getLsbD_eq
    intro i hi
    rw [BitVec.getLsbD_and, hmask i hi, BitVec.getLsbD_zero]
    by_cases hlow : 32 - h ≤ i
    · have hbit : x.getLsbD i = false :=
        Nat.testBit_lt_two_pow (Nat.lt_of_lt_of_le hlt (Nat.pow_le_pow_right (by omega) hlow))
      rw [hbit, Bool.false_and]
    · rw [decide_eq_false hlow, Bool.and_false]

/-- A step on words is one on naturals. -/
theorem clzHalf_toNat {h : ℕ} (hh : h ≤ 32) {mask : Word}
    (hmask : ∀ i < 32, mask.getLsbD i = decide (32 - h ≤ i)) (s : ℕ × Word) :
    ((clzHalf mask h s).1, (clzHalf mask h s).2.toNat) = liftHigh 32 h (s.1, s.2.toNat) := by
  unfold clzHalf liftHigh
  simp only [and_high_eq_zero_iff hmask]
  split
  · rename_i hs
    have hfit : s.2.toNat * 2 ^ h < 2 ^ 32 := by
      have hpow : (2 : ℕ) ^ 32 = 2 ^ (32 - h) * 2 ^ h := by rw [← pow_add, Nat.sub_add_cancel hh]
      rw [hpow]
      exact Nat.mul_lt_mul_of_pos_right hs (by positivity)
    simpa [Nat.shiftLeft_eq] using hfit
  · rfl

/-- Shifted by its leading zeros, a number has its highest bit set. -/
theorem clz32_spec {x : Word} (hx : x ≠ 0#32) :
    2 ^ 31 ≤ x.toNat * 2 ^ clz32 x ∧ x.toNat * 2 ^ clz32 x < 2 ^ 32 := by
  have hpos : 0 < x.toNat := BitVec.toNat_pos_of_ne_zero hx
  have hs : ∀ s : ℕ × Word,
      ((clzHalf 0xC0000000#32 2 (clzHalf 0xF0000000#32 4 (clzHalf 0xFF000000#32 8
          (clzHalf 0xFFFF0000#32 16 s)))).1,
        (clzHalf 0xC0000000#32 2 (clzHalf 0xF0000000#32 4 (clzHalf 0xFF000000#32 8
          (clzHalf 0xFFFF0000#32 16 s)))).2.toNat)
      = liftHigh 32 2 (liftHigh 32 4 (liftHigh 32 8 (liftHigh 32 16 (s.1, s.2.toNat)))) := by
    intro s
    rw [clzHalf_toNat (by omega) (by decide), clzHalf_toNat (by omega) (by decide),
      clzHalf_toNat (by omega) (by decide), clzHalf_toNat (by omega) (by decide)]
  have hval := liftHigh_value 32 2 x.toNat (liftHigh_value 32 4 x.toNat
    (liftHigh_value 32 8 x.toNat (liftHigh_value 32 16 x.toNat
      (show (0, x.toNat).2 = x.toNat * 2 ^ (0, x.toNat).1 by rw [pow_zero, mul_one]))))
  have hhigh := le_liftHigh (w := 32) (h := 2) (by omega) (le_liftHigh (w := 32) (h := 4) (by omega)
    (le_liftHigh (w := 32) (h := 8) (by omega) (le_liftHigh (w := 32) (h := 16) (by omega)
      (show 2 ^ (32 - (16 + 16)) ≤ (0, x.toNat).2 from hpos))))
  have hlt := liftHigh_lt (w := 32) (h := 2) (by omega) (liftHigh_lt (w := 32) (h := 4) (by omega)
    (liftHigh_lt (w := 32) (h := 8) (by omega) (liftHigh_lt (w := 32) (h := 16) (by omega)
      (show (0, x.toNat).2 < 2 ^ 32 from x.isLt))))
  rw [← hs (0, x)] at hval hhigh hlt
  rw [clz32, if_neg hx]
  dsimp only at hval hhigh hlt ⊢
  generalize clzHalf 0xC0000000#32 2 (clzHalf 0xF0000000#32 4 (clzHalf 0xFF000000#32 8
    (clzHalf 0xFFFF0000#32 16 (0, x)))) = s at hval hhigh hlt ⊢
  have htop : ∀ i < 32, (0x80000000#32).getLsbD i = decide (32 - 1 ≤ i) := by decide
  simp only [and_high_eq_zero_iff htop]
  -- the last step counts one zero more if the two highest bits are not both set
  split
  · rename_i hlow
    rw [pow_succ 2 s.1, ← mul_assoc, ← hval]
    omega
  · rename_i hset
    rw [← hval]
    omega

theorem clz32_eq {x : Word} (hx : x ≠ 0#32) : clz32 x = 31 - Nat.log2 x.toNat := by
  obtain ⟨hle, hlt⟩ := clz32_spec hx
  have hpos : 0 < x.toNat := BitVec.toNat_pos_of_ne_zero hx
  have hclz : clz32 x ≤ 31 := by
    by_contra hge
    have hpow : 2 ^ 32 ≤ 2 ^ clz32 x := Nat.pow_le_pow_right (by omega) (by omega)
    have hmul : 2 ^ clz32 x ≤ x.toNat * 2 ^ clz32 x := Nat.le_mul_of_pos_left _ hpos
    omega
  have hlog : Nat.log2 x.toNat = 31 - clz32 x := by
    rw [Nat.log2_eq_iff hpos.ne']
    constructor
    · refine Nat.le_of_mul_le_mul_right ?_ (show 0 < 2 ^ clz32 x by positivity)
      rw [← pow_add, Nat.sub_add_cancel hclz]
      exact hle
    · apply Nat.lt_of_mul_lt_mul_right (a := 2 ^ clz32 x)
      rw [← pow_add, show 31 - clz32 x + 1 + clz32 x = 32 by omega]
      exact hlt
  omega

/-- The places counted: those of the whole divisor if its upper half is set, and those of the
lower half if not. -/
theorem udivShift_eq {den : BitVec 64} (hden : den ≠ 0#64) :
    udivShift den = (if 2 ^ 32 ≤ den.toNat then 63 else 31) - Nat.log2 den.toNat := by
  have hpos : 0 < den.toNat := BitVec.toNat_pos_of_ne_zero hden
  have hhi : (den >>> 32).toNat = den.toNat / 2 ^ 32 := by
    rw [BitVec.toNat_ushiftRight, Nat.shiftRight_eq_div_pow]
  have hzero : den >>> 32 = 0#64 ↔ den.toNat < 2 ^ 32 := by
    rw [← BitVec.toNat_inj, hhi]
    simp [Nat.div_eq_zero_iff]
  have hlt := den.isLt
  unfold udivShift
  by_cases hlow : den.toNat < 2 ^ 32
  · have hword : (den.setWidth 32).toNat = den.toNat := by
      rw [BitVec.toNat_setWidth, Nat.mod_eq_of_lt hlow]
    rw [if_neg (not_not.2 (hzero.2 hlow)), if_neg (by omega), clz32_eq, hword]
    intro h
    rw [h] at hword
    exact hpos.ne hword
  · have hword : ((den >>> 32).setWidth 32).toNat = den.toNat / 2 ^ 32 := by
      rw [BitVec.toNat_setWidth, hhi, Nat.mod_eq_of_lt (by omega)]
    have hpos' : 0 < den.toNat / 2 ^ 32 := Nat.div_pos (by omega) (by omega)
    have h32 : 32 ≤ Nat.log2 den.toNat := (Nat.le_log2 hpos.ne').2 (by omega)
    have hlog : Nat.log2 (den.toNat / 2 ^ 32) = Nat.log2 den.toNat - 32 := by
      rw [Nat.log2_eq_iff hpos'.ne', Nat.le_div_iff_mul_le (by omega),
        Nat.div_lt_iff_lt_mul (by omega), ← pow_add, ← pow_add,
        show Nat.log2 den.toNat - 32 + 32 = Nat.log2 den.toNat by omega,
        show Nat.log2 den.toNat - 32 + 1 + 32 = Nat.log2 den.toNat + 1 by omega]
      exact ⟨Nat.log2_self_le hpos.ne', Nat.lt_log2_self⟩
    rw [if_pos (fun h => hlow (hzero.1 h)), if_pos (by omega), clz32_eq, hword, hlog]
    · omega
    · intro h
      rw [h] at hword
      exact hpos'.ne hword

/-! ## The quotient -/

theorem toNat_shl_or_one {x : BitVec 64} (h : 2 * x.toNat + 1 < 2 ^ 64) :
    (x <<< 1).toNat = 2 * x.toNat ∧ (x <<< 1 ||| 1#64).toNat = 2 * x.toNat + 1 := by
  have hshl : (x <<< 1).toNat = 2 * x.toNat := by
    rw [BitVec.toNat_shiftLeft, Nat.shiftLeft_eq, pow_one, Nat.mod_eq_of_lt (by omega), mul_comm]
  refine ⟨hshl, ?_⟩
  rw [BitVec.toNat_or, hshl]
  exact (Nat.two_pow_add_eq_or_of_lt (i := 1) (b := 1) (by omega) x.toNat).symm

/-- The loop is shift-and-subtract as long as no bit of the divisor or the quotient is lost. -/
theorem udivLoop_toNat {d : ℕ} (k : ℕ) {num den quot : BitVec 64}
    (hden : ∀ j, k = j + 1 → den.toNat = d * 2 ^ j) (hquot : (quot.toNat + 1) * 2 ^ k ≤ 2 ^ 64) :
    (udivLoop k num den quot).toNat = shiftSubtract d k num.toNat quot.toNat := by
  induction k generalizing num den quot with
  | zero => rfl
  | succ k ih =>
    have hd : den.toNat = d * 2 ^ k := hden k rfl
    have hshift : ∀ j, k = j + 1 → (den >>> 1).toNat = d * 2 ^ j := by
      rintro j rfl
      rw [BitVec.toNat_ushiftRight, Nat.shiftRight_eq_div_pow, hd, pow_succ, ← mul_assoc, pow_one,
        Nat.mul_div_cancel _ (by omega)]
    -- whichever bit is shifted in, the quotient still has room for the rounds to go
    have hbound : (2 * quot.toNat + 1 + 1) * 2 ^ k ≤ 2 ^ 64 := by
      have hexp : (2 * quot.toNat + 1 + 1) * 2 ^ k = (quot.toNat + 1) * 2 ^ (k + 1) := by ring
      omega
    have hfit : 2 * quot.toNat + 1 < 2 ^ 64 :=
      lt_of_lt_of_le (Nat.le_mul_of_pos_right _ (by positivity)) hbound
    obtain ⟨hshl, hor⟩ := toNat_shl_or_one hfit
    have hiff : num ≥ den ↔ d * 2 ^ k ≤ num.toNat := by rw [ge_iff_le, BitVec.le_def, hd]
    rw [udivLoop, shiftSubtract]
    by_cases hle : d * 2 ^ k ≤ num.toNat
    · rw [if_pos (hiff.2 hle), if_pos hle]
      have hsub : (num - den).toNat = num.toNat - d * 2 ^ k := by
        rw [BitVec.toNat_sub_of_le (hiff.2 hle), hd]
      rw [ih hshift (by rw [hor]; exact hbound), hsub, hor]
    · rw [if_neg fun h => hle (hiff.1 h), if_neg hle]
      have hbound' : ((quot <<< 1).toNat + 1) * 2 ^ k ≤ 2 ^ 64 := by
        rw [hshl]
        exact le_trans (Nat.mul_le_mul_right _ (by omega)) hbound
      rw [ih hshift hbound', hshl]

/-- The quotient, cut off at the bits there are rounds for. -/
theorem udivdi3_toNat (num : BitVec 64) {den : BitVec 64} (hden : den ≠ 0#64) :
    (udivdi3 num den).toNat
      = min (num.toNat / den.toNat) (2 ^ (udivShift den + 1) - 1) := by
  have hpos : 0 < den.toNat := BitVec.toNat_pos_of_ne_zero hden
  have hbits : 2 ≤ 2 ^ (udivShift den + 1) := by
    rw [pow_succ]
    exact Nat.le_mul_of_pos_left 2 (by positivity)
  unfold udivdi3
  rw [if_neg hden]
  split
  · rename_i hlt
    rw [Nat.div_eq_of_lt (BitVec.lt_def.1 hlt), Nat.zero_min]
    rfl
  split
  · rename_i heq
    subst heq
    rw [Nat.div_self hpos, Nat.min_eq_left (by omega)]
    rfl
  -- the loop: the shifted divisor fits, and a bit of the quotient is left for every round
  · have hshift : den.toNat * 2 ^ udivShift den < 2 ^ 64 := by
      have hlog : den.toNat < 2 ^ (Nat.log2 den.toNat + 1) := Nat.lt_log2_self
      have hlt64 : Nat.log2 den.toNat < 64 := (Nat.log2_lt hpos.ne').2 den.isLt
      have hle : udivShift den + (Nat.log2 den.toNat + 1) ≤ 64 := by
        rw [udivShift_eq hden]
        split <;> omega
      calc den.toNat * 2 ^ udivShift den
          < 2 ^ (Nat.log2 den.toNat + 1) * 2 ^ udivShift den :=
            Nat.mul_lt_mul_of_pos_right hlog (by positivity)
        _ = 2 ^ (udivShift den + (Nat.log2 den.toNat + 1)) := by rw [← pow_add, add_comm]
        _ ≤ 2 ^ 64 := Nat.pow_le_pow_right (by omega) hle
    have hrounds : udivShift den + 1 ≤ 64 := by
      rw [udivShift_eq hden]
      split <;> omega
    rw [udivLoop_toNat (d := den.toNat), shiftSubtract_eq hpos]
    · simp
    · intro j hj
      obtain rfl : udivShift den = j := by omega
      rw [BitVec.toNat_shiftLeft, Nat.shiftLeft_eq, Nat.mod_eq_of_lt hshift]
    · rw [show (0#64).toNat = 0 from rfl, Nat.zero_add, one_mul]
      exact Nat.pow_le_pow_right (by omega) hrounds

/-- Every quotient has its bits if the upper half of the divisor is set. -/
theorem div_lt_iff {num den : BitVec 64} (hden : den ≠ 0#64) :
    num.toNat / den.toNat < 2 ^ (udivShift den + 1) ↔
      2 ^ 32 ≤ den.toNat ∨ num.toNat < den.toNat * 2 ^ (32 - Nat.log2 den.toNat) := by
  have hpos : 0 < den.toNat := BitVec.toNat_pos_of_ne_zero hden
  rw [Nat.div_lt_iff_lt_mul hpos, mul_comm, udivShift_eq hden]
  by_cases hhigh : 2 ^ 32 ≤ den.toNat
  · have hlt64 : Nat.log2 den.toNat < 64 := (Nat.log2_lt hpos.ne').2 den.isLt
    rw [if_pos hhigh]
    refine iff_of_true ?_ (.inl hhigh)
    calc num.toNat < 2 ^ 64 := num.isLt
      _ = 2 ^ Nat.log2 den.toNat * 2 ^ (63 - Nat.log2 den.toNat + 1) := by
          rw [← pow_add]
          congr 1
          omega
      _ ≤ den.toNat * 2 ^ (63 - Nat.log2 den.toNat + 1) :=
          Nat.mul_le_mul_right _ (Nat.log2_self_le hpos.ne')
  · have hlt32 : Nat.log2 den.toNat < 32 := (Nat.log2_lt hpos.ne').2 (by omega)
    rw [if_neg hhigh, or_iff_right hhigh,
      show 31 - Nat.log2 den.toNat + 1 = 32 - Nat.log2 den.toNat by omega]

theorem udivdi3_eq_div_iff {num den : BitVec 64} (hden : den ≠ 0#64) :
    (udivdi3 num den).toNat = num.toNat / den.toNat ↔
      num.toNat / den.toNat < 2 ^ (udivShift den + 1) := by
  have hpos : 0 < 2 ^ (udivShift den + 1) := by positivity
  rw [udivdi3_toNat num hden]
  omega

/-! ## The remainder -/

theorem umoddi3_toNat (num : BitVec 64) {den : BitVec 64} (hden : den ≠ 0#64) :
    (umoddi3 num den).toNat + (udivdi3 num den).toNat * den.toNat = num.toNat := by
  have hq : (udivdi3 num den).toNat ≤ num.toNat / den.toNat := by
    rw [udivdi3_toNat num hden]
    exact Nat.min_le_left _ _
  have hle : (udivdi3 num den).toNat * den.toNat ≤ num.toNat :=
    le_trans (Nat.mul_le_mul_right _ hq) (Nat.div_mul_le_self _ _)
  have hmul : (udivdi3 num den * den).toNat = (udivdi3 num den).toNat * den.toNat := by
    rw [BitVec.toNat_mul, Nat.mod_eq_of_lt (lt_of_le_of_lt hle num.isLt)]
  rw [umoddi3, if_neg hden, BitVec.toNat_sub_of_le (by rw [BitVec.le_def, hmul]; exact hle), hmul,
    Nat.sub_add_cancel hle]

theorem umoddi3_eq_mod_iff {num den : BitVec 64} (hden : den ≠ 0#64) :
    (umoddi3 num den).toNat = num.toNat % den.toNat ↔
      (udivdi3 num den).toNat = num.toNat / den.toNat := by
  have hpos : 0 < den.toNat := BitVec.toNat_pos_of_ne_zero hden
  have hsum := umoddi3_toNat num hden
  have hdiv : num.toNat % den.toNat + num.toNat / den.toNat * den.toNat = num.toNat := by
    rw [mul_comm]
    exact Nat.mod_add_div _ _
  constructor
  · intro h
    apply Nat.eq_of_mul_eq_mul_right hpos
    omega
  · intro h
    rw [h] at hsum
    omega

/-- Quotient and remainder are right exactly if the upper half of the divisor is set or the
dividend is below the divisor shifted one place beyond the top of the lower half. -/
theorem udivdi3_umoddi3_iff (num den : BitVec 64) (hden : den ≠ 0#64) :
    (udivdi3 num den).toNat = num.toNat / den.toNat ∧
        (umoddi3 num den).toNat = num.toNat % den.toNat ↔
      2 ^ 32 ≤ den.toNat ∨ num.toNat < den.toNat * 2 ^ (32 - Nat.log2 den.toNat) := by
  rw [umoddi3_eq_mod_iff hden, and_self, udivdi3_eq_div_iff hden, div_lt_iff hden]

/-- The last moment of the 256th second at 20 MHz. -/
theorem udivdi3_umoddi3_iff_last_second :
    (udivdi3 5119999999#64 20000000#64).toNat = (5119999999#64).toNat / (20000000#64).toNat ∧
      (umoddi3 5119999999#64 20000000#64).toNat
        = (5119999999#64).toNat % (20000000#64).toNat :=
  (udivdi3_umoddi3_iff 5119999999#64 20000000#64 (by decide)).2 (.inr (by decide +kernel))

/-- A cycle later the quotient is still 255. -/
theorem not_udivdi3_umoddi3 :
    ¬ ∀ num den : BitVec 64, den ≠ 0#64 →
      (udivdi3 num den).toNat = num.toNat / den.toNat ∧
        (umoddi3 num den).toNat = num.toNat % den.toNat := by
  intro h
  exact absurd (h 5120000000#64 20000000#64 (by decide)).1 (by decide +kernel)

/-! ## Elapsed time -/

/-- By a divisor of 32 bits the quotient has as many bits as the divisor has leading zeros, and
one more. -/
theorem udivdi3_of_low {num den : BitVec 64} (hden : den ≠ 0#64) (hlow : den.toNat < 2 ^ 32) :
    (udivdi3 num den).toNat
      = min (num.toNat / den.toNat) (2 ^ (32 - Nat.log2 den.toNat) - 1) := by
  have hpos : 0 < den.toNat := BitVec.toNat_pos_of_ne_zero hden
  have hlt32 : Nat.log2 den.toNat < 32 := (Nat.log2_lt hpos.ne').2 hlow
  rw [udivdi3_toNat num hden, udivShift_eq hden, if_neg (by omega),
    show 31 - Nat.log2 den.toNat + 1 = 32 - Nat.log2 den.toNat by omega]

/-- The seconds stop: at 20 MHz they never get beyond 255. -/
theorem elapsedSeconds_toNat {freq : Word} (h : freq ≠ 0#32) (cycles : BitVec 64) :
    (elapsedSeconds freq cycles).toNat
      = min (cycles.toNat / freq.toNat) (2 ^ (32 - Nat.log2 freq.toNat) - 1) := by
  have hword : (freq.setWidth 64).toNat = freq.toNat := BitVec.toNat_setWidth_of_le (by decide)
  have hne : freq.setWidth 64 ≠ 0#64 := by
    intro h0
    rw [h0] at hword
    exact h (BitVec.eq_of_toNat_eq hword.symm)
  rw [elapsedSeconds, if_neg h, udivdi3_of_low hne (hword ▸ freq.isLt), hword]

/-- The cycles of a microsecond or a millisecond (`per` is a million or a thousand) are found
exactly. -/
theorem cyclesPer_toNat {per : BitVec 64} (hper : per = 1000000#64 ∨ per = 1000#64)
    (freq : Word) : (udivdi3 (freq.setWidth 64) per).toNat = freq.toNat / per.toNat := by
  have hword : (freq.setWidth 64).toNat = freq.toNat := BitVec.toNat_setWidth_of_le (by decide)
  have hf := freq.isLt
  rcases hper with rfl | rfl
  · rw [udivdi3_of_low (by decide) (by decide), hword,
      show Nat.log2 (1000000#64).toNat = 19 by decide +kernel,
      show (1000000#64).toNat = 1000000 from rfl]
    omega
  · rw [udivdi3_of_low (by decide) (by decide), hword,
      show Nat.log2 (1000#64).toNat = 9 by decide +kernel, show (1000#64).toNat = 1000 from rfl]
    omega

/-- The elapsed microseconds and milliseconds stop as well. -/
theorem udivdi3_cyclesPer_toNat {per : BitVec 64} (hper : per = 1000000#64 ∨ per = 1000#64)
    {freq : Word} (h : per.toNat ≤ freq.toNat) (cycles : BitVec 64) :
    (udivdi3 cycles (udivdi3 (freq.setWidth 64) per)).toNat
      = min (cycles.toNat / (freq.toNat / per.toNat))
          (2 ^ (32 - Nat.log2 (freq.toNat / per.toNat)) - 1) := by
  have hpos : 0 < per.toNat := by rcases hper with rfl | rfl <;> decide
  have hden := cyclesPer_toNat hper freq
  have hdiv : 0 < freq.toNat / per.toNat := Nat.div_pos h hpos
  have hle : freq.toNat / per.toNat ≤ freq.toNat := Nat.div_le_self _ _
  have hne : udivdi3 (freq.setWidth 64) per ≠ 0#64 := by
    intro h0
    rw [h0] at hden
    exact hdiv.ne hden
  have hlow : (udivdi3 (freq.setWidth 64) per).toNat < 2 ^ 32 := by
    rw [hden]
    exact lt_of_le_of_lt hle freq.isLt
  rw [udivdi3_of_low hne hlow, hden]

theorem elapsedMicroseconds_toNat {freq : Word} (h : 1000000 ≤ freq.toNat) (cycles : BitVec 64) :
    (elapsedMicroseconds freq cycles).toNat
      = min (cycles.toNat / (freq.toNat / 1000000))
          (2 ^ (32 - Nat.log2 (freq.toNat / 1000000)) - 1) := by
  have hne : freq ≠ 0#32 := by
    rintro rfl
    exact absurd h (by decide)
  rw [elapsedMicroseconds, if_neg hne]
  exact udivdi3_cyclesPer_toNat (.inl rfl) h cycles

theorem elapsedMilliseconds_toNat {freq : Word} (h : 1000 ≤ freq.toNat) (cycles : BitVec 64) :
    (elapsedMilliseconds freq cycles).toNat
      = min (cycles.toNat / (freq.toNat / 1000))
          (2 ^ (32 - Nat.log2 (freq.toNat / 1000)) - 1) := by
  have hne : freq ≠ 0#32 := by
    rintro rfl
    exact absurd h (by decide)
  rw [elapsedMilliseconds, if_neg hne]
  exact udivdi3_cyclesPer_toNat (.inr rfl) h cycles

end KianRiscV.IoUtils
