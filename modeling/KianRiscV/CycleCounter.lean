/-
# Reading the cycle counter, and delays

`read_cpu_cycles`, `delay_cycles` and the delays in units of time of the bootloader's
`kianv_io_utils.c`.  The counter has 64 bits and is read by two instructions, the high word
first; it goes on counting between them.  When the low word wraps in between, the high word read
is the old one and the low word the new one, so that the value is behind the counter by up to
`2 ^ 32`.

`CycleReads` is a counter that never goes backwards together with the instants at which it is
read; the theorems hold for all of them.
-/
import KianRiscV.SoftDivision
import Mathlib.Order.WellFounded
import Mathlib.Tactic.Common

namespace KianRiscV.IoUtils

/-! ## The model -/

/-- `read_cpu_cycles`, with the counter at `rdcycleh` and at `rdcycle`. -/
def readCpuCycles (atHigh atLow : BitVec 64) : BitVec 64 :=
  let hi : Word := atHigh.extractLsb' 32 32
  let lo : Word := atLow.extractLsb' 0 32
  hi.setWidth 64 <<< 32 ||| lo.setWidth 64

/-- A counter that never goes backwards, and when each call of `read_cpu_cycles` executes its
two instructions. -/
structure CycleReads where
  counter : ℕ → BitVec 64
  counter_le : ∀ i j, i ≤ j → counter i ≤ counter j
  highAt : ℕ → ℕ
  lowAt : ℕ → ℕ
  highAt_le : ∀ k, highAt k ≤ lowAt k
  lowAt_le : ∀ k, lowAt k ≤ highAt (k + 1)

namespace CycleReads

variable (x : CycleReads)

/-- What call `k` returns. -/
def value (k : ℕ) : BitVec 64 :=
  readCpuCycles (x.counter (x.highAt k)) (x.counter (x.lowAt k))

/-- The `while` loop of `delay_cycles` from call `k` on: the call after which it is left, if that
is among the next `fuel` ones. -/
def delayLoop (start cycles : BitVec 64) : ℕ → ℕ → Option ℕ
  | 0, _ => none
  | fuel + 1, k =>
    if x.value k - start < cycles then delayLoop start cycles fuel (k + 1) else some k

/-- `delay_cycles`, whose first call of `read_cpu_cycles` gives `start`. -/
def delayCycles (cycles : BitVec 64) (fuel : ℕ) : Option ℕ :=
  x.delayLoop (x.value 0) cycles fuel 1

end CycleReads

/-- The delay that the functions below ask `delay_cycles` for, if they do not return at once:
`count` units of time of `per` cycles each. -/
def delayFor (freq count : Word) (per : BitVec 64) : Option (BitVec 64) :=
  if freq ≠ 0#32 ∧ count ≠ 0#32 then some (count.setWidth 64 * per) else none

/-- `delay_microseconds`. -/
def delayMicroseconds (freq us : Word) : Option (BitVec 64) :=
  delayFor freq us (udivdi3 (freq.setWidth 64) 1000000#64)

/-- `delay_milliseconds`. -/
def delayMilliseconds (freq ms : Word) : Option (BitVec 64) :=
  delayFor freq ms (udivdi3 (freq.setWidth 64) 1000#64)

/-- `delay_seconds`. -/
def delaySeconds (freq sec : Word) : Option (BitVec 64) :=
  delayFor freq sec (freq.setWidth 64)

/-! ## One reading -/

theorem readCpuCycles_toNat (atHigh atLow : BitVec 64) :
    (readCpuCycles atHigh atLow).toNat
      = atHigh.toNat / 2 ^ 32 * 2 ^ 32 + atLow.toNat % 2 ^ 32 := by
  have hlo : atLow.toNat % 2 ^ 32 < 2 ^ 32 := Nat.mod_lt _ (by omega)
  have hhi : atHigh.toNat / 2 ^ 32 < 2 ^ 32 := by
    have hlt := atHigh.isLt
    omega
  have hshift : ((atHigh.extractLsb' 32 32).setWidth 64 <<< 32).toNat
      = 2 ^ 32 * (atHigh.toNat / 2 ^ 32) := by
    simp only [BitVec.toNat_shiftLeft, BitVec.toNat_setWidth, BitVec.extractLsb'_toNat,
      Nat.shiftRight_eq_div_pow, Nat.shiftLeft_eq]
    omega
  have hword : ((atLow.extractLsb' 0 32).setWidth 64).toNat = atLow.toNat % 2 ^ 32 := by
    simp only [BitVec.toNat_setWidth, BitVec.extractLsb'_toNat, Nat.shiftRight_zero]
    omega
  unfold readCpuCycles
  rw [BitVec.toNat_or, hshift, hword, ← Nat.two_pow_add_eq_or_of_lt hlo, mul_comm]

/-- The value read is never ahead of the counter. -/
theorem readCpuCycles_le {atHigh atLow : BitVec 64} (h : atHigh ≤ atLow) :
    readCpuCycles atHigh atLow ≤ atLow := by
  have hle := BitVec.le_def.1 h
  have hdiv : atHigh.toNat / 2 ^ 32 ≤ atLow.toNat / 2 ^ 32 := Nat.div_le_div_right hle
  rw [BitVec.le_def, readCpuCycles_toNat]
  omega

/-- It is not behind the counter at the first instruction exactly if the low word was not smaller
at the second. -/
theorem le_readCpuCycles_iff {atHigh atLow : BitVec 64} :
    atHigh ≤ readCpuCycles atHigh atLow ↔ atHigh.toNat % 2 ^ 32 ≤ atLow.toNat % 2 ^ 32 := by
  rw [BitVec.le_def, readCpuCycles_toNat]
  omega

/-! ## Delays -/

namespace CycleReads

variable {x : CycleReads}

/-- Every reading lies between the counter at its first and at its second instruction. -/
def Consistent (x : CycleReads) : Prop :=
  ∀ k, x.counter (x.highAt k) ≤ x.value k ∧ x.value k ≤ x.counter (x.lowAt k)

theorem consistent_iff : x.Consistent ↔
    ∀ k, (x.counter (x.highAt k)).toNat % 2 ^ 32 ≤ (x.counter (x.lowAt k)).toNat % 2 ^ 32 := by
  apply forall_congr'
  intro k
  have hle : x.value k ≤ x.counter (x.lowAt k) :=
    readCpuCycles_le (x.counter_le _ _ (x.highAt_le k))
  rw [and_iff_left hle]
  exact le_readCpuCycles_iff

/-- The loop is left after a call whose value is far enough from the start. -/
theorem delayLoop_spec {start cycles : BitVec 64} {fuel j k : ℕ}
    (h : x.delayLoop start cycles fuel j = some k) : j ≤ k ∧ cycles ≤ x.value k - start := by
  induction fuel generalizing j with
  | zero => exact absurd h (by simp [delayLoop])
  | succ fuel ih =>
    rw [delayLoop] at h
    split at h
    · obtain ⟨hjk, hk⟩ := ih h
      exact ⟨by omega, hk⟩
    · rename_i hge
      obtain rfl : j = k := by simpa using h
      exact ⟨le_rfl, BitVec.not_lt.1 hge⟩

theorem lowAt_le_highAt {j k : ℕ} (h : j < k) : x.lowAt j ≤ x.highAt k := by
  induction k, h using Nat.le_induction with
  | base => exact x.lowAt_le j
  | succ k _ ih => exact le_trans ih (le_trans (x.highAt_le k) (x.lowAt_le k))

/-- With consistent readings the counter advances by what was asked for. -/
theorem Consistent.delay (hx : x.Consistent) {cycles : BitVec 64} {fuel k : ℕ}
    (h : x.delayCycles cycles fuel = some k) :
    (x.counter (x.highAt 0)).toNat + cycles.toNat ≤ (x.counter (x.lowAt k)).toNat := by
  obtain ⟨hk, hge⟩ := delayLoop_spec h
  have hstart : x.value 0 ≤ x.value k := by
    have hcount := x.counter_le _ _ (lowAt_le_highAt (x := x) (show 0 < k by omega))
    exact BitVec.le_trans (BitVec.le_trans (hx 0).2 hcount) (hx k).1
  -- the subtraction of the loop does not wrap, since the last value is not before the first
  have hsub : (x.value k - x.value 0).toNat = (x.value k).toNat - (x.value 0).toNat :=
    BitVec.toNat_sub_of_le hstart
  have h0 := BitVec.le_def.1 (hx 0).1
  have h1 := BitVec.le_def.1 (hx k).2
  have h2 := BitVec.le_def.1 hge
  have h3 := BitVec.le_def.1 hstart
  omega

/-- Readings are consistent, and delays never cut short, exactly if in no reading the low word
is smaller at the second instruction than the low word at the first. -/
theorem consistent_delays_iff (x : CycleReads) :
    (x.Consistent ∧
        ∀ (cycles : BitVec 64) (fuel k call ret : ℕ), call ≤ x.highAt 0 →
          x.delayCycles cycles fuel = some k → x.lowAt k ≤ ret →
            (x.counter call).toNat + cycles.toNat ≤ (x.counter ret).toNat) ↔
      ∀ k, (x.counter (x.highAt k)).toNat % 2 ^ 32
        ≤ (x.counter (x.lowAt k)).toNat % 2 ^ 32 := by
  rw [← consistent_iff]
  apply and_iff_left_of_imp
  intro hx cycles fuel k call ret hcall hk hret
  have hadv := hx.delay hk
  have hfirst := BitVec.le_def.1 (x.counter_le _ _ hcall)
  have hlast := BitVec.le_def.1 (x.counter_le _ _ hret)
  omega

/-- A counter about to carry: its low word wraps between the two instructions of the first
call. -/
def carrying : CycleReads where
  counter i := 0xFFFFFFFF#64 + BitVec.ofNat 64 (min i 3)
  counter_le i j hij := by
    have hmin : min i 3 ≤ min j 3 ∧ min j 3 ≤ 3 := by omega
    simp only [BitVec.le_def, BitVec.toNat_add, BitVec.toNat_ofNat]
    omega
  highAt k := 2 * k
  lowAt k := 2 * k + 1
  highAt_le k := Nat.le_succ _
  lowAt_le k := Nat.le_succ _

/-- The first reading is zero, and a delay of `2 ^ 32` cycles is over after three. -/
theorem not_consistent_delays :
    ¬ (∀ x : CycleReads, x.Consistent) ∧
      ¬ ∀ (x : CycleReads) (cycles : BitVec 64) (fuel k call ret : ℕ), call ≤ x.highAt 0 →
          x.delayCycles cycles fuel = some k → x.lowAt k ≤ ret →
            (x.counter call).toNat + cycles.toNat ≤ (x.counter ret).toNat := by
  constructor
  · intro h
    exact absurd (h carrying 0).1 (by decide)
  · intro h
    exact absurd (h carrying (2 ^ 32) 1 1 0 3 (by decide) (by decide) (by decide)) (by decide)

end CycleReads

/-! ## Delays in units of time -/

/-- The number of cycles asked for does not overflow. -/
theorem delayFor_toNat {freq count : Word} {per n : BitVec 64} (hper : per.toNat ≤ freq.toNat)
    (h : delayFor freq count per = some n) : n.toNat = count.toNat * per.toNat := by
  have hn : count.setWidth 64 * per = n := by
    unfold delayFor at h
    split at h
    · exact Option.some.inj h
    · exact absurd h (by simp)
  have hword : (count.setWidth 64).toNat = count.toNat := BitVec.toNat_setWidth_of_le (by decide)
  have hlt : count.toNat * per.toNat < 2 ^ 32 * 2 ^ 32 :=
    Nat.mul_lt_mul'' count.isLt (lt_of_le_of_lt hper freq.isLt)
  rw [← hn, BitVec.toNat_mul, hword]
  exact Nat.mod_eq_of_lt hlt

/-- With consistent readings each unit of time lasts at least its whole cycles. -/
theorem CycleReads.Consistent.delayFor {x : CycleReads} (hx : x.Consistent) {freq count : Word}
    {per n : BitVec 64} (hper : per.toNat ≤ freq.toNat) (h : delayFor freq count per = some n)
    {fuel k : ℕ} (hk : x.delayCycles n fuel = some k) :
    (x.counter (x.highAt 0)).toNat + count.toNat * per.toNat
      ≤ (x.counter (x.lowAt k)).toNat := by
  rw [← delayFor_toNat hper h]
  exact hx.delay hk

theorem CycleReads.Consistent.delayMicroseconds {x : CycleReads} (hx : x.Consistent)
    {freq us : Word} {n : BitVec 64} (h : delayMicroseconds freq us = some n) {fuel k : ℕ}
    (hk : x.delayCycles n fuel = some k) :
    (x.counter (x.highAt 0)).toNat + us.toNat * (freq.toNat / 1000000)
      ≤ (x.counter (x.lowAt k)).toNat := by
  have hper : (udivdi3 (freq.setWidth 64) 1000000#64).toNat = freq.toNat / 1000000 :=
    cyclesPer_toNat (.inl rfl) freq
  have hwait := hx.delayFor (hper ▸ Nat.div_le_self _ _) h hk
  rwa [hper] at hwait

theorem CycleReads.Consistent.delayMilliseconds {x : CycleReads} (hx : x.Consistent)
    {freq ms : Word} {n : BitVec 64} (h : delayMilliseconds freq ms = some n) {fuel k : ℕ}
    (hk : x.delayCycles n fuel = some k) :
    (x.counter (x.highAt 0)).toNat + ms.toNat * (freq.toNat / 1000)
      ≤ (x.counter (x.lowAt k)).toNat := by
  have hper : (udivdi3 (freq.setWidth 64) 1000#64).toNat = freq.toNat / 1000 :=
    cyclesPer_toNat (.inr rfl) freq
  have hwait := hx.delayFor (hper ▸ Nat.div_le_self _ _) h hk
  rwa [hper] at hwait

theorem CycleReads.Consistent.delaySeconds {x : CycleReads} (hx : x.Consistent)
    {freq sec : Word} {n : BitVec 64} (h : delaySeconds freq sec = some n) {fuel k : ℕ}
    (hk : x.delayCycles n fuel = some k) :
    (x.counter (x.highAt 0)).toNat + sec.toNat * freq.toNat
      ≤ (x.counter (x.lowAt k)).toNat := by
  have hword : (freq.setWidth 64).toNat = freq.toNat := BitVec.toNat_setWidth_of_le (by decide)
  have hle : (freq.setWidth 64).toNat ≤ freq.toNat := hword.le
  have hwait := hx.delayFor hle h hk
  rwa [hword] at hwait

end KianRiscV.IoUtils
