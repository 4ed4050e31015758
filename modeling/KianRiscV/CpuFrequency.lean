/-
# The clock frequency register

`sysinfo_if` of LinuxSoC_v2 and the bootloader's `read_cpu_frequency` and `set_cpu_frequency`
(`kianv_io_utils.c`), which access it over the bus.  The register holds megahertz in Q8.8; the
programs convert it to and from hertz, both times rounding.  A write of less than one megahertz
is raised to one megahertz by the device, which `set_cpu_frequency` does not look at when it
reports the frequency set.

The 64-bit quotients are a parameter: C's division, or `__udivdi3` of the same file, which is what
the compiler calls for it.
-/
import KianRiscV.SocBus
import KianRiscV.SoftDivision

namespace KianRiscV

/-! ## The device -/

/-- The registers of `sysinfo_if`. -/
@[ext] structure SysinfoIf where
  cpuFreqReg : BitVec 16
  cpuFreqReady : Bool
  memSizeReady : Bool
  deriving DecidableEq

namespace SysinfoIf

/-- `CPU_FREQ_ADDR`. -/
def cpuFreqAddr : Word := 0x10000014#32

/-- `MEM_SIZE_ADDR`. -/
def memSizeAddr : Word := 0x10000018#32

/-- `SDRAM_SIZE`. -/
def sdramSize : Word := 0x02000000#32

/-- `RESET_Q8_8`, for a clock of `systemClk` hertz. -/
def resetQ88 (systemClk : ℕ) : BitVec 16 :=
  let q := systemClk / 1000000 * 256 + (systemClk % 1000000 * 256 + 500000) / 1000000
  if q > 0xFFFF then 0xFFFF#16 else BitVec.ofNat 16 q

/-- The registers after reset. -/
def resetState (systemClk : ℕ) : SysinfoIf := ⟨resetQ88 systemClk, false, false⟩

variable (s : SysinfoIf) (x : BusAccess)

/-- `cpu_freq_valid`. -/
def cpuFreqValid : Bool := !s.cpuFreqReady && (x.valid && x.addr == cpuFreqAddr)

/-- `mem_size_valid`. -/
def memSizeValid : Bool := !s.memSizeReady && (x.valid && x.addr == memSizeAddr && !x.wr)

/-- What a write leaves in the register. -/
def clamp (wdata : BitVec 16) : BitVec 16 := if wdata < 0x0100#16 then 0x0100#16 else wdata

/-- One clock edge. -/
def next : SysinfoIf where
  cpuFreqReg :=
    if s.cpuFreqValid x && x.wr then clamp (x.wdata.extractLsb' 0 16) else s.cpuFreqReg
  cpuFreqReady := s.cpuFreqValid x
  memSizeReady := s.memSizeValid x

/-- `bus_ready_o`. -/
def busReady : Bool := s.cpuFreqReady || s.memSizeReady

/-- `bus_rdata_o`. -/
def busRdata : Word :=
  if s.cpuFreqReady then 0#16 ++ s.cpuFreqReg else if s.memSizeReady then sdramSize else 0#32

/-- An access that is held on the bus until it is answered, at most `fuel` cycles: the data
read and the registers after the cycle of the answer. -/
def access : ℕ → SysinfoIf → Option (Word × SysinfoIf)
  | 0, _ => none
  | fuel + 1, s => if s.busReady then some (s.busRdata, s.next x) else access fuel (s.next x)

end SysinfoIf

/-! ## The programs -/

namespace IoUtils

/-- A program of the bootloader that accesses the device. -/
abbrev Program (α : Type) := StateT SysinfoIf Option α

/-- A load from `CPU_FREQ_REG`. -/
def loadCpuFreq (fuel : ℕ) : Program Word := fun s =>
  s.access ⟨true, SysinfoIf.cpuFreqAddr, 0x0#4, 0#32, false⟩ fuel

/-- A store to `CPU_FREQ_REG`. -/
def storeCpuFreq (fuel : ℕ) (w : Word) : Program Unit := fun s =>
  (s.access ⟨true, SysinfoIf.cpuFreqAddr, 0xF#4, w, false⟩ fuel).map fun r => ((), r.2)

/-- `round(q * 1e6 / 256)`. -/
def hzOf (q : Word) : Word := ((q.setWidth 64 * 1000000#64 + 128#64) >>> 8).setWidth 32

/-- `round(freq_hz * 256 / 1e6)`, clamped to 16 bits. -/
def q88Of (udiv : BitVec 64 → BitVec 64 → BitVec 64) (freqHz : Word) : Word :=
  let q : Word := (udiv (freqHz.setWidth 64 * 256#64 + 500000#64) 1000000#64).setWidth 32
  if q > 0xFFFF#32 then 0xFFFF#32 else q

/-- `read_cpu_frequency`. -/
def readCpuFrequency (fuel : ℕ) : Program Word := do
  let w ← loadCpuFreq fuel
  let q := w &&& 0xFFFF#32
  let q := if q = 0#32 then 20#32 <<< 8 else q
  return hzOf q

/-- `set_cpu_frequency`. -/
def setCpuFrequency (udiv : BitVec 64 → BitVec 64 → BitVec 64) (fuel : ℕ) (freqHz : Word) :
    Program Word := do
  let freqHz := if freqHz = 0#32 then 20000000#32 else freqHz
  let q := q88Of udiv freqHz
  let old ← loadCpuFreq fuel
  storeCpuFreq fuel (old &&& 0xFFFF0000#32 ||| q)
  return hzOf q

end IoUtils

/-! ## Accesses to the device -/

namespace SysinfoIf

variable {s : SysinfoIf} {x : BusAccess}

/-- No answer is pending. -/
structure Idle (s : SysinfoIf) : Prop where
  cpuFreqReady : s.cpuFreqReady = false
  memSizeReady : s.memSizeReady = false

/-- An access to the register is answered in its second cycle. -/
theorem Idle.access (h : s.Idle) (hv : x.valid = true) (ha : x.addr = cpuFreqAddr) {fuel : ℕ}
    (hfuel : 2 ≤ fuel) :
    s.access x fuel = some (0#16 ++ (s.next x).cpuFreqReg,
      { s with cpuFreqReg := (s.next x).cpuFreqReg }) := by
  obtain ⟨n, rfl⟩ : ∃ n, fuel = n + 2 := ⟨fuel - 2, by omega⟩
  have hbusy : s.busReady = false := by rw [busReady, h.cpuFreqReady, h.memSizeReady]; rfl
  have hvalid : s.cpuFreqValid x = true := by simp [cpuFreqValid, h.cpuFreqReady, hv, ha]
  have hmem : ∀ t : SysinfoIf, t.memSizeValid x = false := by
    intro t
    simp [memSizeValid, ha, cpuFreqAddr, memSizeAddr]
  -- the edge that answers
  have hready : (s.next x).cpuFreqReady = true := hvalid
  have hfree : (s.next x).cpuFreqValid x = false := by simp [cpuFreqValid, hready]
  have hkeep : ((s.next x).next x).cpuFreqReg = (s.next x).cpuFreqReg := by
    show (if (s.next x).cpuFreqValid x && x.wr then _ else (s.next x).cpuFreqReg) = _
    rw [hfree]
    rfl
  have hlast : (s.next x).next x = { s with cpuFreqReg := (s.next x).cpuFreqReg } :=
    SysinfoIf.ext hkeep (hfree.trans h.cpuFreqReady.symm) ((hmem _).trans h.memSizeReady.symm)
  rw [SysinfoIf.access, hbusy, if_neg Bool.false_ne_true, SysinfoIf.access, busReady, hready,
    Bool.true_or, if_pos rfl, hlast, busRdata, hready, if_pos rfl]

end SysinfoIf

namespace IoUtils

variable {s : SysinfoIf} {fuel : ℕ}

theorem loadCpuFreq_eq (h : s.Idle) (hfuel : 2 ≤ fuel) :
    loadCpuFreq fuel s = some (0#16 ++ s.cpuFreqReg, s) := by
  have hkeep : (s.next ⟨true, SysinfoIf.cpuFreqAddr, 0x0#4, 0#32, false⟩).cpuFreqReg
      = s.cpuFreqReg := by
    simp [SysinfoIf.next, BusAccess.wr]
  rw [loadCpuFreq, h.access rfl rfl hfuel, hkeep]

theorem storeCpuFreq_eq (h : s.Idle) (hfuel : 2 ≤ fuel) (w : Word) :
    storeCpuFreq fuel w s
      = some ((), { s with cpuFreqReg := SysinfoIf.clamp (w.extractLsb' 0 16) }) := by
  have hnew : (s.next ⟨true, SysinfoIf.cpuFreqAddr, 0xF#4, w, false⟩).cpuFreqReg
      = SysinfoIf.clamp (w.extractLsb' 0 16) := by
    simp [SysinfoIf.next, BusAccess.wr, SysinfoIf.cpuFreqValid, h.cpuFreqReady]
  rw [storeCpuFreq, h.access rfl rfl hfuel, hnew]
  rfl

/-! ## What the programs return -/

/-- The register as `read_cpu_frequency` takes it, with 20 MHz for zero. -/
def readQ88 (q : BitVec 16) : BitVec 16 := if q = 0#16 then 5120#16 else q

/-- The setting for a frequency, with 20 MHz for zero. -/
def settingOf (udiv : BitVec 64 → BitVec 64 → BitVec 64) (freqHz : Word) : Word :=
  q88Of udiv (if freqHz = 0#32 then 20000000#32 else freqHz)

@[simp] theorem toNat_low (q : BitVec 16) : (0#16 ++ q : Word).toNat = q.toNat := by
  rw [BitVec.toNat_append]
  simp

theorem extract_low (q : BitVec 16) : (0#16 ++ q : Word).extractLsb' 0 16 = q := by
  apply BitVec.eq_of_toNat_eq
  rw [BitVec.extractLsb'_toNat, toNat_low]
  exact Nat.mod_eq_of_lt q.isLt

/-- The register in the low half of the word read. -/
theorem low_and (q : BitVec 16) : (0#16 ++ q : Word) &&& 0xFFFF#32 = 0#16 ++ q := by
  apply BitVec.eq_of_toNat_eq
  rw [BitVec.toNat_and, toNat_low]
  exact (Nat.and_two_pow_sub_one_eq_mod q.toNat 16).trans (Nat.mod_eq_of_lt q.isLt)

theorem high_and (q : BitVec 16) : (0#16 ++ q : Word) &&& 0xFFFF0000#32 = 0#32 := by
  rw [← low_and, BitVec.and_assoc]
  exact BitVec.and_zero

theorem low_eq_zero_iff (q : BitVec 16) : (0#16 ++ q : Word) = 0#32 ↔ q = 0#16 := by
  rw [← BitVec.toNat_inj, ← BitVec.toNat_inj, toNat_low]
  rfl

theorem readCpuFrequency_eq (h : s.Idle) (hfuel : 2 ≤ fuel) :
    readCpuFrequency fuel s = some (hzOf (0#16 ++ readQ88 s.cpuFreqReg), s) := by
  have hrun : readCpuFrequency fuel s = (loadCpuFreq fuel s).bind fun r =>
      some (hzOf (if r.1 &&& 0xFFFF#32 = 0#32 then 20#32 <<< 8 else r.1 &&& 0xFFFF#32), r.2) := rfl
  rw [hrun, loadCpuFreq_eq h hfuel, Option.bind_some, low_and, readQ88]
  by_cases hz : s.cpuFreqReg = 0#16
  · rw [if_pos ((low_eq_zero_iff _).2 hz), if_pos hz]
    rfl
  · rw [if_neg fun h0 => hz ((low_eq_zero_iff _).1 h0), if_neg hz]

theorem setCpuFrequency_eq (udiv : BitVec 64 → BitVec 64 → BitVec 64) (h : s.Idle)
    (hfuel : 2 ≤ fuel) (freqHz : Word) :
    setCpuFrequency udiv fuel freqHz s
      = some (hzOf (settingOf udiv freqHz),
          ⟨SysinfoIf.clamp ((settingOf udiv freqHz).extractLsb' 0 16), false, false⟩) := by
  have hrun : setCpuFrequency udiv fuel freqHz s = (loadCpuFreq fuel s).bind fun r =>
      (storeCpuFreq fuel (r.1 &&& 0xFFFF0000#32 ||| settingOf udiv freqHz) r.2).bind fun r =>
        some (hzOf (settingOf udiv freqHz), r.2) := rfl
  rw [hrun, loadCpuFreq_eq h hfuel, Option.bind_some, high_and, BitVec.zero_or,
    storeCpuFreq_eq h hfuel, Option.bind_some, h.cpuFreqReady, h.memSizeReady]

/-! ## Rounding -/

/-- C's division of unsigned 64-bit numbers. -/
def cDiv (num den : BitVec 64) : BitVec 64 := num / den

/-- The frequency of a setting. -/
theorem hzOf_toNat (q : BitVec 16) :
    (hzOf (0#16 ++ q)).toNat = (q.toNat * 1000000 + 128) / 256 := by
  have hq := q.isLt
  have hmul : ((0#16 ++ q : Word).setWidth 64 * 1000000#64).toNat = q.toNat * 1000000 := by
    rw [BitVec.toNat_mul, BitVec.toNat_setWidth, toNat_low,
      show (1000000#64).toNat = 1000000 from rfl]
    omega
  have hadd : ((0#16 ++ q : Word).setWidth 64 * 1000000#64 + 128#64).toNat
      = q.toNat * 1000000 + 128 := by
    rw [BitVec.toNat_add, hmul, show (128#64).toNat = 128 from rfl]
    omega
  rw [hzOf, BitVec.toNat_setWidth, BitVec.toNat_ushiftRight, hadd, Nat.shiftRight_eq_div_pow]
  omega

theorem hzOf_inj {q q' : BitVec 16} : hzOf (0#16 ++ q) = hzOf (0#16 ++ q') ↔ q = q' := by
  rw [← BitVec.toNat_inj, hzOf_toNat, hzOf_toNat, ← BitVec.toNat_inj]
  omega

/-- The argument of the 64-bit division. -/
theorem scaled_toNat (freqHz : Word) :
    (freqHz.setWidth 64 * 256#64 + 500000#64).toNat = freqHz.toNat * 256 + 500000 := by
  have hf := freqHz.isLt
  have hmul : (freqHz.setWidth 64 * 256#64).toNat = freqHz.toNat * 256 := by
    rw [BitVec.toNat_mul, BitVec.toNat_setWidth, show (256#64).toNat = 256 from rfl]
    omega
  rw [BitVec.toNat_add, hmul, show (500000#64).toNat = 500000 from rfl]
  omega

/-- A division that is exact up to the quotient `m`, and returns `m` beyond. -/
def CutsOffAt (udiv : BitVec 64 → BitVec 64 → BitVec 64) (m : ℕ) : Prop :=
  ∀ num, (udiv num 1000000#64).toNat = min (num.toNat / 1000000) m

theorem cDiv_cutsOffAt : CutsOffAt cDiv (2 ^ 64) := by
  intro num
  have hlt := num.isLt
  rw [cDiv, BitVec.toNat_udiv, show (1000000#64).toNat = 1000000 from rfl, Nat.min_eq_left]
  omega

/-- `__udivdi3` has thirteen bits for the quotient by a million. -/
theorem udivdi3_cutsOffAt : CutsOffAt udivdi3 8191 := by
  intro num
  rw [udivdi3_of_low (by decide) (by decide),
    show Nat.log2 (1000000#64).toNat = 19 by decide +kernel]
  rfl

variable {udiv : BitVec 64 → BitVec 64 → BitVec 64} {m : ℕ}

/-- The setting for a frequency is the rounded one, cut off at 16 bits or by the division. -/
theorem q88Of_eq (hdiv : CutsOffAt udiv m) (freqHz : Word) :
    q88Of udiv freqHz = 0#16 ++ BitVec.ofNat 16
      (min (min ((freqHz.toNat * 256 + 500000) / 1000000) m) 0xFFFF) := by
  apply BitVec.eq_of_toNat_eq
  have hf := freqHz.isLt
  have hq := hdiv (freqHz.setWidth 64 * 256#64 + 500000#64)
  rw [scaled_toNat] at hq
  rw [toNat_low, BitVec.toNat_ofNat, q88Of]
  generalize udiv (freqHz.setWidth 64 * 256#64 + 500000#64) 1000000#64 = quot at hq
  have hquot : (quot.setWidth 32).toNat
      = min ((freqHz.toNat * 256 + 500000) / 1000000) m := by
    rw [BitVec.toNat_setWidth, hq]
    omega
  split
  · rename_i hgt
    have hgt' : 65535 < (quot.setWidth 32).toNat := hgt
    show 65535 = _
    omega
  · rename_i hle
    have hle' : ¬ 65535 < (quot.setWidth 32).toNat := hle
    omega

/-! ## Round trips -/

/-- Setting a frequency returns what is read afterwards. -/
def ReadsBack (udiv : BitVec 64 → BitVec 64 → BitVec 64) (fuel : ℕ) (freqHz : Word)
    (s : SysinfoIf) : Prop :=
  ∃ hz s' s'', setCpuFrequency udiv fuel freqHz s = some (hz, s') ∧
    readCpuFrequency fuel s' = some (hz, s'')

/-- Setting the frequency read leaves the register as it is and returns its argument. -/
def Restores (udiv : BitVec 64 → BitVec 64 → BitVec 64) (fuel : ℕ) (s : SysinfoIf) : Prop :=
  ∃ hz s' s'', readCpuFrequency fuel s = some (hz, s') ∧
    setCpuFrequency udiv fuel hz s' = some (hz, s'') ∧ s''.cpuFreqReg = s.cpuFreqReg

theorem clamp_eq_iff (q : BitVec 16) : SysinfoIf.clamp q = q ↔ 256 ≤ q.toNat := by
  unfold SysinfoIf.clamp
  split
  · rename_i hlt
    have hlt' : q.toNat < 256 := hlt
    refine iff_of_false (fun h => ?_) (by omega)
    rw [← h] at hlt'
    exact absurd hlt' (by decide)
  · rename_i hge
    have hge' : ¬ q.toNat < 256 := hge
    exact iff_of_true rfl (by omega)

theorem le_clamp (q : BitVec 16) : 256 ≤ (SysinfoIf.clamp q).toNat := by
  unfold SysinfoIf.clamp
  split
  · decide
  · rename_i hge
    exact Nat.le_of_not_lt hge

theorem readQ88_of_le {q : BitVec 16} (h : 256 ≤ q.toNat) : readQ88 q = q := by
  apply if_neg
  intro h0
  rw [h0] at h
  exact absurd h (by decide)

theorem readsBack_iff (h : s.Idle) (hfuel : 2 ≤ fuel) (hdiv : CutsOffAt udiv m) (hm : 8191 ≤ m)
    (freqHz : Word) :
    ReadsBack udiv fuel freqHz s ↔ freqHz = 0#32 ∨ 998047 ≤ freqHz.toNat := by
  obtain ⟨q, hq, hset⟩ : ∃ q : BitVec 16, (256 ≤ q.toNat ↔ freqHz = 0#32 ∨ 998047 ≤ freqHz.toNat) ∧
      settingOf udiv freqHz = 0#16 ++ q := by
    refine ⟨_, ?_, q88Of_eq hdiv _⟩
    rw [BitVec.toNat_ofNat, Nat.mod_eq_of_lt (by omega)]
    split
    · rename_i h0
      rw [show (20000000#32).toNat = 20000000 from rfl]
      exact iff_of_true (by omega) (.inl h0)
    · rename_i h0
      rw [or_iff_right h0]
      omega
  have hidle : SysinfoIf.Idle ⟨SysinfoIf.clamp q, false, false⟩ := ⟨rfl, rfl⟩
  have hread := readCpuFrequency_eq hidle hfuel
  rw [readQ88_of_le (le_clamp q)] at hread
  have hwrite := setCpuFrequency_eq udiv h hfuel freqHz
  rw [hset, extract_low] at hwrite
  rw [← hq, ← clamp_eq_iff]
  constructor
  · rintro ⟨hz, s', s'', h1, h2⟩
    rw [hwrite] at h1
    obtain ⟨rfl, rfl⟩ : hzOf (0#16 ++ q) = hz ∧ _ = s' := by simpa using h1
    rw [hread] at h2
    exact hzOf_inj.1 (congrArg Prod.fst (Option.some.inj h2))
  · intro hc
    exact ⟨_, _, _, hwrite, by rw [hread, hc]⟩

theorem restores_iff (h : s.Idle) (hfuel : 2 ≤ fuel) (hdiv : CutsOffAt udiv m) (hm : 8191 ≤ m) :
    Restores udiv fuel s ↔ 256 ≤ s.cpuFreqReg.toNat ∧ s.cpuFreqReg.toNat ≤ m := by
  have hread := readCpuFrequency_eq h hfuel
  have hone : 1 ≤ (readQ88 s.cpuFreqReg).toNat := by
    unfold readQ88
    split
    · decide
    · rename_i h0
      exact BitVec.toNat_pos_of_ne_zero h0
  -- the frequency read is not zero, and its setting is the register again
  have hset : settingOf udiv (hzOf (0#16 ++ readQ88 s.cpuFreqReg))
      = 0#16 ++ BitVec.ofNat 16 (min (readQ88 s.cpuFreqReg).toNat m) := by
    have hhz := hzOf_toNat (readQ88 s.cpuFreqReg)
    have hne : hzOf (0#16 ++ readQ88 s.cpuFreqReg) ≠ 0#32 := by
      intro h0
      rw [h0] at hhz
      have hzero : (0#32).toNat = 0 := rfl
      omega
    have hq := (readQ88 s.cpuFreqReg).isLt
    rw [settingOf, if_neg hne, q88Of_eq hdiv, hhz]
    congr 2
    omega
  have hwrite := setCpuFrequency_eq udiv h hfuel (hzOf (0#16 ++ readQ88 s.cpuFreqReg))
  rw [hset, extract_low] at hwrite
  have hiff : Restores udiv fuel s ↔
      BitVec.ofNat 16 (min (readQ88 s.cpuFreqReg).toNat m) = readQ88 s.cpuFreqReg ∧
        SysinfoIf.clamp (BitVec.ofNat 16 (min (readQ88 s.cpuFreqReg).toNat m))
          = s.cpuFreqReg := by
    constructor
    · rintro ⟨hz, s', s'', h1, h2, h3⟩
      rw [hread] at h1
      obtain ⟨rfl, rfl⟩ : _ = hz ∧ s = s' := by simpa using h1
      rw [hwrite] at h2
      obtain ⟨h4, rfl⟩ : _ = _ ∧ _ = s'' := by simpa using h2
      exact ⟨hzOf_inj.1 h4, h3⟩
    · rintro ⟨h1, h2⟩
      refine ⟨_, _, ⟨SysinfoIf.clamp _, false, false⟩, hread, hwrite.trans ?_, h2⟩
      rw [h1]
  rw [hiff]
  constructor
  · rintro ⟨h1, h2⟩
    -- the register is what has just been written, and so not below one megahertz
    have hle : 256 ≤ s.cpuFreqReg.toNat := h2 ▸ le_clamp _
    have hq := s.cpuFreqReg.isLt
    rw [readQ88_of_le hle, ← BitVec.toNat_inj, BitVec.toNat_ofNat,
      Nat.mod_eq_of_lt (by omega)] at h1
    exact ⟨hle, by omega⟩
  · rintro ⟨h1, h2⟩
    rw [readQ88_of_le h1, Nat.min_eq_left h2, BitVec.ofNat_toNat, BitVec.setWidth_eq]
    exact ⟨rfl, (clamp_eq_iff _).2 h1⟩

/-- When the two programs agree: with C's division, and with `__udivdi3` for it. -/
theorem frequency_round_trips_iff (s : SysinfoIf) (h : s.Idle) (fuel : ℕ) (hfuel : 2 ≤ fuel)
    (freqHz : Word) :
    (ReadsBack cDiv fuel freqHz s ∧ Restores cDiv fuel s ↔
        (freqHz = 0#32 ∨ 998047 ≤ freqHz.toNat) ∧ 0x100 ≤ s.cpuFreqReg.toNat) ∧
      (ReadsBack udivdi3 fuel freqHz s ∧ Restores udivdi3 fuel s ↔
        (freqHz = 0#32 ∨ 998047 ≤ freqHz.toNat) ∧
          0x100 ≤ s.cpuFreqReg.toNat ∧ s.cpuFreqReg.toNat < 0x2000) := by
  have hreg := s.cpuFreqReg.isLt
  constructor
  · rw [readsBack_iff h hfuel cDiv_cutsOffAt (by decide),
      restores_iff h hfuel cDiv_cutsOffAt (by decide)]
    exact and_congr_right fun _ => and_iff_left (by omega)
  · rw [readsBack_iff h hfuel udivdi3_cutsOffAt le_rfl,
      restores_iff h hfuel udivdi3_cutsOffAt le_rfl]
    exact and_congr_right fun _ => and_congr_right fun _ => Nat.lt_succ_iff.symm

/-- A register of 20 MHz, set to 25 MHz. -/
theorem frequency_round_trips_iff_25MHz :
    ReadsBack cDiv 2 25000000#32 ⟨0x1400#16, false, false⟩ ∧
      Restores cDiv 2 ⟨0x1400#16, false, false⟩ :=
  (frequency_round_trips_iff ⟨0x1400#16, false, false⟩ ⟨rfl, rfl⟩ 2 le_rfl 25000000#32).1.2
    ⟨.inr (by decide), by decide⟩

/-- A register of 20 MHz, set to one hertz: zero is returned, and one megahertz read. -/
theorem not_frequency_round_trips :
    ¬ ∀ (s : SysinfoIf), s.Idle → ∀ (fuel : ℕ), 2 ≤ fuel → ∀ (freqHz : Word),
      ReadsBack cDiv fuel freqHz s ∧ Restores cDiv fuel s := by
  intro h
  obtain ⟨hz, s', s'', h1, h2⟩ := (h ⟨0x1400#16, false, false⟩ ⟨rfl, rfl⟩ 2 le_rfl 1#32).1
  have hset : setCpuFrequency cDiv 2 1#32 ⟨0x1400#16, false, false⟩
      = some (0#32, ⟨0x0100#16, false, false⟩) := by decide +kernel
  have hread : readCpuFrequency 2 ⟨0x0100#16, false, false⟩
      = some (1000000#32, ⟨0x0100#16, false, false⟩) := by decide +kernel
  rw [hset] at h1
  obtain ⟨rfl, rfl⟩ : 0#32 = hz ∧ _ = s' := by simpa using h1
  rw [hread] at h2
  have hne : 1000000#32 = 0#32 := congrArg Prod.fst (Option.some.inj h2)
  exact absurd hne (by decide)

end IoUtils

end KianRiscV
