/-
# The machine time of LinuxSoC_v2

`mtime_source` and the divider registers of `div_if` that feed it.  The time is the
microsecond counter itself while the divisor in force is one, and otherwise a second counter that
is advanced once every divisor's worth of ticks.  A new divisor is taken over at a tick, between
two steps of the second counter.

The second counter stands still while the divisor is one, and it never gets ahead of the first:
when a divisor above one is taken over, the time jumps back to it (`mtime_backwards_iff`).
-/
import KianRiscV.SocBus

namespace KianRiscV

/-! ## The divider registers -/

/-- The registers of `div_if`. -/
structure DivIf where
  div0Ready : Bool
  div1Ready : Bool
  divReg0 : Word
  divReg1 : Word

namespace DivIf

/-- `DIV_ADDR0`. -/
def divAddr0 : Word := 0x1000000C#32

/-- `DIV_ADDR1`. -/
def divAddr1 : Word := 0x10000010#32

/-- After reset, with the reset values of the build: one each, or with `SIM_DEFAULTS` the ones
computed from the clock. -/
def resetState (div0 div1 : Word) : DivIf := ⟨false, false, div0, div1⟩

variable (s : DivIf) (x : BusAccess)

/-- `div0_valid`. -/
def div0Valid : Bool := !s.div0Ready && (x.valid && x.addr == divAddr0)

/-- `div1_valid`. -/
def div1Valid : Bool := !s.div1Ready && (x.valid && x.addr == divAddr1)

/-- One clock edge. -/
def next : DivIf where
  div0Ready := s.div0Valid x
  div1Ready := s.div1Valid x
  divReg0 := if s.div0Valid x && x.wr then x.wdata else s.divReg0
  divReg1 := if s.div1Valid x && x.wr then x.wdata else s.divReg1

/-- `bus_ready_o`. -/
def busReady : Bool := s.div0Ready || s.div1Ready

/-- `bus_rdata_o`. -/
def busRdata : Word :=
  if s.div0Ready then s.divReg0 else if s.div1Ready then s.divReg1 else 0#32

end DivIf

/-! ## The time -/

/-- The registers of `mtime_source`. -/
structure MtimeSource where
  prevMtime : BitVec 64
  presc : BitVec 16
  divLat : BitVec 16
  mtimeDiv : BitVec 64

namespace MtimeSource

/-- The registers after reset. -/
def resetState : MtimeSource := ⟨0#64, 0#16, 1#16, 0#64⟩

/-- `div_safe`. -/
def divSafe (mtimeDivI : BitVec 16) : BitVec 16 := if mtimeDivI = 0#16 then 1#16 else mtimeDivI

variable (s : MtimeSource) (timerCounter : BitVec 64)

/-- `tick_1us`. -/
def tick1us : Bool := timerCounter != s.prevMtime

/-- One clock edge. -/
def next (mtimeDivI : BitVec 16) : MtimeSource :=
  if s.tick1us timerCounter then
    if s.divLat = 1#16 then
      { s with prevMtime := timerCounter, presc := 0#16, divLat := divSafe mtimeDivI }
    else if s.presc = s.divLat - 1#16 then
      { prevMtime := timerCounter, presc := 0#16, divLat := divSafe mtimeDivI
        mtimeDiv := s.mtimeDiv + 1#64 }
    else { s with prevMtime := timerCounter, presc := s.presc + 1#16 }
  else s

/-- `mtime_o`. -/
def mtime : BitVec 64 := if s.divLat = 1#16 then timerCounter else s.mtimeDiv

end MtimeSource

/-- The divider registers and the time. -/
structure MachineTime where
  div : DivIf
  source : MtimeSource

namespace MachineTime

/-- One clock edge, with the access on the bus and the counter. -/
def next (s : MachineTime) (i : BusAccess × BitVec 64) : MachineTime where
  div := s.div.next i.1
  source := s.source.next i.2 (s.div.divReg1.extractLsb' 0 16)

variable (div0 div1 : Word) (bus : ℕ → BusAccess) (counter : ℕ → BitVec 64)

/-- The registers in cycle `n` after reset. -/
def after (n : ℕ) : MachineTime :=
  Sync.run next ⟨DivIf.resetState div0 div1, .resetState⟩ (fun n => (bus n, counter n)) n

/-- The divisor in the register in cycle `n`. -/
def divisor (n : ℕ) : BitVec 16 := (after div0 div1 bus counter n).div.divReg1.extractLsb' 0 16

/-- `mtime_o` in cycle `n`. -/
def mtimeAt (n : ℕ) : BitVec 64 := (after div0 div1 bus counter n).source.mtime (counter n)

end MachineTime

/-- The counter in the cycle before, which is zero at reset. -/
def counterBefore (counter : ℕ → BitVec 64) : ℕ → BitVec 64
  | 0 => 0#64
  | n + 1 => counter n

/-! ## One edge -/

namespace MtimeSource

variable {s : MtimeSource} {t d : BitVec 64} {div : BitVec 16}

theorem divSafe_eq_one_iff {mtimeDivI : BitVec 16} :
    divSafe mtimeDivI = 1#16 ↔ mtimeDivI ≤ 1#16 := by
  unfold divSafe
  split
  · rename_i h
    rw [h]
    decide
  · rename_i h
    have hne : mtimeDivI.toNat ≠ 0 := fun h0 => h (BitVec.eq_of_toNat_eq h0)
    rw [← BitVec.toNat_inj, BitVec.le_def]
    simp only [BitVec.toNat_ofNat]
    omega

theorem next_of_not_tick (h : t = s.prevMtime) : s.next t div = s := by
  simp [next, tick1us, h]

theorem next_prevMtime (s : MtimeSource) (t : BitVec 64) (div : BitVec 16) :
    (s.next t div).prevMtime = t := by
  unfold next
  split
  · split_ifs <;> rfl
  · rename_i h
    have heq : t = s.prevMtime := by simpa [tick1us] using h
    exact heq.symm

/-- A tick while the counter itself is the time. -/
theorem next_of_undivided (div : BitVec 16) (h : t ≠ s.prevMtime) (h1 : s.divLat = 1#16) :
    (s.next t div).divLat = divSafe div ∧ (s.next t div).mtimeDiv = s.mtimeDiv := by
  simp [next, tick1us, h, h1]

/-- A tick of the second counter: it may advance by one, and it is the time still or again. -/
theorem next_of_divided (h : t ≠ s.prevMtime) (h1 : s.divLat ≠ 1#16) :
    (s.next t div).mtimeDiv = s.mtimeDiv ∧ (s.next t div).divLat = s.divLat ∨
      (s.next t div).mtimeDiv = s.mtimeDiv + 1#64 ∧ (s.next t div).divLat = divSafe div := by
  by_cases hp : s.presc = s.divLat - 1#16
  · exact .inr (by simp [next, tick1us, h, h1, hp])
  · exact .inl (by simp [next, tick1us, h, h1, hp])

/-- The second counter is not ahead of the first. -/
def Behind (s : MtimeSource) : Prop := s.mtimeDiv ≤ s.prevMtime

/-- It takes at most one step when the first one moves. -/
theorem mtimeDiv_next (div : BitVec 16) (hs : s.Behind) (hle : s.prevMtime ≤ t) :
    s.mtimeDiv ≤ (s.next t div).mtimeDiv ∧ (s.next t div).mtimeDiv ≤ t := by
  have hsn := BitVec.le_def.1 hs
  have hlen := BitVec.le_def.1 hle
  by_cases ht : t = s.prevMtime
  · rw [next_of_not_tick ht]
    exact ⟨BitVec.le_refl _, BitVec.le_trans hs hle⟩
  -- the counter has moved, so that there is room for a step of the second one behind it
  · have hne : s.prevMtime.toNat ≠ t.toNat := fun h => ht (BitVec.eq_of_toNat_eq h.symm)
    have hstep : (s.mtimeDiv + 1#64).toNat = s.mtimeDiv.toNat + 1 := by
      have hlt := t.isLt
      rw [BitVec.toNat_add, show (1#64).toNat = 1 from rfl, Nat.mod_eq_of_lt (by omega)]
    have hcases : (s.next t div).mtimeDiv = s.mtimeDiv
        ∨ (s.next t div).mtimeDiv = s.mtimeDiv + 1#64 := by
      by_cases h1 : s.divLat = 1#16
      · exact .inl (next_of_undivided div ht h1).2
      · exact (next_of_divided ht h1).imp And.left And.left
    rcases hcases with h | h <;> rw [h, BitVec.le_def, BitVec.le_def] <;> omega

theorem Behind.next (hs : s.Behind) (hle : s.prevMtime ≤ t) : (s.next t div).Behind := by
  unfold Behind
  rw [next_prevMtime]
  exact (mtimeDiv_next div hs hle).2

/-- The time goes backwards exactly when a divisor above one is taken over from one. -/
theorem mtime_next_lt_iff (div : BitVec 16) (hs : s.Behind) (hle : s.prevMtime ≤ t) (ht : t ≤ d) :
    (s.next t div).mtime d < s.mtime t ↔
      s.divLat = 1#16 ∧ t ≠ s.prevMtime ∧ 1#16 < div := by
  obtain ⟨hgrow, hbehind⟩ := mtimeDiv_next div hs hle
  by_cases h1 : s.divLat = 1#16
  · have hnow : s.mtime t = t := if_pos h1
    rw [hnow, and_iff_right h1]
    by_cases htick : t = s.prevMtime
    · have hnext : (s.next t div).mtime d = d := by
        rw [next_of_not_tick htick]
        exact if_pos h1
      rw [hnext]
      exact iff_of_false (BitVec.not_lt.2 ht) fun h => h.1 htick
    · obtain ⟨hlat, hdiv⟩ := next_of_undivided div htick h1
      rw [and_iff_right htick]
      by_cases hsafe : div ≤ 1#16
      · have hnext : (s.next t div).mtime d = d := if_pos (hlat.trans (divSafe_eq_one_iff.2 hsafe))
        rw [hnext]
        exact iff_of_false (BitVec.not_lt.2 ht) (BitVec.not_lt.2 hsafe)
      · have hnext : (s.next t div).mtime d = s.mtimeDiv := by
          rw [← hdiv]
          exact if_neg fun h => hsafe (divSafe_eq_one_iff.1 (hlat.symm.trans h))
        -- from the counter, which has moved, to the second one, which was behind it before
        have hlt : s.prevMtime < t :=
          BitVec.lt_of_le_ne hle fun h => htick h.symm
        rw [hnext]
        exact iff_of_true (Nat.lt_of_le_of_lt hs hlt) (BitVec.not_le.1 hsafe)
  · have hnow : s.mtime t = s.mtimeDiv := if_neg h1
    refine iff_of_false ?_ fun h => h1 h.1
    rw [hnow, BitVec.not_lt]
    unfold mtime
    split
    · exact BitVec.le_trans hgrow (BitVec.le_trans hbehind ht)
    · exact hgrow

end MtimeSource

/-! ## Runs -/

namespace MachineTime

variable {div0 div1 : Word} {bus : ℕ → BusAccess} {counter : ℕ → BitVec 64}

theorem after_succ (n : ℕ) :
    (after div0 div1 bus counter (n + 1)).source
      = (after div0 div1 bus counter n).source.next (counter n)
          (divisor div0 div1 bus counter n) := rfl

theorem prevMtime_after (div0 div1 : Word) (bus : ℕ → BusAccess) (counter : ℕ → BitVec 64)
    (n : ℕ) :
    (after div0 div1 bus counter n).source.prevMtime = counterBefore counter n := by
  cases n with
  | zero => rfl
  | succ n =>
    rw [after_succ]
    exact MtimeSource.next_prevMtime _ _ _

theorem counterBefore_le (h : ∀ n, counter n ≤ counter (n + 1)) (n : ℕ) :
    counterBefore counter n ≤ counter n := by
  cases n with
  | zero => exact Nat.zero_le _
  | succ n => exact h n

theorem behind_after (div0 div1 : Word) (bus : ℕ → BusAccess)
    (h : ∀ n, counter n ≤ counter (n + 1)) (n : ℕ) :
    (after div0 div1 bus counter n).source.Behind := by
  induction n with
  | zero => exact BitVec.le_refl _
  | succ n ih =>
    rw [after_succ]
    apply ih.next
    rw [prevMtime_after]
    exact counterBefore_le h n

/-- In which cycles the time goes backwards. -/
theorem mtime_backwards_iff (div0 div1 : Word) (bus : ℕ → BusAccess)
    (h : ∀ n, counter n ≤ counter (n + 1)) (n : ℕ) :
    mtimeAt div0 div1 bus counter (n + 1) < mtimeAt div0 div1 bus counter n ↔
      (after div0 div1 bus counter n).source.divLat = 1#16 ∧
        counter n ≠ counterBefore counter n ∧ 1#16 < divisor div0 div1 bus counter n := by
  have hle : (after div0 div1 bus counter n).source.prevMtime ≤ counter n := by
    rw [prevMtime_after]
    exact counterBefore_le h n
  have hedge := MtimeSource.mtime_next_lt_iff (divisor div0 div1 bus counter n)
    (behind_after div0 div1 bus h n) hle (h n)
  rw [prevMtime_after] at hedge
  exact hedge

/-- The divisor in force stays one as long as no other is taken over. -/
theorem divLat_after {n : ℕ} (h : ∀ m < n, counter m ≠ counterBefore counter m →
      divisor div0 div1 bus counter m ≤ 1#16) :
    (after div0 div1 bus counter n).source.divLat = 1#16 := by
  induction n with
  | zero => rfl
  | succ n ih =>
    have hone := ih fun m hm => h m (by omega)
    rw [after_succ]
    by_cases htick : counter n = (after div0 div1 bus counter n).source.prevMtime
    · rw [MtimeSource.next_of_not_tick htick, hone]
    · rw [(MtimeSource.next_of_undivided _ htick hone).1, MtimeSource.divSafe_eq_one_iff]
      apply h n (by omega)
      rw [← prevMtime_after div0 div1 bus]
      exact htick

/-- The time never goes backwards exactly if the divisor register holds zero or one whenever the
counter moves. -/
theorem mtime_monotone_iff (div0 div1 : Word) (bus : ℕ → BusAccess) (counter : ℕ → BitVec 64)
    (h : ∀ n, counter n ≤ counter (n + 1)) :
    (∀ n, mtimeAt div0 div1 bus counter n ≤ mtimeAt div0 div1 bus counter (n + 1)) ↔
      ∀ n, counter n ≠ counterBefore counter n → divisor div0 div1 bus counter n ≤ 1#16 := by
  constructor
  · intro hmono n
    -- the first divisor above one that is taken over is taken over from one
    induction n using Nat.strong_induction_on with
    | _ n ih =>
      intro htick
      have hback := mtime_backwards_iff div0 div1 bus h n
      rw [← BitVec.not_lt]
      exact fun hlt => BitVec.not_lt.2 (hmono n) (hback.2 ⟨divLat_after ih, htick, hlt⟩)
  · intro hdiv n
    rw [← BitVec.not_lt, mtime_backwards_iff div0 div1 bus h]
    rintro ⟨-, htick, hlt⟩
    exact BitVec.not_lt.2 (hdiv n htick) hlt

/-- A counter that moves three times. -/
def threeTicks (n : ℕ) : BitVec 64 := BitVec.ofNat 64 (min n 3)

theorem threeTicks_le (n : ℕ) : threeTicks n ≤ threeTicks (n + 1) := by
  have hmin : min n 3 ≤ min (n + 1) 3 ∧ min (n + 1) 3 ≤ 3 := by omega
  simp only [threeTicks, BitVec.le_def, BitVec.toNat_ofNat]
  omega

/-- Nothing is written, and the divisor is one. -/
theorem mtime_monotone_iff_unwritten :
    mtimeAt 1#32 1#32 (fun _ => ⟨false, 0#32, 0#4, 0#32, false⟩) threeTicks 3 = 3#64 ∧
      ∀ n, mtimeAt 1#32 1#32 (fun _ => ⟨false, 0#32, 0#4, 0#32, false⟩) threeTicks n
        ≤ mtimeAt 1#32 1#32 (fun _ => ⟨false, 0#32, 0#4, 0#32, false⟩) threeTicks (n + 1) := by
  refine ⟨by decide, (mtime_monotone_iff _ _ _ threeTicks threeTicks_le).2 fun n hmoved => ?_⟩
  cases n with
  | zero => exact absurd rfl hmoved
  | succ n =>
    by_cases hn : n < 3
    · obtain rfl | rfl | rfl : n = 0 ∨ n = 1 ∨ n = 2 := by omega
      all_goals decide
    · refine absurd ?_ hmoved
      show threeTicks (n + 1) = threeTicks n
      rw [threeTicks, threeTicks, show min (n + 1) 3 = min n 3 by omega]

/-- The divisor is set to two when the counter stands at zero. -/
theorem mtime_backwards :
    ¬ ∀ (div0 div1 : Word) (bus : ℕ → BusAccess) (counter : ℕ → BitVec 64),
      (∀ n, counter n ≤ counter (n + 1)) →
        ∀ n, mtimeAt div0 div1 bus counter n ≤ mtimeAt div0 div1 bus counter (n + 1) := by
  intro h
  exact absurd (h 1#32 1#32 (fun _ => ⟨true, DivIf.divAddr1, 0xF#4, 2#32, false⟩) threeTicks
    threeTicks_le 1) (by decide)

end MachineTime

end KianRiscV
