/-
# The bit time of the transmitter

The transmitter of the first SoC is to hold every bit for `div` clocks.  A bit takes the cycle
of the state that sets it up and a countdown from `div - 1` to zero, which are `div + 1` clocks.

* `not_framed_of_longer` : a line cannot carry a byte in cells of two lengths at once;
* `TxUart.framed_succ` : every byte taken is sent in cells of `div + 1` clocks;
* `TxUart.bit_time_iff` : so the bit time is kept only if no byte is ever sent.
-/
import KianRiscV.UartFrames

namespace KianRiscV

/-- From cycle `f` on the line `L` carries the start bit and the bits of `b` in cells of `cell`
clocks, and then a stop bit of at least `stop` clocks. -/
def Framed (cell stop : ℕ) (L : ℕ → Bool) (b : BitVec 8) (f : ℕ) : Prop :=
  ∀ j < 9 * cell + stop, L (f + j) = frameLevel b (j / cell)

/-- In longer cells every bit is late: seen in shorter ones, each cell has the level of an earlier
one, and so that of the start bit. -/
theorem not_framed_of_longer {c c' s s' : ℕ} {L : ℕ → Bool} {b : BitVec 8} {f : ℕ} (hc : 0 < c)
    (hlt : c < c') (hs : 0 < s) (hlen : 9 * c + s ≤ 9 * c' + s') (h : Framed c' s' L b f) :
    ¬ Framed c s L b f := by
  intro h'
  have hlow : ∀ k ≤ 9, frameLevel b k = false := by
    intro k
    induction k using Nat.strong_induction_on with
    | _ k ih =>
      intro hk
      rcases Nat.eq_zero_or_pos k with rfl | hpos
      · rfl
      · have hle : k * c ≤ 9 * c := Nat.mul_le_mul_right c hk
        have hearlier : k * c / c' < k := by
          apply Nat.div_lt_of_lt_mul
          rw [Nat.mul_comm c' k]
          exact Nat.mul_lt_mul_of_pos_left hlt hpos
        have hshort := h' (k * c) (by omega)
        rw [Nat.mul_div_cancel k hc] at hshort
        rw [← hshort, h (k * c) (by omega)]
        exact ih _ hearlier (by omega)
  exact absurd (hlow 9 (Nat.le_refl 9)) (by simp [frameLevel])

namespace TxUart

variable {aw stopBits : ℕ} {div : BitVec 16}

/-- What is written in a cycle. -/
structure In where
  valid : Bool
  txData : BitVec 8

/-- The registers of the first transmitter `n` cycles after reset. -/
def after (stopBits : ℕ) (div : BitVec 16) (ram : BitVec aw → BitVec 8) (inp : ℕ → In) (n : ℕ) :
    TxUart aw :=
  Sync.run (fun s i => s.next .first stopBits div i.valid i.txData) (resetState ram) inp n

variable {ram : BitVec aw → BitVec 8} {inp : ℕ → In}

theorem after_succ (n : ℕ) :
    after stopBits div ram inp (n + 1)
      = (after stopBits div ram inp n).next .first stopBits div (inp n).valid (inp n).txData :=
  rfl

theorem toNat_stopWait (hdiv : 1 ≤ div.toNat) (hstop : stopBits = 1 ∨ stopBits = 2) :
    (stopWait .first stopBits div).toNat + 1 = stopBits * div.toNat := by
  have hlt := div.isLt
  have hnat : (BitVec.ofNat 17 (div.toNat * stopBits)).toNat = div.toNat * stopBits := by
    rw [BitVec.toNat_ofNat, Nat.mod_eq_of_lt]
    rcases hstop with rfl | rfl <;> omega
  have hpos : 1 ≤ div.toNat * stopBits := by
    rcases hstop with rfl | rfl <;> omega
  rw [stopWait, BitVec.toNat_sub, hnat, Nat.mul_comm stopBits]
  simp only [BitVec.toNat_ofNat]
  rcases hstop with rfl | rfl <;> omega

/-- The cycle after a byte is taken is the first of its start bit. -/
theorem inCell_of_takes {t : ℕ} (ht : (after stopBits div ram inp t).takes = true) :
    InCell div (after stopBits div ram inp t).fifo.dout 0
      (after stopBits div ram inp (t + 1)) := by
  obtain ⟨hst, he⟩ := takes_iff.1 ht
  have hnext : after stopBits div ram inp (t + 1)
      = (after stopBits div ram inp t).next .first stopBits div (inp t).valid (inp t).txData :=
    after_succ t
  simp only [next, shift, hst, he, waitFor, Bool.false_eq_true, if_false] at hnext
  rw [hnext]
  constructor <;> rfl

/-- Every byte is sent in cells of `div + 1` clocks. -/
theorem framed_succ (hdiv : 1 ≤ div.toNat) (hstop : stopBits = 1 ∨ stopBits = 2) {t : ℕ}
    (ht : (after stopBits div ram inp t).takes = true) :
    Framed (div.toNat + 1) (stopBits * div.toNat + 1)
      (fun n => (after stopBits div ram inp n).txOut) (after stopBits div ram inp t).fifo.dout
      (t + 1) := by
  intro j hj
  have hcell := inCell_of_takes ht
  by_cases hlt : j < 9 * (div.toNat + 1)
  · exact (hcell.levels after_succ hdiv hlt).1
  · have hwait := toNat_stopWait hdiv hstop
    have hlevel : 8 < j / (div.toNat + 1) :=
      (Nat.le_div_iff_mul_le (by omega)).2 (by omega)
    rw [frameLevel, if_neg (by omega), if_neg (by omega)]
    exact (hcell.stop after_succ hdiv).1 j (by omega) (by omega)

/-- In `S_IDLE`, and before it, the line is high. -/
theorem txOut_of_idle (n : ℕ) :
    ((after stopBits div ram inp n).state = .idle →
        (after stopBits div ram inp n).txOut = true) ∧
      ((after stopBits div ram inp n).state = .wait →
        (after stopBits div ram inp n).returnState = .idle →
          (after stopBits div ram inp n).txOut = true) := by
  induction n with
  | zero => exact ⟨fun _ => rfl, fun _ _ => rfl⟩
  | succ n ih =>
    rw [after_succ]
    simp only [next, shift]
    cases hst : (after stopBits div ram inp n).state with
    | idle =>
      dsimp only
      split
      · simp
      · simp [waitFor]
    | start => simp [waitFor]
    | data =>
      simp only [waitFor]
      split <;> simp
    | stop => simp [waitFor]
    | wait =>
      dsimp only
      split
      · exact ⟨ih.2 hst, fun _ hret => ih.2 hst hret⟩
      · refine ⟨fun hidle => ?_, fun _ hret => ih.2 hst hret⟩
        have hwait : TxState.wait = .idle := hidle
        exact absurd hwait (by decide)

/-- What the transmitter is to do: every byte written is taken, every byte taken is sent in cells
of `div` clocks with a stop bit of `stopBits` cells at least, and in between the line is high. -/
structure KeepsBitTime (stopBits : ℕ) (div : BitVec 16) (inp : ℕ → In) (R : ℕ → TxUart aw) :
    Prop where
  queued : ∀ n, ∃ m, n ≤ m ∧
    Sync.log (fun k => (R k).written (inp k).valid (inp k).txData) n <+:
      Sync.log (fun k => (R k).taken) m
  frames : ∀ t, (R t).takes = true →
    Framed div.toNat (stopBits * div.toNat) (fun n => (R n).txOut) (R t).fifo.dout (t + 1)
  rest : ∀ n, (R n).state = .idle → (R n).txOut = true

section

variable (stopBits div ram inp)

theorem pending_zero : (after stopBits div ram inp 0).pending = [] := by
  have hzero : (0 : BitVec (aw + 1)).toNat = 0 := BitVec.toNat_zero
  show Ring.slots ram 0 (0 : BitVec (aw + 1)).toNat = []
  rw [hzero, Ring.slots_zero]

/-- Every byte written is taken. -/
theorem queued (n : ℕ) : ∃ m, n ≤ m ∧
    Sync.log (fun k => (after stopBits div ram inp k).written (inp k).valid (inp k).txData) n <+:
      Sync.log (fun k => (after stopBits div ram inp k).taken) m :=
  exists_taken after_succ TxState.noConfusion (ok_resetState ram)
    (pending_zero stopBits div ram inp) n

end

/-- Without a byte written none is taken. -/
theorem not_takes_of_not_valid (h : ∀ n, (inp n).valid = false) (t : ℕ) :
    (after stopBits div ram inp t).takes = false := by
  have hnone : Sync.log (fun k => (after stopBits div ram inp k).written (inp k).valid
      (inp k).txData) t = [] :=
    Sync.log_eq_of_none _ (Nat.zero_le t) fun k _ _ => by simp [written, h k]
  have hle := log_taken_prefix after_succ (ok_resetState ram) (pending_zero stopBits div ram inp) t
  rw [hnone, List.prefix_nil, Sync.log_succ, List.append_eq_nil_iff] at hle
  have htaken : (after stopBits div ram inp t).taken = none := Option.toList_eq_nil_iff.1 hle.2
  rw [Bool.eq_false_iff]
  intro ht
  rw [taken, if_pos ht] at htaken
  cases htaken

/-- A byte offered leads to a byte taken. -/
theorem exists_takes_of_valid {n : ℕ} (h : (inp n).valid = true) :
    ∃ t, (after stopBits div ram inp t).takes = true := by
  by_contra hno
  have hno : ∀ t, (after stopBits div ram inp t).takes = false :=
    fun t => Bool.eq_false_of_not_eq_true fun ht => hno ⟨t, ht⟩
  have htaken : ∀ m, Sync.log (fun k => (after stopBits div ram inp k).taken) m = [] :=
    fun m => Sync.log_eq_of_none _ (Nat.zero_le m) fun k _ _ => by simp [taken, hno k]
  have hwritten : ∀ m, Sync.log (fun k => (after stopBits div ram inp k).written (inp k).valid
      (inp k).txData) m = [] := by
    intro m
    obtain ⟨m', -, hm'⟩ := queued stopBits div ram inp m
    rw [htaken m', List.prefix_nil] at hm'
    exact hm'
  -- So the buffer is empty, and takes the byte.
  have hpop : (after stopBits div ram inp n).fifoPop = false := by
    cases n with
    | zero => rfl
    | succ n => rw [after_succ, next_fifoPop, hno n]
  have hsplit := (log_written after_succ (ok_resetState ram)
    (pending_zero stopBits div ram inp) n).2
  rw [hwritten n, htaken n, List.nil_append, pending, hpop, if_neg Bool.false_ne_true] at hsplit
  have hroom : (after stopBits div ram inp n).fifo.full = false := by
    rw [Bool.eq_false_iff, Ne, Fifo.full_iff, ← hsplit, List.length_nil]
    exact (Nat.two_pow_pos aw).ne
  have hmore := hwritten (n + 1)
  rw [Sync.log_succ, hwritten n, written, h, hroom] at hmore
  cases hmore

/-- The transmitter of the first SoC keeps the bit time of `div` clocks exactly when it is never
given a byte.  Whatever the divisor, it sends every byte in cells of `div + 1` clocks. -/
theorem bit_time_iff {aw stopBits : ℕ} {div : BitVec 16} (hdiv : 1 ≤ div.toNat)
    (hstop : stopBits = 1 ∨ stopBits = 2) (ram : BitVec aw → BitVec 8) (inp : ℕ → In) :
    (KeepsBitTime stopBits div inp (after stopBits div ram inp) ↔ ∀ n, (inp n).valid = false) ∧
    (∀ n, ∃ m, n ≤ m ∧
      Sync.log (fun k => (after stopBits div ram inp k).written (inp k).valid (inp k).txData) n
        <+: Sync.log (fun k => (after stopBits div ram inp k).taken) m) ∧
    (∀ t, (after stopBits div ram inp t).takes = true →
      Framed (div.toNat + 1) (stopBits * div.toNat + 1)
        (fun n => (after stopBits div ram inp n).txOut) (after stopBits div ram inp t).fifo.dout
        (t + 1)) ∧
    (∀ n, (after stopBits div ram inp n).state = .idle →
      (after stopBits div ram inp n).txOut = true) := by
  have hrest : ∀ n, (after stopBits div ram inp n).state = .idle →
      (after stopBits div ram inp n).txOut = true := fun n => (txOut_of_idle n).1
  refine ⟨⟨?_, ?_⟩, queued stopBits div ram inp, fun t => framed_succ hdiv hstop, hrest⟩
  · intro h n
    rw [Bool.eq_false_iff]
    intro hv
    obtain ⟨t, ht⟩ : ∃ t, (after stopBits div ram inp t).takes = true :=
      exists_takes_of_valid hv
    have hpos : 0 < stopBits * div.toNat := by
      rcases hstop with rfl | rfl <;> omega
    exact not_framed_of_longer hdiv (Nat.lt_succ_self div.toNat) hpos (by omega)
      (framed_succ hdiv hstop ht) (h.frames t ht)
  · intro hv
    refine ⟨queued stopBits div ram inp, fun t ht => ?_, hrest⟩
    rw [not_takes_of_not_valid hv t] at ht
    cases ht

/-- One byte, at a divisor of four. -/
def oneByte (n : ℕ) : In := ⟨decide (n = 0), 0x55#8⟩

/-- The start bit of the byte lasts five clocks. -/
theorem bit_time_iff_one_byte :
    Framed 5 5 (fun n => (after 1 4#16 (fun _ : BitVec 4 => 0#8) oneByte n).txOut) 0x55#8 2 := by
  have hframe := (@bit_time_iff 4 1 4#16 (by decide) (.inl rfl) (fun _ => 0#8) oneByte).2.2.1 1
    (by decide +kernel)
  have hdout : (after 1 4#16 (fun _ : BitVec 4 => 0#8) oneByte 1).fifo.dout = 0x55#8 := by
    decide +kernel
  rw [hdout] at hframe
  exact hframe

theorem start_bit_too_long :
    ¬ ∀ (div : BitVec 16) (stopBits : ℕ) (inp : ℕ → In), 1 ≤ div.toNat →
      stopBits = 1 ∨ stopBits = 2 →
        KeepsBitTime stopBits div inp (after stopBits div (fun _ : BitVec 4 => 0#8) inp) := by
  intro h
  have hframe := (h 4#16 1 oneByte (by decide) (.inl rfl)).frames 1 (by decide +kernel)
  have hlevel := hframe 4 (by decide)
  revert hlevel
  decide +kernel

end TxUart

end KianRiscV
