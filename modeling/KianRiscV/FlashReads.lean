/-
# Reads of the flash

The runs of `spi_nor_flash` with the flash behind it, under requests that are held until they are
answered.

* `Reading` : a read under way, with the number of bits clocked out;
* `Reading.next` : one cycle of it;
* `reads_word` : every read clocks out its command, returns the word at its address, and is
  answered once.
-/
import KianRiscV.FlashReader

namespace KianRiscV

/-! ## A read under way -/

/-- A read from `addr` has clocked out `r` bits. -/
inductive Reading (littleEndian : Bool) (mem : BitVec 24 → BitVec 8) (addr : BitVec 22) :
    ℕ → FlashSystem → Prop
  | cmd {r : ℕ} {s : FlashSystem} (h : InCmd addr r s) : Reading littleEndian mem addr r s
  | rd {k : ℕ} {s : FlashSystem} (h : InRead littleEndian mem addr k s) :
      Reading littleEndian mem addr (32 + k) s
  | done {s : FlashSystem} (h : AtDone littleEndian mem addr s) :
      Reading littleEndian mem addr 64 s

/-- The read is answered. -/
structure ReadAnswered (littleEndian : Bool) (mem : BitVec 24 → BitVec 8) (addr : BitVec 22)
    (s : FlashSystem) : Prop where
  state : s.ctrl.state = .idle
  done : s.ctrl.done = true
  data : s.ctrl.rcvBuff = flashWord littleEndian mem addr

section Step

variable {sclkDiv : ℕ} {littleEndian : Bool} {mem : BitVec 24 → BitVec 8} {addr : BitVec 22}
  {s : FlashSystem} {r : ℕ}

theorem Reading.busy (h : Reading littleEndian mem addr r s) :
    s.ctrl.state ≠ .idle ∧ s.ctrl.spiCs = false := by
  cases h with
  | cmd h => exact ⟨by rw [h.state]; decide, h.cs⟩
  | rd h => exact ⟨by rw [h.state]; decide, h.cs⟩
  | done h => exact ⟨by rw [h.state]; decide, h.cs⟩

/-- One cycle brings it nearer to its end. -/
theorem Reading.next (sclkDiv : ℕ) (h : Reading littleEndian mem addr r s) (i : FlashIn) :
    ((∃ r', Reading littleEndian mem addr r' (s.next sclkDiv littleEndian mem i) ∧
        bitsOut addr r' = bitsOut addr r ++ clockedBit s (s.next sclkDiv littleEndian mem i)) ∨
      r = 64 ∧ ReadAnswered littleEndian mem addr (s.next sclkDiv littleEndian mem i) ∧
        clockedBit s (s.next sclkDiv littleEndian mem i) = []) ∧
      flashRank (s.next sclkDiv littleEndian mem i) < flashRank s := by
  cases h with
  | cmd h =>
    cases ht : s.ctrl.tick sclkDiv with
    | false =>
      have hseen := h.seen.trans h.sclk.symm
      refine ⟨.inl ⟨r, ?_, ?_⟩, FlashSystem.flashRank_of_not_tick (.inl h.state) ht h.cs hseen⟩
      · rw [FlashSystem.next_of_not_tick (.inl h.state) ht h.cs hseen]
        exact .cmd { h with }
      · rw [FlashSystem.next_of_not_tick (.inl h.state) ht h.cs hseen]
        simp [clockedBit]
    | true =>
      cases hp : s.ctrl.phase with
      | false =>
        have hbits : clockedBit s (s.next sclkDiv littleEndian mem i)
              = [(readCmd addr).getLsbD (31 - r)] →
            bitsOut addr (r + 1)
              = bitsOut addr r ++ clockedBit s (s.next sclkDiv littleEndian mem i) := by
          intro hbit
          rw [bitsOut_succ, if_pos h.lt, hbit]
        -- the flash samples a bit of the command at this edge; after the last the answer begins
        by_cases hr : r + 1 = 32
        · obtain ⟨hrd, hbit, hrank⟩ := FlashSystem.next_cmd_last littleEndian mem i h hp ht hr
          refine ⟨.inl ⟨r + 1, ?_, hbits hbit⟩, FlashSystem.flashRank_of_edge hrank⟩
          rw [hr]
          exact .rd hrd
        · obtain ⟨hcmd, hbit, hrank⟩ := FlashSystem.next_cmd_bit littleEndian mem i h hp ht hr
          exact ⟨.inl ⟨r + 1, .cmd hcmd, hbits hbit⟩, FlashSystem.flashRank_of_edge hrank⟩
      | true =>
        obtain ⟨hstage, hbit, hrank⟩ := FlashSystem.next_cmd_fall littleEndian mem i h hp ht
        exact ⟨.inl ⟨r, .cmd hstage, by rw [hbit, List.append_nil]⟩,
          FlashSystem.flashRank_of_edge hrank⟩
  | @rd k _ h =>
    cases ht : s.ctrl.tick sclkDiv with
    | false =>
      have hseen := h.seen.trans h.sclk.symm
      refine ⟨.inl ⟨32 + k, ?_, ?_⟩, FlashSystem.flashRank_of_not_tick (.inr h.state) ht h.cs hseen⟩
      · rw [FlashSystem.next_of_not_tick (.inr h.state) ht h.cs hseen]
        exact .rd { h with }
      · rw [FlashSystem.next_of_not_tick (.inr h.state) ht h.cs hseen]
        simp [clockedBit]
    | true =>
      cases hp : s.ctrl.phase with
      | false =>
        have hbits : clockedBit s (s.next sclkDiv littleEndian mem i) = [false] →
            bitsOut addr (32 + (k + 1))
              = bitsOut addr (32 + k) ++ clockedBit s (s.next sclkDiv littleEndian mem i) := by
          intro hbit
          rw [← Nat.add_assoc, bitsOut_succ, if_neg (by omega), hbit]
        -- the controller samples a bit of the answer, with its own data line low
        by_cases hlast : k + 1 = 32
        · obtain ⟨hdone, hbit, hrank⟩ := FlashSystem.next_rd_last i h hp ht hlast
          refine ⟨.inl ⟨32 + (k + 1), ?_, hbits hbit⟩, FlashSystem.flashRank_of_edge hrank⟩
          rw [hlast]
          exact .done hdone
        · obtain ⟨hrd, hbit, hrank⟩ := FlashSystem.next_rd_rise i h hp ht hlast
          exact ⟨.inl ⟨32 + (k + 1), .rd hrd, hbits hbit⟩, FlashSystem.flashRank_of_edge hrank⟩
      | true =>
        obtain ⟨hstage, hbit, hrank⟩ := FlashSystem.next_rd_fall i h hp ht
        exact ⟨.inl ⟨32 + k, .rd hstage, by rw [hbit, List.append_nil]⟩,
          FlashSystem.flashRank_of_edge hrank⟩
  | done h =>
    have hedge : edgesLeft (s.next sclkDiv littleEndian mem i) < edgesLeft s := by
      simp [edgesLeft, FlashSystem.next, SpiNorFlash.next, h.state]
    refine ⟨.inr ⟨rfl, ⟨?_, ?_, ?_⟩, ?_⟩, FlashSystem.flashRank_of_edge hedge⟩
    · simp [FlashSystem.next, SpiNorFlash.next, h.state]
    · simp [FlashSystem.next, SpiNorFlash.next, h.state]
    · rw [← h.rcvBuff]
      simp [FlashSystem.next, SpiNorFlash.next, h.state]
    · simp [clockedBit, FlashSystem.next, SpiNorFlash.next, h.state]

/-! ## Before and after a read -/

/-- Between reads the flash is not selected. -/
def Deselected (s : FlashSystem) : Prop :=
  s.ctrl.state = .idle → s.flash.sclk = false ∧ s.flash.count = 0

/-- Without a start the controller stays idle. -/
theorem next_of_not_start (hst : s.ctrl.state = .idle) {i : FlashIn}
    (hs : s.ctrl.startPulse i.valid = false) :
    (s.next sclkDiv littleEndian mem i).ctrl.state = .idle := by
  simp [FlashSystem.next, SpiNorFlash.next, hst, hs]

theorem start_of_next_busy (hst : s.ctrl.state = .idle) {i : FlashIn}
    (h : (s.next sclkDiv littleEndian mem i).ctrl.state ≠ .idle) :
    s.ctrl.startPulse i.valid = true := by
  by_contra hs
  exact h (next_of_not_start hst (Bool.eq_false_of_not_eq_true hs))

/-- A start begins a read. -/
theorem next_of_start (sclkDiv : ℕ) (littleEndian : Bool) (hq : Deselected s)
    (hst : s.ctrl.state = .idle) {i : FlashIn} (hs : s.ctrl.startPulse i.valid = true) :
    Reading littleEndian mem i.addr 0 (s.next sclkDiv littleEndian mem i) ∧
      clockedBit s (s.next sclkDiv littleEndian mem i) = [] := by
  obtain ⟨hsclk, hcount⟩ := hq hst
  have hnext : s.next sclkDiv littleEndian mem i
      = ⟨{ s.ctrl with
            validD := i.valid
            done := false
            divcnt := s.ctrl.divcntNxt sclkDiv
            spiSclk := false
            phase := false
            cmdSr := readCmd i.addr
            cmdCnt := 31#6
            mosiBit := (readCmd i.addr).getLsbD 31
            spiCs := false
            state := .cmd }, s.flash⟩ := by
    have hflash := NorFlash.next_of_same mem ((readCmd i.addr).getLsbD 31) hsclk
    simp only [FlashSystem.next, SpiNorFlash.next, hst, hs, if_true, hflash]
  rw [hnext]
  constructor
  · exact .cmd
      { state := rfl
        cs := rfl
        sclk := rfl
        lt := by omega
        cmdCnt := rfl
        cmdSr := (BitVec.shiftLeft_zero _).symm
        mosi := fun _ => rfl
        seen := hsclk
        count := hcount
        sr := fun j hj => absurd hj (Nat.not_lt_zero j) }
  · simp [clockedBit]

theorem Deselected.next (h : Deselected s) (i : FlashIn) :
    Deselected (s.next sclkDiv littleEndian mem i) := by
  intro hidle
  cases hst : s.ctrl.state with
  | idle =>
    cases hs : s.ctrl.startPulse i.valid with
    | false => simp [FlashSystem.next, SpiNorFlash.next, NorFlash.next, hst, hs]
    | true => exact absurd hidle (next_of_start _ _ h hst hs).1.busy.1
  | cmd =>
    exfalso
    revert hidle
    simp only [FlashSystem.next, SpiNorFlash.next, SpiNorFlash.cmdTick, hst]
    split_ifs <;> simp
  | rd =>
    exfalso
    revert hidle
    simp only [FlashSystem.next, SpiNorFlash.next, SpiNorFlash.rdTick, hst]
    split_ifs <;> simp
  | done => simp [FlashSystem.next, SpiNorFlash.next, NorFlash.next, hst]

theorem next_done (sclkDiv : ℕ) (littleEndian : Bool) (mem : BitVec 24 → BitVec 8)
    (s : FlashSystem) (i : FlashIn) :
    (s.next sclkDiv littleEndian mem i).ctrl.done = (s.ctrl.state == .done) ∧
      (s.next sclkDiv littleEndian mem i).ctrl.validD = i.valid := by
  cases hst : s.ctrl.state <;>
    simp only [FlashSystem.next, SpiNorFlash.next, SpiNorFlash.cmdTick, SpiNorFlash.rdTick, hst]
  case done => exact ⟨rfl, trivial⟩
  all_goals
    split_ifs <;> exact ⟨rfl, rfl⟩

end Step

/-! ## Runs -/

namespace FlashSystem

section Run

variable (sclkDiv : ℕ) (littleEndian : Bool) (mem : BitVec 24 → BitVec 8) (sr : Word)
  (inp : ℕ → FlashIn)

/-- Controller and flash in cycle `n` after reset. -/
def after (n : ℕ) : FlashSystem :=
  Sync.run (next sclkDiv littleEndian mem) (resetState sr) inp n

/-- `ready` in cycle `n`. -/
def readyAt (n : ℕ) : Bool := (after sclkDiv littleEndian mem sr inp n).ctrl.done

/-- `valid` is held until `ready`. -/
def Held : Prop :=
  ∀ n, (inp n).valid = true → readyAt sclkDiv littleEndian mem sr inp n = false →
    (inp (n + 1)).valid = true

/-- A read starts in cycle `n`: `valid` is high and was low before. -/
def Starts (inp : ℕ → FlashIn) (n : ℕ) : Prop :=
  (inp n).valid = true ∧ ∀ m, n = m + 1 → (inp m).valid = false

/-- The levels of the data line to the flash at the rising edges of the clock in the `d` cycles
from cycle `n` on, while the flash is selected. -/
def clockedOut (n : ℕ) : ℕ → List Bool
  | 0 => []
  | d + 1 => clockedOut n d ++ clockedBit (after sclkDiv littleEndian mem sr inp (n + d))
      (after sclkDiv littleEndian mem sr inp (n + d + 1))

/-- The read that starts in cycle `n` is answered in cycle `m`. -/
structure AnsweredAt (n m : ℕ) : Prop where
  lt : n < m
  ready : readyAt sclkDiv littleEndian mem sr inp m = true
  data : (after sclkDiv littleEndian mem sr inp m).ctrl.rcvBuff
    = flashWord littleEndian mem (inp n).addr
  once : ∀ k, n ≤ k → k ≠ m → (∀ j, n < j → j ≤ k → ¬ Starts inp j) →
    readyAt sclkDiv littleEndian mem sr inp k = false
  selected : ∀ k, n < k → k < m → (after sclkDiv littleEndian mem sr inp k).ctrl.spiCs = false
  bits : clockedOut sclkDiv littleEndian mem sr inp n (m - n)
    = (List.range 32).map (fun j => (0x03#8 ++ (inp n).addr ++ 0#2 : Word).getLsbD (31 - j))
      ++ List.replicate 32 false

end Run

variable {sclkDiv : ℕ} {littleEndian : Bool} {mem : BitVec 24 → BitVec 8} {sr : Word}
  {inp : ℕ → FlashIn} {n : ℕ}

theorem after_succ (n : ℕ) : after sclkDiv littleEndian mem sr inp (n + 1)
    = (after sclkDiv littleEndian mem sr inp n).next sclkDiv littleEndian mem (inp n) := rfl

theorem deselected_after (sclkDiv : ℕ) (littleEndian : Bool) (mem : BitVec 24 → BitVec 8)
    (sr : Word) (inp : ℕ → FlashIn) (n : ℕ) :
    Deselected (after sclkDiv littleEndian mem sr inp n) := by
  induction n with
  | zero => exact fun _ => ⟨rfl, rfl⟩
  | succ n ih => exact ih.next (inp n)

theorem startPulse_iff (sclkDiv : ℕ) (littleEndian : Bool) (mem : BitVec 24 → BitVec 8)
    (sr : Word) (inp : ℕ → FlashIn) (n : ℕ) :
    (after sclkDiv littleEndian mem sr inp n).ctrl.startPulse (inp n).valid = true ↔
      Starts inp n := by
  unfold SpiNorFlash.startPulse Starts
  rw [Bool.and_eq_true, Bool.not_eq_true']
  apply and_congr_right
  intro _
  cases n with
  | zero =>
    exact iff_of_true rfl fun m hm => by omega
  | succ n =>
    rw [after_succ, (next_done _ _ _ _ _).2]
    constructor
    · rintro h m hm
      obtain rfl : n = m := by omega
      exact h
    · exact fun h => h n rfl

/-- While the controller is busy the request is still there. -/
theorem valid_of_busy (hheld : Held sclkDiv littleEndian mem sr inp) (n : ℕ) :
    ((after sclkDiv littleEndian mem sr inp n).ctrl.state ≠ .idle →
        (inp n).valid = true ∧ readyAt sclkDiv littleEndian mem sr inp n = false) ∧
      (readyAt sclkDiv littleEndian mem sr inp n = true →
        (after sclkDiv littleEndian mem sr inp n).ctrl.validD = true) := by
  induction n with
  | zero => exact ⟨fun h => absurd rfl h, fun h => absurd (show false = true from h) (by decide)⟩
  | succ n ih =>
    obtain ⟨hbusy, hlast⟩ := ih
    obtain ⟨hdone, hvalid⟩ := next_done sclkDiv littleEndian mem
      (after sclkDiv littleEndian mem sr inp n) (inp n)
    constructor
    · intro hne
      have hnot : (after sclkDiv littleEndian mem sr inp n).ctrl.state ≠ .done := by
        intro hst
        apply hne
        rw [after_succ]
        simp [FlashSystem.next, SpiNorFlash.next, hst]
      have hready : readyAt sclkDiv littleEndian mem sr inp (n + 1) = false := by
        rw [readyAt, after_succ, hdone]
        exact beq_eq_false_iff_ne.2 hnot
      refine ⟨?_, hready⟩
      -- a read that starts now was asked for in this cycle, which no answer of an earlier one ends
      by_cases hst : (after sclkDiv littleEndian mem sr inp n).ctrl.state = .idle
      · have hstart := start_of_next_busy hst (by rw [← after_succ]; exact hne)
        obtain ⟨hv, hvd⟩ : (inp n).valid = true ∧
            (after sclkDiv littleEndian mem sr inp n).ctrl.validD = false := by
          simpa [SpiNorFlash.startPulse] using hstart
        refine hheld n hv (Bool.eq_false_of_not_eq_true fun hr => ?_)
        exact absurd (hvd.symm.trans (hlast hr)) (by decide)
      · exact hheld n (hbusy hst).1 (hbusy hst).2
    · intro hr
      rw [readyAt, after_succ, hdone] at hr
      have hst : (after sclkDiv littleEndian mem sr inp n).ctrl.state = .done := by simpa using hr
      rw [after_succ, hvalid]
      exact (hbusy (by rw [hst]; decide)).1

/-- A read finds the controller idle. -/
theorem idle_of_starts (hheld : Held sclkDiv littleEndian mem sr inp) (hn : Starts inp n) :
    (after sclkDiv littleEndian mem sr inp n).ctrl.state = .idle ∧
      readyAt sclkDiv littleEndian mem sr inp n = false := by
  have hpulse := (startPulse_iff sclkDiv littleEndian mem sr inp n).2 hn
  obtain ⟨-, hvd⟩ : (inp n).valid = true ∧
      (after sclkDiv littleEndian mem sr inp n).ctrl.validD = false := by
    simpa [SpiNorFlash.startPulse] using hpulse
  refine ⟨?_, Bool.eq_false_of_not_eq_true fun hr => ?_⟩
  · cases n with
    | zero => rfl
    | succ n =>
      have hlow := hn.2 n rfl
      have hidle : (after sclkDiv littleEndian mem sr inp n).ctrl.state = .idle := by
        by_contra hne
        exact absurd (((valid_of_busy hheld n).1 hne).1.symm.trans hlow) (by decide)
      apply next_of_not_start hidle
      simp [SpiNorFlash.startPulse, hlow]
  · exact absurd (hvd.symm.trans ((valid_of_busy hheld n).2 hr)) (by decide)

/-- Without a start the controller stays idle, and nothing is answered. -/
theorem quiet_of_not_starts {m : ℕ}
    (hm : (after sclkDiv littleEndian mem sr inp m).ctrl.state = .idle) {k : ℕ} (hmk : m ≤ k)
    (hno : ∀ j, m ≤ j → j < k → ¬ Starts inp j) :
    (after sclkDiv littleEndian mem sr inp k).ctrl.state = .idle ∧
      (m < k → readyAt sclkDiv littleEndian mem sr inp k = false) := by
  induction k, hmk using Nat.le_induction with
  | base => exact ⟨hm, fun h => absurd h (Nat.lt_irrefl m)⟩
  | succ k hmk ih =>
    obtain ⟨hst, -⟩ := ih fun j hj hjk => hno j hj (by omega)
    have hpulse : (after sclkDiv littleEndian mem sr inp k).ctrl.startPulse (inp k).valid
        = false := by
      refine Bool.eq_false_of_not_eq_true fun h => hno k hmk (Nat.lt_succ_self k) ?_
      exact (startPulse_iff sclkDiv littleEndian mem sr inp k).1 h
    refine ⟨next_of_not_start hst hpulse, fun _ => ?_⟩
    rw [readyAt, after_succ, (next_done _ _ _ _ _).1, hst]
    rfl

/-- The bits of the command, and a zero for every bit of the answer. -/
theorem bitsOut_eq (addr : BitVec 22) (k : ℕ) :
    bitsOut addr (32 + k)
      = (List.range 32).map (fun j => (0x03#8 ++ addr ++ 0#2 : Word).getLsbD (31 - j))
        ++ List.replicate k false := by
  induction k with
  | zero =>
    rw [List.replicate_zero, List.append_nil]
    apply List.map_congr_left
    intro j hj
    rw [if_pos (List.mem_range.1 hj)]
    rfl
  | succ k ih =>
    rw [← Nat.add_assoc, bitsOut_succ, ih, if_neg (by omega), List.replicate_succ',
      List.append_assoc]

/-- What is clocked out until cycle `k` of the read that starts in cycle `n`. -/
def Progress (sclkDiv : ℕ) (littleEndian : Bool) (mem : BitVec 24 → BitVec 8) (sr : Word)
    (inp : ℕ → FlashIn) (n k : ℕ) : Prop :=
  (∃ r, Reading littleEndian mem (inp n).addr r (after sclkDiv littleEndian mem sr inp k) ∧
      clockedOut sclkDiv littleEndian mem sr inp n (k - n) = bitsOut (inp n).addr r) ∨
    ReadAnswered littleEndian mem (inp n).addr (after sclkDiv littleEndian mem sr inp k) ∧
      clockedOut sclkDiv littleEndian mem sr inp n (k - n) = bitsOut (inp n).addr 64

theorem clockedOut_succ {k : ℕ} (hk : n ≤ k) :
    clockedOut sclkDiv littleEndian mem sr inp n (k + 1 - n)
      = clockedOut sclkDiv littleEndian mem sr inp n (k - n)
        ++ clockedBit (after sclkDiv littleEndian mem sr inp k)
          (after sclkDiv littleEndian mem sr inp (k + 1)) := by
  rw [Nat.succ_sub hk, clockedOut, show n + (k - n) = k by omega]

theorem Progress.succ {k : ℕ} (hk : n ≤ k)
    (h : Progress sclkDiv littleEndian mem sr inp n k)
    (hready : readyAt sclkDiv littleEndian mem sr inp k = false) :
    Progress sclkDiv littleEndian mem sr inp n (k + 1) ∧
      flashRank (after sclkDiv littleEndian mem sr inp (k + 1))
        < flashRank (after sclkDiv littleEndian mem sr inp k) := by
  rcases h with ⟨r, hread, hbits⟩ | ⟨hans, -⟩
  -- under way: one more cycle of it; answered: excluded, since `ready` is still low
  · obtain ⟨hstage, hrank⟩ := hread.next sclkDiv (inp k)
    rw [← after_succ] at hstage hrank
    refine ⟨?_, hrank⟩
    rcases hstage with ⟨r', hread', hout⟩ | ⟨hr, hans, hnone⟩
    · exact .inl ⟨r', hread', by rw [clockedOut_succ hk, hbits, hout]⟩
    · exact .inr ⟨hans, by rw [clockedOut_succ hk, hbits, hnone, List.append_nil, hr]⟩
  · exact absurd (hready.symm.trans hans.done) (by decide)

/-- A read is answered. -/
theorem exists_answeredAt (hheld : Held sclkDiv littleEndian mem sr inp) (hn : Starts inp n) :
    ∃ m, AnsweredAt sclkDiv littleEndian mem sr inp n m := by
  obtain ⟨hidle, hfirst⟩ := idle_of_starts hheld hn
  obtain ⟨hread, hnone⟩ := next_of_start sclkDiv littleEndian
    (deselected_after sclkDiv littleEndian mem sr inp n) hidle ((startPulse_iff _ _ _ _ _ n).2 hn)
  rw [← after_succ] at hread hnone
  have hstart : Progress sclkDiv littleEndian mem sr inp n (n + 1) := by
    refine .inl ⟨0, hread, ?_⟩
    rw [clockedOut_succ (Nat.le_refl n), Nat.sub_self, hnone]
    rfl
  -- the rank counts the edges of the clock and the cycles of the divider that are left
  obtain ⟨m, hnm, -, hlow, hready, hprog⟩ := Sync.exists_first_of_rank
    (P := Progress sclkDiv littleEndian mem sr inp n)
    (q := readyAt sclkDiv littleEndian mem sr inp)
    (fun k => flashRank (after sclkDiv littleEndian mem sr inp k)) hstart
    (fun k hk hlow hp => hp.succ (by omega) (hlow k hk (Nat.le_refl k)))
  have hend : ReadAnswered littleEndian mem (inp n).addr (after sclkDiv littleEndian mem sr inp m) ∧
      clockedOut sclkDiv littleEndian mem sr inp n (m - n) = bitsOut (inp n).addr 64 := by
    rcases hprog m hnm (Nat.le_refl m) with ⟨r, hread, -⟩ | hans
    · exact absurd (((valid_of_busy hheld m).1 hread.busy.1).2.symm.trans hready) (by decide)
    · exact hans
  obtain ⟨hans, hbits⟩ := hend
  refine ⟨m, by omega, hready, hans.data, ?_, ?_, hbits.trans (bitsOut_eq _ 32)⟩
  · intro k hk hkm hno
    -- before the answer `ready` is low, and after it until the next start
    rcases Nat.lt_or_ge k m with hlt | hge
    · rcases Nat.lt_or_eq_of_le hk with hnk | rfl
      · exact hlow k hnk hlt
      · exact hfirst
    · exact (quiet_of_not_starts hans.state hge fun j hj hjk => hno j (by omega) (by omega)).2
        (by omega)
  · intro k hk hkm
    rcases hprog k hk (by omega) with ⟨r, hread, -⟩ | ⟨hans, -⟩
    · exact hread.busy.2
    · exact absurd ((hlow k hk hkm).symm.trans hans.done) (by decide)

/-- Every read clocks out the command `03` with its address, while the flash is selected, and 32
clocks more; it returns the word at the address, and `ready` comes once.  Before the first read
it does not come. -/
theorem reads_word (sclkDiv : ℕ) (littleEndian : Bool) (mem : BitVec 24 → BitVec 8) (sr : Word)
    (inp : ℕ → FlashIn) (hheld : Held sclkDiv littleEndian mem sr inp) :
    (∀ n, Starts inp n → ∃ m, AnsweredAt sclkDiv littleEndian mem sr inp n m) ∧
      ∀ k, (∀ j ≤ k, ¬ Starts inp j) → readyAt sclkDiv littleEndian mem sr inp k = false := by
  refine ⟨fun n hn => exists_answeredAt hheld hn, fun k hno => ?_⟩
  cases k with
  | zero => rfl
  | succ k =>
    exact (quiet_of_not_starts (m := 0) rfl (Nat.zero_le _) fun j _ hj => hno j (by omega)).2
      (Nat.succ_pos k)

/-- A request that stays. -/
def staying (_ : ℕ) : FlashIn := ⟨true, 5#22, true⟩

theorem reads_word_staying :
    ∃ m, AnsweredAt 1 true (fun a => a.setWidth 8) 0#32 staying 0 m :=
  (reads_word 1 true (fun a => a.setWidth 8) 0#32 staying fun _ _ _ => rfl).1 0
    ⟨rfl, fun m hm => by omega⟩

end FlashSystem

end KianRiscV
