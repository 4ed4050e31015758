/-
# The UART wired to itself

The transmitter and the receiver of one version with `tx_out` wired to `rx_in`.  The receiver is
a few cycles behind: it may still be busy with a byte when the transmitter is done with it.
`Met` is the meeting of the two in a cycle in which the transmitter is in `S_IDLE`; it is passed
on from one such cycle to the next as long as the receiver is back in `IDLE` when the next start
bit reaches it (`Spaced`).
-/
import KianRiscV.UartFrames

namespace KianRiscV

/-- Transmitter and receiver. -/
structure UartLoop (aw : ℕ) where
  tx : TxUart aw
  rx : RxUart aw

/-- What comes in a cycle: the byte written, and the read of the receive buffer. -/
structure UartLoopIn where
  valid : Bool
  txData : BitVec 8
  dataRd : Bool

namespace UartLoop

variable {aw : ℕ}

/-- One clock edge. -/
def next (v : UartVersion) (stopBits : ℕ) (div : BitVec 16) (s : UartLoop aw) (i : UartLoopIn) :
    UartLoop aw where
  tx := s.tx.next v stopBits div i.valid i.txData
  rx := s.rx.next v div s.tx.txOut i.dataRd

/-- The registers after reset. -/
def resetState (v : UartVersion) (txRam rxRam : BitVec aw → BitVec 8) : UartLoop aw where
  tx := TxUart.resetState txRam
  rx := RxUart.resetState v rxRam

/-- A run of the loop. -/
structure Run (v : UartVersion) (stopBits : ℕ) (div : BitVec 16) (inp : ℕ → UartLoopIn)
    (txRam rxRam : BitVec aw → BitVec 8) (s : ℕ → UartLoop aw) : Prop where
  zero : s 0 = resetState v txRam rxRam
  succ : ∀ n, s (n + 1) = (s n).next v stopBits div (inp n)

section

variable (inp : ℕ → UartLoopIn) (s : ℕ → UartLoop aw)

/-- The bytes written, whether there is space or not. -/
def written (n : ℕ) : List (BitVec 8) :=
  Sync.log (fun k => if (inp k).valid then some (inp k).txData else none) n

/-- The bytes that were put into the transmit buffer. -/
def accepted (n : ℕ) : List (BitVec 8) :=
  Sync.log (fun k => (s k).tx.written (inp k).valid (inp k).txData) n

/-- The bytes the transmitter has taken. -/
def taken (n : ℕ) : List (BitVec 8) := Sync.log (fun k => (s k).tx.taken) n

/-- The bytes the receiver has pushed. -/
def pushed (n : ℕ) : List (BitVec 8) := Sync.log (fun k => (s k).rx.pushed) n

end

/-- The cycles from taking a byte to its start bit. -/
def lead (v : UartVersion) : ℕ :=
  match v with
  | .first => 1
  | .second => 2

/-- The cycles the transmitter needs for a byte. -/
def txTotal (v : UartVersion) (stopBits : ℕ) (div : BitVec 16) : ℕ :=
  lead v + (9 * (div.toNat + 1) + (TxUart.stopWait v stopBits div).toNat + 1)

/-- The cycles from taking a byte to the receiver's `IDLE`. -/
def rxTotal (v : UartVersion) (div : BitVec 16) : ℕ :=
  lead v + (3 + div.toNat / 2 + 9 * (div.toNat + 1) + RxUart.tail v div)

variable {v : UartVersion} {stopBits : ℕ} {div : BitVec 16} {inp : ℕ → UartLoopIn}
  {txRam rxRam : BitVec aw → BitVec 8} {s : ℕ → UartLoop aw} {t e n : ℕ}

section

variable (hs : Run v stopBits div inp txRam rxRam s)

include hs

theorem Run.tx_succ (n : ℕ) :
    (s (n + 1)).tx = (s n).tx.next v stopBits div (inp n).valid (inp n).txData := by
  rw [hs.succ n]
  rfl

theorem Run.rx_succ (n : ℕ) :
    (s (n + 1)).rx = (s n).rx.next v div (s n).tx.txOut (inp n).dataRd := by
  rw [hs.succ n]
  rfl

/-! ## The transmitter -/

/-- The bytes written are those taken and those pending. -/
theorem Run.accepted_eq (n : ℕ) :
    (s n).tx.Ok ∧ accepted inp s n = taken s n ++ (s n).tx.pending :=
  TxUart.log_written (R := fun n => (s n).tx) hs.tx_succ
    (by rw [hs.zero]; exact TxUart.ok_resetState txRam) (by rw [hs.zero]; rfl) n

/-- In `S_IDLE` nothing is popped: the pending bytes are those in the buffer. -/
theorem Run.pending_eq (hst : (s t).tx.state = .idle) :
    (s t).tx.pending = (s t).tx.fifo.toList := by
  have hnp : (s t).tx.fifoPop = false := by
    by_contra hp
    exact ((hs.accepted_eq t).1.pop (by simpa using hp)).2 hst
  rw [TxUart.pending, hnp, if_neg Bool.false_ne_true]

/-- A cycle in `S_IDLE` without a byte. -/
theorem Run.idle_succ (hst : (s t).tx.state = .idle) (ht : (s t).tx.takes = false) :
    (s (t + 1)).tx.state = .idle ∧ (s (t + 1)).tx.txOut = true ∧
      taken s (t + 1) = taken s t := by
  have he : (s t).tx.fifo.empty = true := by
    simpa [TxUart.takes, hst] using ht
  refine ⟨?_, ?_, ?_⟩
  · rw [hs.tx_succ t]
    simp [TxUart.next, TxUart.shift, hst, he]
  · rw [hs.tx_succ t]
    simp [TxUart.next, TxUart.shift, hst, he]
  · rw [taken, Sync.log_succ, TxUart.taken, ht]
    simp [taken]

/-- The start bit of the byte taken. -/
theorem Run.start (ht : (s t).tx.takes = true) :
    TxUart.InCell div (s t).tx.fifo.dout 0 (s (t + lead v)).tx ∧
      ∀ k, t < k → k < t + lead v → (s k).tx.txOut = true ∧ (s k).tx.state ≠ .idle := by
  obtain ⟨hst, he⟩ := TxUart.takes_iff.1 ht
  have h1 := hs.tx_succ t
  cases v with
  | first =>
    simp only [TxUart.next, TxUart.shift, hst, he, TxUart.waitFor] at h1
    refine ⟨?_, fun k hk hk' => absurd hk' (by simp only [lead]; omega)⟩
    rw [lead, h1]
    exact ⟨rfl, rfl, rfl, rfl, rfl, rfl⟩
  | second =>
    simp only [TxUart.next, TxUart.shift, hst, he, Bool.false_eq_true, if_false] at h1
    have h2 := hs.tx_succ (t + 1)
    simp only [TxUart.next, TxUart.shift, h1, TxUart.waitFor] at h2
    refine ⟨?_, fun k hk hk' => ?_⟩
    · rw [lead, h2]
      exact ⟨rfl, rfl, rfl, rfl, rfl, rfl⟩
    · obtain rfl : k = t + 1 := by
        simp only [lead] at hk'
        omega
      rw [h1]
      exact ⟨rfl, fun hno => TxState.noConfusion hno⟩

/-- The frame of the byte taken, and the way back to `S_IDLE`. -/
structure Sends (v : UartVersion) (stopBits : ℕ) (div : BitVec 16) (s : ℕ → UartLoop aw)
    (b : BitVec 8) (t : ℕ) : Prop where
  carries : Carries div (fun n => (s n).tx.txOut) b (t + lead v)
  before : ∀ k, t < k → k < t + lead v → (s k).tx.txOut = true
  high : ∀ k, t + lead v + 9 * (div.toNat + 1) ≤ k → k ≤ t + txTotal v stopBits div →
    (s k).tx.txOut = true
  busy : ∀ k, t < k → k < t + txTotal v stopBits div → (s k).tx.state ≠ .idle
  idle : (s (t + txTotal v stopBits div)).tx.state = .idle
  first : taken s (t + 1) = taken s t ++ [b]
  taken : taken s (t + txTotal v stopBits div) = taken s t ++ [b]

theorem Run.sends (hdiv : 0 < div.toNat)
    (hstop : div.toNat ≤ (TxUart.stopWait v stopBits div).toNat + 1)
    (ht : (s t).tx.takes = true) : Sends v stopBits div s (s t).tx.fifo.dout t := by
  obtain ⟨hcell, hlead⟩ := hs.start ht
  have hlevels := fun j (hj : j < 9 * (div.toNat + 1)) =>
    TxUart.InCell.levels (R := fun n => (s n).tx) hs.tx_succ hdiv hcell hj
  obtain ⟨hhigh, hbusy, hidle⟩ :=
    TxUart.InCell.stop (R := fun n => (s n).tx) hs.tx_succ hdiv hcell
  have hl : 1 ≤ lead v := by cases v <;> decide
  have hfirst : UartLoop.taken s (t + 1) = UartLoop.taken s t ++ [(s t).tx.fifo.dout] := by
    rw [UartLoop.taken, Sync.log_succ, TxUart.taken, if_pos ht]
    rfl
  have hnonidle : ∀ k, t < k → k < t + txTotal v stopBits div → (s k).tx.state ≠ .idle := by
    intro k hk hk'
    rw [txTotal] at hk'
    rcases Nat.lt_or_ge k (t + lead v) with hlt | hge
    · exact (hlead k hk hlt).2
    obtain ⟨j, rfl⟩ : ∃ j, k = t + lead v + j := ⟨k - (t + lead v), by omega⟩
    rcases Nat.lt_or_ge j (9 * (div.toNat + 1)) with hlt | hge'
    · exact (hlevels j hlt).2
    · exact hbusy j hge' (by omega)
  refine ⟨⟨fun j hj => (hlevels j hj).1, fun j hj hj' => hhigh j hj (by omega)⟩,
    fun k hk hk' => (hlead k hk hk').1, fun k hk hk' => ?_, hnonidle, ?_, hfirst, ?_⟩
  · obtain ⟨j, rfl⟩ : ∃ j, k = t + lead v + j := ⟨k - (t + lead v), by omega⟩
    rw [txTotal] at hk'
    exact hhigh j (by omega) (by omega)
  · rw [txTotal, ← Nat.add_assoc]
    exact hidle
  · rw [← hfirst]
    refine Sync.log_eq_of_none _ (by rw [txTotal]; omega) fun k hk hk' => ?_
    have hno := hnonidle k (by omega) hk'
    rw [TxUart.taken, if_neg]
    exact fun htk => hno (TxUart.takes_iff.1 htk).1

/-! ## The receiver -/

/-- A cycle in `IDLE` without an edge. -/
theorem Run.rx_idle_succ (hst : (s n).rx.state = .idle) (hi : (s n).rx.bitIdx = 0#3)
    (he : (s n).rx.edge = false) :
    (s (n + 1)).rx.state = .idle ∧ (s (n + 1)).rx.bitIdx = 0#3 ∧
      (s (n + 1)).rx.ready = false := by
  rw [hs.rx_succ n]
  cases v <;> simp [RxUart.next, RxUart.shift, hst, he, hi]

theorem Run.rx_error_succ (hst : (s n).rx.state = .idle) : (s (n + 1)).rx.error = false := by
  rw [hs.rx_succ n]
  simp only [RxUart.next, RxUart.shift, hst]
  split <;> rfl

/-- The receiver stays in `IDLE` as long as the line is high. -/
theorem Run.rx_idle (h3 : 3 ≤ e) (hst : (s e).rx.state = .idle) (hi : (s e).rx.bitIdx = 0#3)
    (hen : e ≤ n) (hhigh : ∀ k, e ≤ k + 2 → k + 2 < n → (s k).tx.txOut = true) :
    (s n).rx.state = .idle ∧ (s n).rx.bitIdx = 0#3 ∧
      ∀ k, e < k → k ≤ n → (s k).rx.ready = false ∧ (s k).rx.error = false := by
  induction n, hen using Nat.le_induction with
  | base => exact ⟨hst, hi, fun k hk hk' => by omega⟩
  | succ n hen ih =>
    obtain ⟨hst', hi', hquiet⟩ := ih fun k hk hk' => hhigh k hk (by omega)
    have hedge : (s n).rx.edge = false := by
      have hrun := RxUart.edge_run (Q := fun n => (s n).rx) hs.rx_succ (n - 3)
      rw [show n - 3 + 3 = n by omega, show n - 3 + 1 = n - 2 by omega,
        hhigh (n - 2) (by omega) (by omega)] at hrun
      rw [hrun]
      simp
    obtain ⟨h1, h2, h3'⟩ := hs.rx_idle_succ hst' hi' hedge
    refine ⟨h1, h2, fun k hk hk' => ?_⟩
    rcases Nat.lt_or_ge n k with hlt | hge
    · obtain rfl : k = n + 1 := by omega
      exact ⟨h3', hs.rx_error_succ hst'⟩
    · exact hquiet k hk hge

omit hs in
theorem pushed_eq_of_not_ready (hen : e ≤ n)
    (h : ∀ k, e < k → k ≤ n → (s k).rx.ready = false) : pushed s (n + 1) = pushed s (e + 1) := by
  refine Sync.log_eq_of_none _ (by omega) fun k hk hk' => ?_
  rw [RxUart.pushed, RxUart.push, h k (by omega) (by omega)]
  rfl

omit hs in
/-- A byte received is a byte pushed. -/
theorem pushed_of_receives (hfull : ∀ n, (s n).rx.fifo.full = false) {b : BitVec 8} {m : ℕ}
    (h : RxUart.Receives (fun n => (s n).rx) b m e) : pushed s (e + 1) = pushed s (m + 1) ++ [b] := by
  obtain ⟨i, hmi, hie, hdata, hready⟩ := h.report
  have hno : ∀ k, m < k → k ≤ e → k ≠ i → (s k).rx.ready = false := by
    intro k hk hk' hki
    by_contra hr
    exact hki ((hready k hk hk').1 (by simpa using hr))
  have hbefore : pushed s i = pushed s (m + 1) := by
    refine Sync.log_eq_of_none _ (by omega) fun k hk hk' => ?_
    rw [RxUart.pushed, RxUart.push, hno k (by omega) (by omega) (by omega)]
    rfl
  have hat : pushed s (i + 1) = pushed s i ++ [b] := by
    have hri := (hready i hmi hie).2 rfl
    rw [pushed, Sync.log_succ, RxUart.pushed, RxUart.push, hfull i]
    simp only [Bool.not_false, Bool.and_true]
    rw [if_pos hri]
    exact congrArg (fun x => pushed s i ++ [x]) hdata
  rw [pushed_eq_of_not_ready hie fun k hk hk' => hno k (by omega) hk' (by omega), hat, hbefore]

/-! ## From byte to byte -/

/-- In cycle `t` the transmitter is in `S_IDLE`, and in cycle `e`, not before, the receiver is in
`IDLE`, has pushed all bytes taken before `t`, and has seen nothing but a high line since. -/
structure Met (v : UartVersion) (div : BitVec 16) (s : ℕ → UartLoop aw) (t e : ℕ) : Prop where
  idle : (s t).tx.state = .idle
  le : t ≤ e
  three : 3 ≤ e
  rxIdle : (s e).rx.state = .idle
  rxIdx : (s e).rx.bitIdx = 0#3
  high : ∀ k, e ≤ k + 3 → k ≤ t → (s k).tx.txOut = true
  sent : pushed s (e + 1) = taken s t
  late : e ≤ t + lead v + 2 ∨
    ∃ t', t' < t ∧ (s t').tx.takes = true ∧ e = t' + rxTotal v div
  ok : ∀ n, n ≤ e + 1 → pushed s n <+: taken s n ∧ (s n).rx.error = false

omit hs in
theorem lead_pos : 1 ≤ lead v := by cases v <;> decide

/-- The two meet after reset: the synchroniser is filled. -/
theorem Run.met_zero : Met v div s 0 3 := by
  have h0 : (s 0).rx = RxUart.resetState v rxRam := by
    rw [hs.zero]
    rfl
  have htx0 : (s 0).tx = TxUart.resetState txRam := by
    rw [hs.zero]
    rfl
  have hout : (s 0).tx.txOut = true := by
    rw [htx0]
    rfl
  -- The synchroniser starts with equal bits, and is filled from a high line.
  have hsync : ∀ n, (s (n + 1)).rx.rxInSync =
      (s n).rx.rxInSync.extractLsb' 0 2 ++ BitVec.ofBool (s n).tx.txOut := by
    intro n
    rw [hs.rx_succ n]
    rfl
  have hedge0 : (s 0).rx.edge = false := by
    rw [h0]
    cases v <;> simp [RxUart.edge, RxUart.resetState]
  have hedge1 : (s 1).rx.edge = false := by
    rw [RxUart.edge, hsync 0, (RxUart.sync_shift _ _).2.1, (RxUart.sync_shift _ _).2.2, h0]
    cases v <;> simp [RxUart.resetState]
  have hedge2 : (s 2).rx.edge = false := by
    rw [RxUart.edge, hsync 1, (RxUart.sync_shift _ _).2.1, hsync 0, (RxUart.sync_shift _ _).1,
      hout]
    simp
  have hst0 : (s 0).rx.state = .idle ∧ (s 0).rx.bitIdx = 0#3 := by
    rw [h0]
    exact ⟨rfl, rfl⟩
  obtain ⟨hst1, hi1, hr1⟩ := hs.rx_idle_succ hst0.1 hst0.2 hedge0
  obtain ⟨hst2, hi2, hr2⟩ := hs.rx_idle_succ hst1 hi1 hedge1
  obtain ⟨hst3, hi3, hr3⟩ := hs.rx_idle_succ hst2 hi2 hedge2
  have hready : ∀ k, k ≤ 3 → (s k).rx.ready = false := by
    intro k hk
    obtain rfl | rfl | rfl | rfl : k = 0 ∨ k = 1 ∨ k = 2 ∨ k = 3 := by omega
    · rw [h0]
      rfl
    · exact hr1
    · exact hr2
    · exact hr3
  have hnone : ∀ n, n ≤ 4 → pushed s n = [] := by
    intro n hn
    refine (Sync.log_eq_of_none _ (Nat.zero_le n) fun k _ hk => ?_).trans rfl
    rw [RxUart.pushed, RxUart.push, hready k (by omega)]
    rfl
  have hl := lead_pos (v := v)
  refine ⟨?_, by omega, le_rfl, hst3, hi3, fun k hk hk' => ?_, ?_, .inl (by omega),
    fun n hn => ?_⟩
  · rw [htx0]
    rfl
  · obtain rfl : k = 0 := by omega
    exact hout
  · rw [hnone 4 le_rfl]
    rfl
  · refine ⟨by rw [hnone n hn]; exact List.nil_prefix, ?_⟩
    obtain rfl | rfl | rfl | rfl | rfl : n = 0 ∨ n = 1 ∨ n = 2 ∨ n = 3 ∨ n = 4 := by omega
    · rw [h0]
      rfl
    · exact hs.rx_error_succ hst0.1
    · exact hs.rx_error_succ hst1
    · exact hs.rx_error_succ hst2
    · exact hs.rx_error_succ hst3

/-- A cycle without a byte. -/
theorem Met.idle_step (h : Met v div s t e) (ht : (s t).tx.takes = false) :
    ∃ e', Met v div s (t + 1) e' := by
  obtain ⟨hst, hout, htaken⟩ := hs.idle_succ h.idle ht
  have hhigh : ∀ k, e ≤ k + 3 → k ≤ t + 1 → (s k).tx.txOut = true := by
    intro k hk hk'
    rcases Nat.lt_or_ge t k with hlt | hge
    · obtain rfl : k = t + 1 := by omega
      exact hout
    · exact h.high k hk hge
  rcases Nat.lt_or_ge t e with hlt | hge
  · refine ⟨e, hst, hlt, h.three, h.rxIdle, h.rxIdx, hhigh, h.sent.trans htaken.symm, ?_, h.ok⟩
    rcases h.late with hl | ⟨t', ht', htk, he⟩
    · exact .inl (by omega)
    · exact .inr ⟨t', by omega, htk, he⟩
  · -- The receiver idles along.
    obtain rfl : e = t := Nat.le_antisymm hge h.le
    obtain ⟨hst', hi', hquiet⟩ := hs.rx_idle (n := e + 1) h.three h.rxIdle h.rxIdx (by omega)
      fun k hk hk' => h.high k (by omega) (by omega)
    have hpushed := pushed_eq_of_not_ready (s := s) (e := e) (n := e + 1) (by omega)
      fun k hk hk' => (hquiet k hk hk').1
    refine ⟨e + 1, hst, le_rfl, by have := h.three; omega, hst', hi',
      fun k hk hk' => hhigh k (by omega) hk', ?_, .inl (by omega), fun n hn => ?_⟩
    · rw [hpushed, h.sent, htaken]
    · rcases Nat.lt_or_ge (e + 1) n with hlt | hge'
      · obtain rfl : n = e + 2 := by omega
        refine ⟨?_, hs.rx_error_succ hst'⟩
        rw [hpushed, h.sent]
        exact Sync.log_mono _ (by omega)
      · exact h.ok n hge'

/-- A byte, for a receiver that is in `IDLE` when the start bit reaches it. -/
theorem Met.byte_step (hdiv : 4 ≤ div.toNat)
    (hstop : div.toNat ≤ (TxUart.stopWait v stopBits div).toNat + 1)
    (hfull : ∀ n, (s n).rx.fifo.full = false) (h : Met v div s t e)
    (ht : (s t).tx.takes = true) (hearly : e ≤ t + lead v + 2) :
    (∃ e', Met v div s (t + txTotal v stopBits div) e') ∧
      taken s (t + txTotal v stopBits div) = taken s t ++ [(s t).tx.fifo.dout] := by
  have hsend := hs.sends (by omega) hstop ht
  have hl := lead_pos (v := v)
  refine ⟨?_, hsend.taken⟩
  obtain ⟨f, hf⟩ : ∃ f, f = t + lead v := ⟨_, rfl⟩
  have hcarry := hsend.carries
  rw [← hf] at hcarry
  -- The line is high until the start bit.
  have hhigh : ∀ k, e ≤ k + 3 → k < f → (s k).tx.txOut = true := by
    intro k hk hk'
    rcases Nat.lt_or_ge t k with hlt | hge
    · exact hsend.before k hlt (by omega)
    · exact h.high k hk hge
  obtain ⟨hst, hi, hquiet⟩ := hs.rx_idle (n := f + 2) h.three h.rxIdle h.rxIdx (by omega)
    fun k hk hk' => hhigh k (by omega) (by omega)
  have hedge : (s (f + 2)).rx.edge = true := by
    have hrun := RxUart.edge_run (Q := fun n => (s n).rx) hs.rx_succ (f - 1)
    have hlow := hcarry.levels 0 (by omega)
    simp only [Nat.add_zero, Nat.zero_div] at hlow
    rw [show f - 1 + 3 = f + 2 by omega, show f - 1 + 1 = f by omega,
      hhigh (f - 1) (by omega) (by omega), hlow] at hrun
    rw [hrun]
    rfl
  have hrec := RxUart.frame_run (Q := fun n => (s n).rx) hs.rx_succ hdiv hcarry hst hi hedge
  obtain ⟨e₀, he₀⟩ : ∃ e₀, e₀ = f + 3 + div.toNat / 2 + 9 * (div.toNat + 1) + RxUart.tail v div :=
    ⟨_, rfl⟩
  rw [← he₀] at hrec
  have hpush := pushed_of_receives hfull hrec
  rw [pushed_eq_of_not_ready (e := e) (by omega) fun k hk hk' => (hquiet k hk hk').1,
    h.sent] at hpush
  -- Then both are idle, and the line is high.
  obtain ⟨t', ht'⟩ : ∃ t', t' = t + txTotal v stopBits div := ⟨_, rfl⟩
  have htf : t' = f + (9 * (div.toNat + 1) + (TxUart.stopWait v stopBits div).toNat + 1) := by
    rw [ht', txTotal, hf]
    omega
  have hstopHigh : ∀ k, f + 9 * (div.toNat + 1) ≤ k → k ≤ t' → (s k).tx.txOut = true :=
    fun k hk hk' => hsend.high k (by omega) (by omega)
  obtain ⟨e', he'⟩ : ∃ e', e' = max e₀ t' := ⟨_, rfl⟩
  obtain ⟨hst', hi', hquiet'⟩ := hs.rx_idle (e := e₀) (n := e') (by omega) hrec.state hrec.idx
    (by omega) fun k hk hk' => hstopHigh k (by omega) (by omega)
  have hpushed : pushed s (e' + 1) = taken s t ++ [(s t).tx.fifo.dout] := by
    rw [pushed_eq_of_not_ready (e := e₀) (by omega) fun k hk hk' => (hquiet' k hk hk').1, hpush]
  refine ⟨e', ht' ▸ hsend.idle, by omega, by omega, hst', hi', fun k hk hk' => ?_, ?_, ?_,
    fun n hn => ?_⟩
  · exact hstopHigh k (by omega) (by omega)
  · rw [hpushed, hsend.taken]
  · rcases Nat.le_total t' e₀ with hle | hle
    · refine .inr ⟨t, by omega, ht, ?_⟩
      rw [rxTotal, he', max_eq_left hle, he₀, hf]
      omega
    · exact .inl (by rw [he', max_eq_right hle]; omega)
  · rcases Nat.lt_or_ge (e + 1) n with hlt | hge
    · have hle := h.le
      refine ⟨?_, ?_⟩
      · have h1 : pushed s n <+: pushed s (e' + 1) := Sync.log_mono _ hn
        have h2 : taken s (t + 1) <+: taken s n := Sync.log_mono _ (by omega)
        rw [hpushed, ← hsend.first] at h1
        exact h1.trans h2
      · rcases Nat.lt_or_ge (f + 2) n with hlt1 | hge1
        · rcases Nat.lt_or_ge e₀ n with hlt2 | hge2
          · rcases Nat.lt_or_ge e' n with hlt3 | hge3
            · obtain rfl : n = e' + 1 := by omega
              exact hs.rx_error_succ hst'
            · exact (hquiet' n hlt2 hge3).2
          · exact hrec.error n hlt1 hge2
        · exact (hquiet n (by omega) hge1).2
    · exact h.ok n hge

/-! ## Whole runs -/

/-- The receiver is in `IDLE` whenever the next start bit reaches it. -/
def Spaced (v : UartVersion) (div : BitVec 16) (s : ℕ → UartLoop aw) : Prop :=
  ∀ t t', t < t' → (s t).tx.takes = true → (s t').tx.takes = true →
    t + rxTotal v div ≤ t' + lead v + 2

omit hs in
theorem Met.early (h : Met v div s t e) (hspaced : Spaced v div s)
    (ht : (s t).tx.takes = true) : e ≤ t + lead v + 2 := by
  rcases h.late with hl | ⟨t', hlt, ht', he⟩
  · exact hl
  · rw [he]
    exact hspaced t' t hlt ht' ht

variable (hdiv : 4 ≤ div.toNat) (hstop : div.toNat ≤ (TxUart.stopWait v stopBits div).toNat + 1)
  (hfull : ∀ n, (s n).rx.fifo.full = false) (hspaced : Spaced v div s)

include hdiv hstop hfull hspaced

/-- From one meeting to the next. -/
theorem Met.step (h : Met v div s t e) :
    ∃ t' e', t < t' ∧ Met v div s t' e' ∧
      ((s t).tx.takes = true → (taken s t').length = (taken s t).length + 1) := by
  cases ht : (s t).tx.takes with
  | false =>
    obtain ⟨e', he'⟩ := h.idle_step hs ht
    exact ⟨t + 1, e', by omega, he', fun hno => absurd hno Bool.false_ne_true⟩
  | true =>
    obtain ⟨⟨e', he'⟩, htaken⟩ := h.byte_step hs hdiv hstop hfull ht (h.early hspaced ht)
    refine ⟨t + txTotal v stopBits div, e', ?_, he', fun _ => by rw [htaken]; simp⟩
    rw [txTotal]
    omega

/-- There are meetings at any time. -/
theorem Run.exists_met (n : ℕ) : ∃ t e, n ≤ t ∧ Met v div s t e := by
  induction n with
  | zero => exact ⟨0, 3, le_rfl, hs.met_zero⟩
  | succ n ih =>
    obtain ⟨t, e, hnt, hmet⟩ := ih
    obtain ⟨t', e', htt', hmet', -⟩ := hmet.step hs hdiv hstop hfull hspaced
    exact ⟨t', e', by omega, hmet'⟩

/-- Nothing is pushed that was not taken, and there is no error. -/
theorem Run.pushed_prefix (n : ℕ) : pushed s n <+: taken s n ∧ (s n).rx.error = false := by
  obtain ⟨t, e, hnt, hmet⟩ := hs.exists_met hdiv hstop hfull hspaced n
  have hle := hmet.le
  exact hmet.ok n (by omega)

/-- Every byte written is pushed in the end. -/
theorem Run.exists_pushed (n : ℕ) : ∃ m, accepted inp s n <+: pushed s m := by
  -- At a meeting after `n`, by induction on the bytes that are not yet taken.
  have hmain : ∀ d t e, n ≤ t → Met v div s t e →
      (accepted inp s n).length ≤ (taken s t).length + d → ∃ m, accepted inp s n <+: pushed s m := by
    intro d
    induction d with
    | zero =>
      intro t e hnt hmet hlen
      refine ⟨e + 1, ?_⟩
      have h1 : accepted inp s n <+: accepted inp s t := Sync.log_mono _ hnt
      have h2 : taken s t <+: accepted inp s t := by
        rw [(hs.accepted_eq t).2]
        exact List.prefix_append _ _
      rw [hmet.sent]
      exact List.prefix_of_prefix_length_le h1 h2 (by omega)
    | succ d ih =>
      intro t e hnt hmet hlen
      by_cases hdone : (accepted inp s n).length ≤ (taken s t).length + d
      · exact ih t e hnt hmet hdone
      · -- A byte is pending, and `S_IDLE` takes it.
        have hlt : (accepted inp s n).length ≤ (accepted inp s t).length :=
          (Sync.log_mono _ hnt).length_le
        have htakes : (s t).tx.takes = true := by
          refine TxUart.takes_iff.2 ⟨hmet.idle, Bool.eq_false_of_not_eq_true fun hempty => ?_⟩
          rw [(hs.accepted_eq t).2, hs.pending_eq hmet.idle, Fifo.empty_iff.1 hempty,
            List.append_nil] at hlt
          omega
        obtain ⟨t', e', htt', hmet', hcount⟩ := hmet.step hs hdiv hstop hfull hspaced
        exact ih t' e' (by omega) hmet' (by rw [hcount htakes]; omega)
  obtain ⟨t, e, hnt, hmet⟩ := hs.exists_met hdiv hstop hfull hspaced n
  exact hmain _ t e hnt hmet (Nat.le_add_left _ _)

end

/-- The run from reset. -/
def run (v : UartVersion) (stopBits : ℕ) (div : BitVec 16) (txRam rxRam : BitVec aw → BitVec 8)
    (inp : ℕ → UartLoopIn) (n : ℕ) : UartLoop aw :=
  Sync.run (next v stopBits div) (resetState v txRam rxRam) inp n

theorem run_run : Run v stopBits div inp txRam rxRam (run v stopBits div txRam rxRam inp) :=
  ⟨rfl, fun _ => rfl⟩

/-- Bytes written only into a buffer with space are all accepted. -/
theorem accepted_eq_written (hready : ∀ n, (inp n).valid = true → (s n).tx.ready = true) (n : ℕ) :
    accepted inp s n = written inp n := by
  induction n with
  | zero => rfl
  | succ n ih =>
    rw [accepted, written, Sync.log_succ, Sync.log_succ]
    refine congrArg₂ (· ++ ·) ih ?_
    rw [TxUart.written]
    cases hv : (inp n).valid with
    | false => rfl
    | true =>
      have hr := hready n hv
      rw [TxUart.ready] at hr
      rw [hr]
      rfl

end UartLoop

end KianRiscV
