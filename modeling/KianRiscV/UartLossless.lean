/-
# Which loopbacks are lossless

In LinuxSoC_v2 the transmitter needs longer for a byte than the receiver, whatever the divisor:
the loopback is lossless.  In the first SoC the receiver waits for another bit time after the
middle of the stop bit, and misses a start bit that follows the stop bit at once; it is lossless
for bytes that are written further apart.
-/
import KianRiscV.UartLoopback

namespace KianRiscV

namespace UartLoop

variable {aw stopBits : ℕ} {v : UartVersion} {div : BitVec 16} {inp : ℕ → UartLoopIn}
  {txRam rxRam : BitVec aw → BitVec 8} {s : ℕ → UartLoop aw} {t e n : ℕ}

/-! ## LinuxSoC_v2 -/

theorem toNat_stopWait_second (hdiv : 4 ≤ div.toNat) (hstop : stopBits = 1 ∨ stopBits = 2) :
    div.toNat ≤ (TxUart.stopWait .second stopBits div).toNat + 1 := by
  have hlt := div.isLt
  rcases hstop with rfl | rfl
  · rw [TxUart.stopWait, if_neg (by decide), TxUart.toNat_bitWait (by omega)]
    omega
  · rw [TxUart.stopWait, if_pos rfl, BitVec.toNat_sub, BitVec.toNat_shiftLeft,
      toNat_setWidth_div, Nat.shiftLeft_eq]
    simp
    omega

/-- The transmitter is slow enough for the receiver. -/
theorem Run.spaced_second (hs : Run .second stopBits div inp txRam rxRam s)
    (hdiv : 4 ≤ div.toNat) (hstop : stopBits = 1 ∨ stopBits = 2) : Spaced .second div s := by
  intro t t' htt' ht ht'
  have hstop' := toNat_stopWait_second hdiv hstop
  have hsend := hs.sends (by omega) hstop' ht
  have hge : t + txTotal .second stopBits div ≤ t' := by
    by_contra hlt
    exact hsend.busy t' htt' (by omega) (TxUart.takes_iff.1 ht').1
  rw [txTotal] at hge
  rw [rxTotal, RxUart.tail]
  simp only [lead] at hge ⊢
  omega

end UartLoop

/-- **The loopback of LinuxSoC_v2 is lossless.**  For every divisor from 4 on, one or two stop
bits, bytes written whenever there is space, and a receive buffer that is read in time: there is
no error, what the receiver pushes is the beginning of what was written, and everything written
is pushed in the end. -/
theorem uart_loopback_lossless {aw stopBits : ℕ} {div : BitVec 16} {inp : ℕ → UartLoopIn}
    {txRam rxRam : BitVec aw → BitVec 8} (hdiv : 4 ≤ div.toNat)
    (hstop : stopBits = 1 ∨ stopBits = 2)
    (hready : ∀ n, (inp n).valid = true →
      (UartLoop.run .second stopBits div txRam rxRam inp n).tx.ready = true)
    (hfull : ∀ n, (UartLoop.run .second stopBits div txRam rxRam inp n).rx.fifo.full = false)
    (n : ℕ) :
    (UartLoop.run .second stopBits div txRam rxRam inp n).rx.error = false ∧
      UartLoop.pushed (UartLoop.run .second stopBits div txRam rxRam inp) n <+:
        UartLoop.written inp n ∧
      ∃ m, UartLoop.written inp n <+:
        UartLoop.pushed (UartLoop.run .second stopBits div txRam rxRam inp) m := by
  have hrun : UartLoop.Run .second stopBits div inp txRam rxRam
      (UartLoop.run .second stopBits div txRam rxRam inp) := UartLoop.run_run
  have hstop' := UartLoop.toNat_stopWait_second hdiv hstop
  have hspaced := hrun.spaced_second hdiv hstop
  obtain ⟨hpre, herr⟩ := hrun.pushed_prefix hdiv hstop' hfull hspaced n
  have haccept := (hrun.accepted_eq n).2
  have hwritten := UartLoop.accepted_eq_written hready n
  refine ⟨herr, ?_, ?_⟩
  · rw [← hwritten, haccept]
    exact hpre.trans (List.prefix_append _ _)
  · rw [← hwritten]
    exact hrun.exists_pushed hdiv hstop' hfull hspaced n

/-- Two bytes written back to back, and a receive buffer that is always read. -/
def backToBack (n : ℕ) : UartLoopIn := ⟨decide (n ≤ 1), if n = 0 then 0x41#8 else 0x42#8, true⟩

namespace UartLoop

variable {aw stopBits : ℕ} {v : UartVersion} {div : BitVec 16} {inp : ℕ → UartLoopIn}
  {txRam rxRam : BitVec aw → BitVec 8} {s : ℕ → UartLoop aw} {n : ℕ}

/-- A receive buffer that is always read holds at most one byte. -/
theorem Run.length_le_one (hs : Run v stopBits div inp txRam rxRam s)
    (hrd : ∀ n, (inp n).dataRd = true) (n : ℕ) :
    (s n).rx.fifo.WF ∧ (s n).rx.fifo.toList.length ≤ 1 := by
  induction n with
  | zero =>
    rw [hs.zero]
    exact ⟨Fifo.wf_resetState rxRam, Nat.zero_le 1⟩
  | succ n ih =>
    obtain ⟨hwf, heq⟩ := RxUart.wf_next ih.1 v div (s n).tx.txOut (inp n).dataRd
    rw [← hs.rx_succ n] at hwf heq
    refine ⟨hwf, ?_⟩
    have hlen := congrArg List.length heq
    rw [List.length_append, List.length_append] at hlen
    have hpush : (s n).rx.pushed.toList.length ≤ 1 := by
      rw [RxUart.pushed]
      split <;> simp
    cases hempty : (s n).rx.fifo.empty with
    | true =>
      rw [Fifo.empty_iff.1 hempty] at hlen
      simp only [List.length_nil] at hlen
      omega
    | false =>
      have hpop : ((s n).rx.popped (inp n).dataRd).toList.length = 1 := by
        rw [RxUart.popped, hrd n, hempty]
        rfl
      omega

theorem Run.not_full (hs : Run v stopBits div inp txRam rxRam s)
    (hrd : ∀ n, (inp n).dataRd = true) (haw : 1 ≤ aw) (n : ℕ) : (s n).rx.fifo.full = false := by
  have hlen := (hs.length_le_one hrd n).2
  apply Bool.eq_false_of_not_eq_true
  intro hfull
  rw [Fifo.full_iff.1 hfull] at hlen
  have hpow : 2 ^ 1 ≤ 2 ^ aw := Nat.pow_le_pow_right (by decide) haw
  omega

end UartLoop

/-- A run with one stop bit, the divisor 4 and buffers of 16 bytes. -/
def shortLoop (v : UartVersion) (inp : ℕ → UartLoopIn) : ℕ → UartLoop 4 :=
  UartLoop.run v 1 4#16 (fun _ => 0#8) (fun _ => 0#8) inp

/-- The two bytes through LinuxSoC_v2. -/
theorem uart_loopback_lossless_back_to_back :
    (shortLoop .second backToBack 2).rx.error = false ∧
      UartLoop.pushed (shortLoop .second backToBack) 2 <+: [0x41#8, 0x42#8] ∧
      ∃ m, [0x41#8, 0x42#8] <+: UartLoop.pushed (shortLoop .second backToBack) m := by
  refine uart_loopback_lossless (by decide) (.inl rfl) (fun n hn => ?_) (fun n => ?_) 2
  · have hle : n ≤ 1 := by simpa [backToBack] using hn
    obtain rfl | rfl : n = 0 ∨ n = 1 := by omega
    · decide +kernel
    · decide +kernel
  · exact UartLoop.run_run.not_full (fun _ => rfl) (by decide) n

/-! ## The first SoC -/

namespace UartLoop

variable {aw : ℕ} {div : BitVec 16} {inp : ℕ → UartLoopIn}
  {txRam rxRam : BitVec aw → BitVec 8} {s : ℕ → UartLoop aw} {t n : ℕ}

/-- Bytes are written far enough apart: a frame and half a bit time more. -/
def WritesSpaced (div : BitVec 16) (inp : ℕ → UartLoopIn) : Prop :=
  ∀ m n, m < n → (inp m).valid = true → (inp n).valid = true →
    m + (10 * (div.toNat + 1) + div.toNat / 2 + 1) ≤ n

theorem toNat_stopWait_first (hdiv : 4 ≤ div.toNat) :
    (TxUart.stopWait .first 1 div).toNat + 1 = div.toNat := by
  have hlt := div.isLt
  have hnat : (BitVec.ofNat 17 (div.toNat * 1)).toNat = div.toNat := by
    rw [BitVec.toNat_ofNat, Nat.mul_one, Nat.mod_eq_of_lt (by omega)]
  rw [TxUart.stopWait, BitVec.toNat_sub, hnat]
  simp
  omega

/-- In `S_IDLE` there is at most the byte written in the cycle before. -/
structure Fresh (inp : ℕ → UartLoopIn) (s : ℕ → UartLoop aw) (t : ℕ) : Prop where
  idle : (s t).tx.state = .idle
  short : (s t).tx.pending.length ≤ 1
  recent : (s t).tx.takes = true → ∃ w, t = w + 1 ∧ (inp w).valid = true
  space : ∀ k, k < t → (inp k).valid = true → (s k).tx.ready = true
  takes : ∀ k, k < t → (s k).tx.takes = true → ∃ w, k = w + 1 ∧ (inp w).valid = true

section

variable (hs : Run .first 1 div inp txRam rxRam s)

include hs

theorem Fresh.idle_step (h : Fresh inp s t) (ht : (s t).tx.takes = false) :
    Fresh inp s (t + 1) := by
  obtain ⟨hst, -, htaken⟩ := hs.idle_succ h.idle ht
  have hempty : (s t).tx.fifo.empty = true := by
    simpa [TxUart.takes, h.idle] using ht
  have hnil : (s t).tx.fifo.toList = [] := Fifo.empty_iff.1 hempty
  have hroom : (s t).tx.ready = true := by
    rw [TxUart.ready, Bool.not_eq_true']
    apply Bool.eq_false_of_not_eq_true
    intro hfull
    have hlen := Fifo.full_iff.1 hfull
    have hpos : 0 < 2 ^ aw := Nat.two_pow_pos aw
    rw [← hlen, hnil] at hpos
    exact absurd hpos (lt_irrefl 0)
  -- What is pending now was written in this cycle.
  have hpend : (s (t + 1)).tx.pending =
      ((s t).tx.written (inp t).valid (inp t).txData).toList := by
    have h1 := (hs.accepted_eq (t + 1)).2
    have h0 := (hs.accepted_eq t).2
    rw [hs.pending_eq h.idle, hnil, List.append_nil] at h0
    rw [accepted, Sync.log_succ, ← accepted, h0, htaken] at h1
    exact (List.append_cancel_left h1).symm
  refine ⟨hst, ?_, fun htk => ?_, fun k hk hv => ?_, fun k hk htk => ?_⟩
  · rw [hpend, TxUart.written]
    split <;> simp
  · refine ⟨t, rfl, ?_⟩
    by_contra hv
    have hno : (s (t + 1)).tx.fifo.toList = [] := by
      rw [← hs.pending_eq hst, hpend, TxUart.written]
      simp [hv]
    rw [TxUart.takes, Fifo.empty_iff.2 hno] at htk
    simp at htk
  · rcases Nat.lt_succ_iff_lt_or_eq.1 hk with hlt | rfl
    · exact h.space k hlt hv
    · exact hroom
  · rcases Nat.lt_succ_iff_lt_or_eq.1 hk with hlt | rfl
    · exact h.takes k hlt htk
    · exact absurd (ht.symm.trans htk) Bool.false_ne_true

theorem Fresh.byte_step (hdiv : 4 ≤ div.toNat) (hw : WritesSpaced div inp) (h : Fresh inp s t)
    (ht : (s t).tx.takes = true) : Fresh inp s (t + txTotal .first 1 div) := by
  have hstop := toNat_stopWait_first hdiv
  have hsend := hs.sends (by omega) (by omega) ht
  have htotal : txTotal .first 1 div = 10 * (div.toNat + 1) := by
    rw [txTotal, lead]
    omega
  obtain ⟨w, rfl, hvalid⟩ := h.recent ht
  -- Nothing is written before the transmitter is back.
  have hquiet : ∀ k, w + 1 ≤ k → k < w + 1 + txTotal .first 1 div → (inp k).valid = false := by
    intro k hk hk'
    by_contra hv
    have := hw w k (by omega) hvalid (by simpa using hv)
    omega
  have haccept : accepted inp s (w + 1 + txTotal .first 1 div) = accepted inp s (w + 1) :=
    Sync.log_eq_of_none _ (by omega) fun k hk hk' => by
      rw [TxUart.written, hquiet k hk hk']
      rfl
  have hpend : (s (w + 1)).tx.pending =
      (s (w + 1)).tx.fifo.dout :: (s (w + 1 + txTotal .first 1 div)).tx.pending := by
    rw [(hs.accepted_eq _).2, (hs.accepted_eq _).2, hsend.taken, List.append_assoc] at haccept
    exact (List.append_cancel_left haccept).symm
  have hnil : (s (w + 1 + txTotal .first 1 div)).tx.pending = [] := by
    have hshort := h.short
    rw [hpend, List.length_cons] at hshort
    exact List.eq_nil_of_length_eq_zero (by omega)
  refine ⟨hsend.idle, by rw [hnil]; decide, fun htk => ?_, fun k hk hv => ?_, fun k hk htk => ?_⟩
  · rw [hs.pending_eq hsend.idle] at hnil
    rw [TxUart.takes, Fifo.empty_iff.2 hnil] at htk
    simp at htk
  · rcases Nat.lt_or_ge k (w + 1) with hlt | hge
    · exact h.space k hlt hv
    · exact absurd (hv.symm.trans (hquiet k hge hk)) (by decide)
  · rcases Nat.lt_or_ge k (w + 1) with hlt | hge
    · exact h.takes k hlt htk
    · rcases Nat.lt_or_ge (w + 1) k with hlt | hge'
      · exact absurd (TxUart.takes_iff.1 htk).1 (hsend.busy k hlt hk)
      · exact ⟨w, by omega, hvalid⟩

theorem Run.exists_fresh (hdiv : 4 ≤ div.toNat) (hw : WritesSpaced div inp) (n : ℕ) :
    ∃ t, n ≤ t ∧ Fresh inp s t := by
  induction n with
  | zero =>
    refine ⟨0, le_rfl, ?_⟩
    constructor
    · rw [hs.zero]
      rfl
    · rw [hs.zero]
      exact Nat.zero_le 1
    · intro htk
      rw [hs.zero] at htk
      exact absurd htk (by simp [resetState, TxUart.resetState, TxUart.takes, Fifo.empty,
        Fifo.resetState])
    · exact fun k hk => absurd hk (Nat.not_lt_zero k)
    · exact fun k hk => absurd hk (Nat.not_lt_zero k)
  | succ n ih =>
    obtain ⟨t, hnt, hfresh⟩ := ih
    cases ht : (s t).tx.takes with
    | false => exact ⟨t + 1, by omega, hfresh.idle_step hs ht⟩
    | true =>
      refine ⟨t + txTotal .first 1 div, ?_, hfresh.byte_step hs hdiv hw ht⟩
      rw [txTotal]
      omega

/-- Writes far enough apart are accepted, and sent far enough apart. -/
theorem Run.spaced_first (hdiv : 4 ≤ div.toNat) (hw : WritesSpaced div inp) :
    Spaced .first div s ∧ ∀ n, (inp n).valid = true → (s n).tx.ready = true := by
  constructor
  · intro t t' htt' ht ht'
    obtain ⟨i, hi, hfresh⟩ := hs.exists_fresh hdiv hw (t' + 1)
    obtain ⟨w, rfl, hv⟩ := hfresh.takes t (by omega) ht
    obtain ⟨w', rfl, hv'⟩ := hfresh.takes t' (by omega) ht'
    have := hw w w' (by omega) hv hv'
    rw [rxTotal, RxUart.tail]
    simp only [lead]
    omega
  · intro n hv
    obtain ⟨i, hi, hfresh⟩ := hs.exists_fresh hdiv hw (n + 1)
    exact hfresh.space n (by omega) hv

end

end UartLoop

/-- **The loopback of the first SoC**, for bytes written at least a frame and half a bit time
apart: nothing else is pushed than what was written, and everything written is pushed. -/
theorem uart_loopback_first {aw : ℕ} {div : BitVec 16} {inp : ℕ → UartLoopIn}
    {txRam rxRam : BitVec aw → BitVec 8} (hdiv : 4 ≤ div.toNat)
    (hw : UartLoop.WritesSpaced div inp)
    (hfull : ∀ n, (UartLoop.run .first 1 div txRam rxRam inp n).rx.fifo.full = false) (n : ℕ) :
    UartLoop.pushed (UartLoop.run .first 1 div txRam rxRam inp) n <+: UartLoop.written inp n ∧
      ∃ m, UartLoop.written inp n <+:
        UartLoop.pushed (UartLoop.run .first 1 div txRam rxRam inp) m := by
  have hrun : UartLoop.Run .first 1 div inp txRam rxRam
      (UartLoop.run .first 1 div txRam rxRam inp) := UartLoop.run_run
  have hstop := UartLoop.toNat_stopWait_first hdiv
  obtain ⟨hspaced, hready⟩ := hrun.spaced_first hdiv hw
  have hpre := (hrun.pushed_prefix hdiv (by omega) hfull hspaced n).1
  have haccept := (hrun.accepted_eq n).2
  have hwritten := UartLoop.accepted_eq_written hready n
  constructor
  · rw [← hwritten, haccept]
    exact hpre.trans (List.prefix_append _ _)
  · rw [← hwritten]
    exact hrun.exists_pushed hdiv (by omega) hfull hspaced n

/-- Two bytes, the second as early as it may be. -/
def farApart (n : ℕ) : UartLoopIn :=
  ⟨decide (n = 0 ∨ n = 53), if n = 0 then 0x41#8 else 0x42#8, true⟩

/-- They come through. -/
theorem uart_loopback_first_far_apart :
    UartLoop.pushed (shortLoop .first farApart) 54 <+: UartLoop.written farApart 54 ∧
      ∃ m, UartLoop.written farApart 54 <+: UartLoop.pushed (shortLoop .first farApart) m := by
  refine uart_loopback_first (by decide) (fun m n hmn hm hn => ?_) (fun n => ?_) 54
  · have hm' : m = 0 ∨ m = 53 := by simpa [farApart] using hm
    have hn' : n = 0 ∨ n = 53 := by simpa [farApart] using hn
    have hdiv : (4#16).toNat = 4 := rfl
    omega
  · exact UartLoop.run_run.not_full (fun _ => rfl) (by decide) n

namespace UartLoop

variable {aw stopBits : ℕ} {v : UartVersion} {div : BitVec 16} {inp : ℕ → UartLoopIn}
  {txRam rxRam : BitVec aw → BitVec 8} {s : ℕ → UartLoop aw} {t e n : ℕ}

/-- With nothing to send and nothing written any more, the line stays high. -/
theorem Run.tx_silent (hs : Run v stopBits div inp txRam rxRam s) (hst : (s t).tx.state = .idle)
    (he : (s t).tx.fifo.empty = true) (hin : ∀ n, t ≤ n → (inp n).valid = false) (htn : t ≤ n) :
    (s n).tx.state = .idle ∧ (s n).tx.fifo.empty = true ∧ (s (n + 1)).tx.txOut = true := by
  have hmain : (s n).tx.state = .idle ∧ (s n).tx.fifo.empty = true := by
    induction n, htn using Nat.le_induction with
    | base => exact ⟨hst, he⟩
    | succ n htn ih =>
      have htk : (s n).tx.takes = false := by simp [TxUart.takes, ih.2]
      obtain ⟨hst', -, htaken⟩ := hs.idle_succ ih.1 htk
      refine ⟨hst', Fifo.empty_iff.2 ?_⟩
      have h1 := (hs.accepted_eq (n + 1)).2
      have h0 := (hs.accepted_eq n).2
      rw [accepted, Sync.log_succ, ← accepted, h0, htaken, TxUart.written, hin n htn,
        hs.pending_eq ih.1, Fifo.empty_iff.1 ih.2, hs.pending_eq hst'] at h1
      simpa using h1
  have htk : (s n).tx.takes = false := by simp [TxUart.takes, hmain.2]
  exact ⟨hmain.1, hmain.2, (hs.idle_succ hmain.1 htk).2.1⟩

/-- One edge, with the bytes pushed. -/
def nextWithLog (v : UartVersion) (stopBits : ℕ) (div : BitVec 16)
    (x : UartLoop aw × List (BitVec 8)) (i : UartLoopIn) : UartLoop aw × List (BitVec 8) :=
  (x.1.next v stopBits div i, x.2 ++ x.1.rx.pushed.toList)

/-- Loop and log as one circuit. -/
theorem pushed_eq_run (n : ℕ) : pushed (run v stopBits div txRam rxRam inp) n =
    (Sync.run (nextWithLog v stopBits div) (resetState v txRam rxRam, []) inp n).2 := by
  have hrun : ∀ n, Sync.run (nextWithLog v stopBits div) (resetState v txRam rxRam, []) inp n =
      (run v stopBits div txRam rxRam inp n,
        pushed (run v stopBits div txRam rxRam inp) n) := by
    intro n
    induction n with
    | zero => rfl
    | succ n ih =>
      rw [Sync.run_succ, ih]
      rfl
  rw [hrun]

end UartLoop

/-- Back to back, the second byte is lost: the receiver sees another one in the middle of it. -/
theorem second_byte_lost :
    (∀ n, (shortLoop .first backToBack n).rx.fifo.full = false) ∧
      (∀ n, (backToBack n).valid = true → (shortLoop .first backToBack n).tx.ready = true) ∧
      UartLoop.written backToBack 2 = [0x41#8, 0x42#8] ∧
      ∀ m, ¬ [0x41#8, 0x42#8] <+: UartLoop.pushed (shortLoop .first backToBack) m := by
  have hrun : UartLoop.Run .first 1 4#16 backToBack (fun _ => 0#8) (fun _ => 0#8)
      (shortLoop .first backToBack) := UartLoop.run_run
  have htx : (shortLoop .first backToBack 110).tx.state = .idle ∧
      (shortLoop .first backToBack 110).tx.fifo.empty = true := by
    decide +kernel
  have hrx : (shortLoop .first backToBack 130).rx.state = .idle ∧
      (shortLoop .first backToBack 130).rx.bitIdx = 0#3 := by
    decide +kernel
  have hpushed : UartLoop.pushed (shortLoop .first backToBack) 131 = [0x41#8, 0xE8#8] := by
    rw [shortLoop, UartLoop.pushed_eq_run]
    decide +kernel
  -- From cycle 110 on the line is high, and from cycle 130 on the receiver is idle.
  have hhigh : ∀ k, 128 ≤ k → (shortLoop .first backToBack k).tx.txOut = true := by
    intro k hk
    obtain ⟨i, rfl⟩ : ∃ i, k = i + 1 := ⟨k - 1, by omega⟩
    refine (hrun.tx_silent htx.1 htx.2 (fun n hn => ?_) (by omega)).2.2
    exact decide_eq_false (by omega)
  have hall : ∀ m, UartLoop.pushed (shortLoop .first backToBack) m <+: [0x41#8, 0xE8#8] := by
    intro m
    rcases Nat.lt_or_ge 131 m with hlt | hge
    · obtain ⟨i, rfl⟩ : ∃ i, m = i + 1 := ⟨m - 1, by omega⟩
      obtain ⟨-, -, hquiet⟩ := hrun.rx_idle (n := i) (by decide) hrx.1 hrx.2 (by omega)
        fun k hk _ => hhigh k (by omega)
      have hsame : UartLoop.pushed (shortLoop .first backToBack) (i + 1) = [0x41#8, 0xE8#8] :=
        (UartLoop.pushed_eq_of_not_ready (e := 130) (by omega) fun k hk hk' =>
          (hquiet k hk hk').1).trans hpushed
      exact ⟨[], (List.append_nil _).trans hsame⟩
    · rw [← hpushed]
      exact Sync.log_mono _ hge
  refine ⟨fun n => hrun.not_full (fun _ => rfl) (by decide) n, fun n hn => ?_, rfl, fun m hm => ?_⟩
  · have hle : n ≤ 1 := by simpa [backToBack] using hn
    obtain rfl | rfl : n = 0 ∨ n = 1 := by omega
    · decide +kernel
    · decide +kernel
  · exact absurd (hm.trans (hall m)) (by decide)

end KianRiscV
