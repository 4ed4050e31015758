/-
# Frames on the serial line

A byte on the line is ten cells of `div + 1` cycles: the start bit, the eight bits from the
lowest on, and the stop bit.  `TxUart.frame_run` follows the transmitter through a frame, and
`RxUart.frame_run` the receiver, three cycles behind the line and half a cell into each bit.
-/
import KianRiscV.UartQueues

namespace KianRiscV

/-- The level of the line in cell `k` of the frame of `b`. -/
def frameLevel (b : BitVec 8) (k : ℕ) : Bool :=
  if k = 0 then false else if k ≤ 8 then b.getLsbD (k - 1) else true

theorem frameLevel_succ (b : BitVec 8) {k : ℕ} (hk : k < 8) :
    frameLevel b (k + 1) = b.getLsbD k := by
  rw [frameLevel, if_neg (by omega), if_pos (by omega)]
  rfl

/-- From cycle `f` on the line `L` carries the frame of `b`. -/
structure Carries (div : BitVec 16) (L : ℕ → Bool) (b : BitVec 8) (f : ℕ) : Prop where
  levels : ∀ j, j < 9 * (div.toNat + 1) → L (f + j) = frameLevel b (j / (div.toNat + 1))
  stop : ∀ j, 9 * (div.toNat + 1) ≤ j → j ≤ 9 * (div.toNat + 1) + div.toNat → L (f + j) = true

/-- Half a cell into cell `k`. -/
theorem Carries.middle {div : BitVec 16} {L : ℕ → Bool} {b : BitVec 8} {f k : ℕ}
    (h : Carries div L b f) (hk : k ≤ 8) :
    L (f + (div.toNat / 2 + k * (div.toNat + 1))) = frameLevel b k := by
  have hlt : div.toNat / 2 < div.toNat + 1 := by omega
  have hle : k * (div.toNat + 1) ≤ 8 * (div.toNat + 1) := Nat.mul_le_mul_right _ hk
  rw [h.levels _ (by omega), Nat.add_mul_div_right _ _ (by omega), Nat.div_eq_of_lt hlt,
    Nat.zero_add]

theorem toNat_setWidth_div (div : BitVec 16) : (div.setWidth 17).toNat = div.toNat := by
  have := div.isLt
  rw [BitVec.toNat_setWidth, Nat.mod_eq_of_lt (by omega)]

/-! ## The transmitter -/

namespace TxUart

variable {aw : ℕ} {v : UartVersion} {stopBits : ℕ} {div : BitVec 16} {R : ℕ → TxUart aw}
  {valid : ℕ → Bool} {data : ℕ → BitVec 8}

theorem toNat_bitWait (h : 0 < div.toNat) : (bitWait div).toNat = div.toNat - 1 := by
  have := div.isLt
  rw [bitWait, BitVec.toNat_sub, toNat_setWidth_div]
  simp
  omega

/-- From cycle `m` to cycle `n` the transmitter waits, and then goes on. -/
structure Holds (R : ℕ → TxUart aw) (m n : ℕ) : Prop where
  state : ∀ k, m ≤ k → k < n → (R k).state = .wait
  out : ∀ k, m ≤ k → k ≤ n → (R k).txOut = (R m).txOut
  next : (R n).state = (R m).returnState
  idx : (R n).bitIdx = (R m).bitIdx
  reg : (R n).txDataReg = (R m).txDataReg

section

variable (hR : ∀ n, R (n + 1) = (R n).next v stopBits div (valid n) (data n)) {m w : ℕ}

include hR

theorem holds_wait (hs : (R m).state = .wait) (hw : (R m).waitStates.toNat = w) :
    Holds R m (m + w + 1) := by
  induction w generalizing m with
  | zero =>
    have h0 : (R m).waitStates = 0#17 := BitVec.eq_of_toNat_eq (by simpa using hw)
    have hnext : R (m + 1) = (R m).next v stopBits div (valid m) (data m) := hR m
    simp only [next, shift, hs, h0, if_true] at hnext
    refine ⟨fun k hk hk' => ?_, fun k hk hk' => ?_, ?_, ?_, ?_⟩
    · obtain rfl : k = m := by omega
      exact hs
    · obtain rfl | rfl : k = m ∨ k = m + 1 := by omega
      · rfl
      · rw [hnext]
    all_goals rw [hnext]
  -- one cycle of the wait, with the output and everything else as they are
  | succ w ih =>
    have h0 : (R m).waitStates ≠ 0#17 := by
      intro h
      rw [h] at hw
      simp at hw
    have hnext : R (m + 1) = (R m).next v stopBits div (valid m) (data m) := hR m
    simp only [next, shift, hs, if_neg h0] at hnext
    have hcnt : (R (m + 1)).waitStates.toNat = w := by
      have hlt := (R m).waitStates.isLt
      rw [hnext]
      show ((R m).waitStates - 1#17).toNat = w
      rw [BitVec.toNat_sub, hw]
      simp
      omega
    have hh := ih (m := m + 1) (by rw [hnext]) hcnt
    rw [show m + 1 + w + 1 = m + (w + 1) + 1 by omega] at hh
    have hfields : (R (m + 1)).txOut = (R m).txOut ∧ (R (m + 1)).returnState = (R m).returnState ∧
        (R (m + 1)).bitIdx = (R m).bitIdx ∧ (R (m + 1)).txDataReg = (R m).txDataReg := by
      rw [hnext]
      exact ⟨rfl, rfl, rfl, rfl⟩
    refine ⟨fun k hk hk' => ?_, fun k hk hk' => ?_, hh.next.trans hfields.2.1,
      hh.idx.trans hfields.2.2.1, hh.reg.trans hfields.2.2.2⟩
    · rcases Nat.lt_or_ge m k with hlt | hge
      · exact hh.state k (by omega) hk'
      · obtain rfl : k = m := by omega
        exact hs
    · rcases Nat.lt_or_ge m k with hlt | hge
      · exact (hh.out k (by omega) hk').trans hfields.1
      · obtain rfl : k = m := by omega
        rfl

/-- The cycle in which cell `k` of the frame of `b` begins. -/
structure InCell (div : BitVec 16) (b : BitVec 8) (k : ℕ) (s : TxUart aw) : Prop where
  state : s.state = .wait
  wait : s.waitStates = bitWait div
  idx : s.bitIdx = BitVec.ofNat 3 k
  ret : s.returnState = if k = 8 then .stop else .data
  reg : s.txDataReg = b
  out : s.txOut = frameLevel b k

omit hR in
theorem InCell.ret_ne {b : BitVec 8} {k : ℕ} {s : TxUart aw} (h : InCell div b k s) :
    s.returnState ≠ .idle := by
  rw [h.ret]
  split <;> decide

variable {b : BitVec 8} {f k : ℕ} (hdiv : 0 < div.toNat)

include hdiv

theorem InCell.holds (h : InCell div b k (R m)) : Holds R m (m + div.toNat) := by
  have hh := holds_wait hR h.state (w := div.toNat - 1) (by rw [h.wait, toNat_bitWait hdiv])
  rwa [show m + (div.toNat - 1) + 1 = m + div.toNat by omega] at hh

/-- The next cell. -/
theorem InCell.next (hk : k < 8) (h : InCell div b k (R m)) :
    InCell div b (k + 1) (R (m + (div.toNat + 1))) := by
  have hh := h.holds hR hdiv
  have hst : (R (m + div.toNat)).state = .data := by
    rw [hh.next, h.ret, if_neg (by omega)]
  have hidx := hh.idx.trans h.idx
  have hreg := hh.reg.trans h.reg
  have hnat : (R (m + div.toNat)).bitIdx.toNat = k := by
    rw [hidx, BitVec.toNat_ofNat, Nat.mod_eq_of_lt (by omega)]
  have hnext := hR (m + div.toNat)
  simp only [TxUart.next, shift, hst, waitFor] at hnext
  rw [← Nat.add_assoc]
  constructor
  · rw [hnext]
  · rw [hnext]
  · rw [hnext]
    show (R (m + div.toNat)).bitIdx + 1 = _
    rw [hidx, BitVec.ofNat_add]
    rfl
  · rw [hnext]
    show (if (R (m + div.toNat)).bitIdx = 7#3 then TxState.stop else .data) = _
    have hiff : (R (m + div.toNat)).bitIdx = 7#3 ↔ k + 1 = 8 := by
      rw [← BitVec.toNat_inj, hnat]
      simp
    simp only [hiff]
  · rw [hnext]
    exact hreg
  · rw [hnext]
    show (R (m + div.toNat)).txDataReg.getLsbD (R (m + div.toNat)).bitIdx.toNat = _
    rw [hreg, hnat, frameLevel_succ b hk]

theorem InCell.cells (h : InCell div b 0 (R f)) (hk : k ≤ 8) :
    InCell div b k (R (f + k * (div.toNat + 1))) := by
  induction k with
  | zero => simpa using h
  | succ k ih =>
    have hnext := (ih (by omega)).next hR hdiv (by omega)
    rwa [Nat.add_assoc, show k * (div.toNat + 1) + (div.toNat + 1) = (k + 1) * (div.toNat + 1) by
      rw [Nat.add_mul, Nat.one_mul]] at hnext

/-- The frame of a byte, up to the stop bit. -/
theorem InCell.levels (h : InCell div b 0 (R f)) {j : ℕ} (hj : j < 9 * (div.toNat + 1)) :
    (R (f + j)).txOut = frameLevel b (j / (div.toNat + 1)) ∧ (R (f + j)).state ≠ .idle := by
  obtain ⟨k, hk⟩ : ∃ k, k = j / (div.toNat + 1) := ⟨_, rfl⟩
  have hlt : k < 9 := by
    rw [hk]
    exact Nat.div_lt_of_lt_mul (by rwa [Nat.mul_comm])
  have hcell := h.cells hR hdiv (k := k) (by omega)
  have hmod := Nat.div_add_mod j (div.toNat + 1)
  have hr := Nat.mod_lt j (show 0 < div.toNat + 1 by omega)
  rw [← hk, Nat.mul_comm] at hmod
  have hh := hcell.holds hR hdiv
  have hat : f + j = f + k * (div.toNat + 1) + j % (div.toNat + 1) := by omega
  rw [hat, ← hk]
  refine ⟨(hh.out _ (by omega) (by omega)).trans hcell.out, ?_⟩
  rcases Nat.lt_or_ge (j % (div.toNat + 1)) div.toNat with hlt' | hge
  · rw [hh.state _ (by omega) (by omega)]
    decide
  · have hlast : j % (div.toNat + 1) = div.toNat := by omega
    rw [hlast, hh.next]
    exact hcell.ret_ne

/-- The stop bit, and back to `S_IDLE`. -/
theorem InCell.stop (h : InCell div b 0 (R f)) :
    (∀ j, 9 * (div.toNat + 1) ≤ j →
        j ≤ 9 * (div.toNat + 1) + (stopWait v stopBits div).toNat + 1 → (R (f + j)).txOut = true) ∧
      (∀ j, 9 * (div.toNat + 1) ≤ j →
        j < 9 * (div.toNat + 1) + (stopWait v stopBits div).toNat + 1 →
        (R (f + j)).state ≠ .idle) ∧
      (R (f + (9 * (div.toNat + 1) + (stopWait v stopBits div).toNat + 1))).state = .idle := by
  have hcell := h.cells hR hdiv (k := 8) le_rfl
  have hh := hcell.holds hR hdiv
  have hst : (R (f + 8 * (div.toNat + 1) + div.toNat)).state = .stop := by
    rw [hh.next, hcell.ret, if_pos rfl]
  have hnext := hR (f + 8 * (div.toNat + 1) + div.toNat)
  simp only [TxUart.next, shift, hst, waitFor] at hnext
  rw [show f + 8 * (div.toNat + 1) + div.toNat + 1 = f + 9 * (div.toNat + 1) by omega] at hnext
  have hwait := holds_wait hR (m := f + 9 * (div.toNat + 1))
    (w := (stopWait v stopBits div).toNat) (by rw [hnext]) (by rw [hnext])
  have hout : (R (f + 9 * (div.toNat + 1))).txOut = true := by rw [hnext]
  have hret : (R (f + 9 * (div.toNat + 1))).returnState = .idle := by rw [hnext]
  refine ⟨fun j hj hj' => (hwait.out _ (by omega) (by omega)).trans hout, fun j hj hj' => ?_, ?_⟩
  · rw [hwait.state _ (by omega) (by omega)]
    decide
  · rw [show f + (9 * (div.toNat + 1) + (stopWait v stopBits div).toNat + 1) =
      f + 9 * (div.toNat + 1) + (stopWait v stopBits div).toNat + 1 by omega, hwait.next, hret]

end

end TxUart

/-! ## The receiver -/

namespace RxUart

variable {aw : ℕ} {v : UartVersion} {div : BitVec 16} {Q : ℕ → RxUart aw} {L rd : ℕ → Bool}

/-- The ready pulse over a wait: the first version raises it at the end of the last wait, the
second takes it back in every wait. -/
def readyOver (v : UartVersion) (ready : Bool) : Bool :=
  match v with
  | .first => ready
  | .second => false

/-- From cycle `m` to cycle `n` the receiver waits, and then goes on. -/
structure Holds (v : UartVersion) (Q : ℕ → RxUart aw) (m n : ℕ) : Prop where
  ready : ∀ k, m < k → k < n → (Q k).ready = readyOver v (Q m).ready
  error : ∀ k, m ≤ k → k ≤ n → (Q k).error = (Q m).error
  next : (Q n).state = (Q m).returnState
  last : (Q n).ready = readyOver v ((Q m).ready || (Q m).returnState == .idle)
  idx : (Q n).bitIdx = (Q m).bitIdx
  data : (Q n).rxData = (Q m).rxData

/-- The synchroniser shifts. -/
theorem sync_shift (x : BitVec 3) (b : Bool) :
    (x.extractLsb' 0 2 ++ BitVec.ofBool b).getLsbD 0 = b ∧
      (x.extractLsb' 0 2 ++ BitVec.ofBool b).getLsbD 1 = x.getLsbD 0 ∧
      (x.extractLsb' 0 2 ++ BitVec.ofBool b).getLsbD 2 = x.getLsbD 1 := by
  simp only [BitVec.getLsbD_append, BitVec.getLsbD_extractLsb', BitVec.getLsbD_ofBool]
  simp

section

variable (hQ : ∀ n, Q (n + 1) = (Q n).next v div (L n) (rd n)) {m n w : ℕ}

include hQ

/-- The synchroniser is three cycles behind the line. -/
theorem sync_run (n : ℕ) : (Q (n + 3)).rxInSync.getLsbD 2 = L n ∧
    (Q (n + 3)).rxInSync.getLsbD 1 = L (n + 1) := by
  have hsync : ∀ n, (Q (n + 1)).rxInSync =
      (Q n).rxInSync.extractLsb' 0 2 ++ BitVec.ofBool (L n) := by
    intro n
    rw [hQ n]
    rfl
  constructor
  · rw [hsync (n + 2), (sync_shift _ _).2.2, hsync (n + 1), (sync_shift _ _).2.1, hsync n,
      (sync_shift _ _).1]
  · rw [hsync (n + 2), (sync_shift _ _).2.1, hsync (n + 1), (sync_shift _ _).1]

theorem sample_run (n : ℕ) : (Q (n + 3)).sample = L n := (sync_run hQ n).1

theorem edge_run (n : ℕ) : (Q (n + 3)).edge = (L n && !L (n + 1)) := by
  rw [edge, (sync_run hQ n).1, (sync_run hQ n).2]

theorem holds_wait (hs : (Q m).state = .wait) (hw : (Q m).waitStates.toNat = w) (h0 : 0 < w) :
    Holds v Q m (m + w) := by
  induction w generalizing m with
  | zero => exact absurd h0 (lt_irrefl 0)
  | succ w ih =>
    have hnext : Q (m + 1) = (Q m).next v div (L m) (rd m) := hQ m
    -- the last wait goes on to the return state, and may raise the ready pulse there
    by_cases hlast : w = 0
    · subst hlast
      have h1 : (Q m).waitStates = 1#17 := BitVec.eq_of_toNat_eq (by simpa using hw)
      have hfields : (Q (m + 1)).state = (Q m).returnState ∧
          (Q (m + 1)).ready = readyOver v ((Q m).ready || (Q m).returnState == .idle) ∧
          (Q (m + 1)).error = (Q m).error ∧ (Q (m + 1)).bitIdx = (Q m).bitIdx ∧
          (Q (m + 1)).rxData = (Q m).rxData := by
        rw [hnext]
        cases v <;> simp [next, shift, hs, h1, readyOver]
      refine ⟨fun k hk hk' => by omega, fun k hk hk' => ?_, hfields.1, hfields.2.1,
        hfields.2.2.2.1, hfields.2.2.2.2⟩
      obtain rfl | rfl : k = m ∨ k = m + 1 := by omega
      · rfl
      · exact hfields.2.2.1
    · have h1 : (Q m).waitStates ≠ 1#17 := by
        intro h
        rw [h] at hw
        simp at hw
        omega
      have hfields : (Q (m + 1)).state = .wait ∧ (Q (m + 1)).returnState = (Q m).returnState ∧
          (Q (m + 1)).ready = readyOver v (Q m).ready ∧
          (Q (m + 1)).error = (Q m).error ∧ (Q (m + 1)).bitIdx = (Q m).bitIdx ∧
          (Q (m + 1)).rxData = (Q m).rxData ∧
          (Q (m + 1)).waitStates = (Q m).waitStates - 1 := by
        rw [hnext]
        cases v <;> simp [next, shift, hs, h1, readyOver]
      obtain ⟨hst, hret, hrd, herr, hidx, hdat, hwait⟩ := hfields
      have hcnt : (Q (m + 1)).waitStates.toNat = w := by
        have hlt := (Q m).waitStates.isLt
        rw [hwait, BitVec.toNat_sub, hw]
        simp
        omega
      have hh := ih hst hcnt (Nat.pos_of_ne_zero hlast)
      rw [show m + 1 + w = m + (w + 1) by omega] at hh
      refine ⟨fun k hk hk' => ?_, fun k hk hk' => ?_, hh.next.trans hret, ?_,
        hh.idx.trans hidx, hh.data.trans hdat⟩
      · rcases Nat.lt_or_ge (m + 1) k with hlt | hge
        · rw [hh.ready k hlt hk', hrd]
          cases v <;> rfl
        · obtain rfl : k = m + 1 := by omega
          exact hrd
      · rcases Nat.lt_or_ge m k with hlt | hge
        · exact (hh.error k hlt hk').trans herr
        · obtain rfl : k = m := by omega
          rfl
      · rw [hh.last, hrd, hret]
        cases v <;> rfl

/-- No byte is reported, and no error. -/
def Quiet (Q : ℕ → RxUart aw) (m n : ℕ) : Prop :=
  ∀ k, m ≤ k → k ≤ n → (Q k).ready = false ∧ (Q k).error = false

omit hQ in
/-- A wait in the middle of a frame. -/
theorem Holds.quiet (h : Holds v Q m n) (hr : (Q m).ready = false) (he : (Q m).error = false)
    (hret : (Q m).returnState ≠ .idle) : Quiet Q m n := by
  have hlast : (Q n).ready = false := by
    rw [h.last, hr, beq_eq_false_iff_ne.2 hret]
    cases v <;> rfl
  intro k hk hk'
  refine ⟨?_, (h.error k hk hk').trans he⟩
  rcases Nat.lt_or_ge m k with hlt | hge
  · rcases Nat.lt_or_ge k n with hlt' | hge'
    · rw [h.ready k hlt hlt', hr]
      cases v <;> rfl
    · obtain rfl : k = n := by omega
      exact hlast
  · obtain rfl : k = m := by omega
    exact hr

/-- The receiver waits for the middle of cell `k + 1`, with `k` bits of `b` received. -/
structure InBit (div : BitVec 16) (b : BitVec 8) (k : ℕ) (s : RxUart aw) : Prop where
  state : s.state = .wait
  wait : s.waitStates = div.setWidth 17
  idx : s.bitIdx = BitVec.ofNat 3 k
  ret : s.returnState = if k = 8 then .stop else .data
  data : ∀ i, i < k → s.rxData.getLsbD i = b.getLsbD i
  ready : s.ready = false
  error : s.error = false

omit hQ in
theorem InBit.ret_ne {b : BitVec 8} {k : ℕ} {s : RxUart aw} (h : InBit div b k s) :
    s.returnState ≠ .idle := by
  rw [h.ret]
  split <;> decide

omit hQ in
theorem getLsbD_putBit (x : BitVec 8) (i : BitVec 3) (b : Bool) {j : ℕ} (hj : j < 8) :
    (putBit x i b).getLsbD j = if j = i.toNat then b else x.getLsbD j := by
  have hone : ∀ j : Fin 8, (1#8).getLsbD j = decide (j = 0) := by decide
  have hbit : (1#8 <<< i.toNat).getLsbD j = decide (j = i.toNat) := by
    rw [BitVec.getLsbD_shiftLeft]
    by_cases hlt : j < i.toNat
    · simp [hlt]
      omega
    · have h1 := hone ⟨j - i.toNat, by omega⟩
      simp only [hj, hlt, decide_true, decide_false, Bool.not_false, Bool.true_and]
      rw [h1]
      simp only [Fin.ext_iff, decide_eq_decide]
      show j - i.toNat = 0 ↔ j = i.toNat
      omega
  unfold putBit
  cases b
  · rw [if_neg Bool.false_ne_true, BitVec.getLsbD_and, BitVec.getLsbD_not, hbit]
    by_cases hji : j = i.toNat <;> simp [hji, hj]
  · rw [if_pos rfl, BitVec.getLsbD_or, hbit]
    by_cases hji : j = i.toNat <;> simp [hji]

variable {b : BitVec 8} {f k : ℕ} (hdiv : 4 ≤ div.toNat) (hL : Carries div L b f)

include hdiv

theorem InBit.holds (h : InBit div b k (Q m)) : Holds v Q m (m + div.toNat) :=
  holds_wait hQ h.state (by rw [h.wait, toNat_setWidth_div]) (by omega)

include hL

/-- The next bit. -/
theorem InBit.next (hk : k < 8) (hm : m = f + 4 + div.toNat / 2 + k * (div.toNat + 1))
    (h : InBit div b k (Q m)) : InBit div b (k + 1) (Q (m + (div.toNat + 1))) := by
  have hh := h.holds hQ hdiv
  have hq := hh.quiet h.ready h.error h.ret_ne
  have hst : (Q (m + div.toNat)).state = .data := by
    rw [hh.next, h.ret, if_neg (by omega)]
  have hidx := hh.idx.trans h.idx
  have hnat : (Q (m + div.toNat)).bitIdx.toNat = k := by
    rw [hidx, BitVec.toNat_ofNat, Nat.mod_eq_of_lt (by omega)]
  -- the sample is three cycles old, which puts it into the middle of the cell of bit `k`
  have hsample : (Q (m + div.toNat)).sample = b.getLsbD k := by
    have hmid := hL.middle (k := k + 1) (by omega)
    rw [frameLevel_succ b hk] at hmid
    rw [← hmid, ← sample_run hQ]
    congr 2
    rw [hm, Nat.add_mul]
    omega
  have hnext := hQ (m + div.toNat)
  simp only [RxUart.next, shift, hst, waitFor] at hnext
  rw [← Nat.add_assoc]
  constructor
  · rw [hnext]
  · rw [hnext]
  · rw [hnext]
    show (Q (m + div.toNat)).bitIdx + 1 = _
    rw [hidx, BitVec.ofNat_add]
    rfl
  · rw [hnext]
    show (if (Q (m + div.toNat)).bitIdx = 7#3 then RxState.stop else .data) = _
    have hiff : (Q (m + div.toNat)).bitIdx = 7#3 ↔ k + 1 = 8 := by
      rw [← BitVec.toNat_inj, hnat]
      simp
    simp only [hiff]
  · intro i hi
    rw [hnext]
    show (putBit _ _ _).getLsbD i = _
    rw [getLsbD_putBit _ _ _ (by omega), hnat, hsample, hh.data]
    split
    · rename_i hik
      rw [hik]
    · exact h.data i (by omega)
  · rw [hnext]
    exact (hq _ (by omega) le_rfl).1
  · rw [hnext]
    exact (hq _ (by omega) le_rfl).2

theorem InBit.bits (h : InBit div b 0 (Q (f + 4 + div.toNat / 2))) (hk : k ≤ 8) :
    InBit div b k (Q (f + 4 + div.toNat / 2 + k * (div.toNat + 1))) ∧
      Quiet Q (f + 4 + div.toNat / 2) (f + 4 + div.toNat / 2 + k * (div.toNat + 1)) := by
  induction k with
  | zero =>
    rw [Nat.zero_mul, Nat.add_zero]
    refine ⟨h, fun k hk hk' => ?_⟩
    obtain rfl : k = f + 4 + div.toNat / 2 := by omega
    exact ⟨h.ready, h.error⟩
  | succ k ih =>
    obtain ⟨hbit, hquiet⟩ := ih (by omega)
    have hnext := hbit.next hQ hdiv hL (by omega) rfl
    rw [Nat.add_assoc, show k * (div.toNat + 1) + (div.toNat + 1) = (k + 1) * (div.toNat + 1) by
      rw [Nat.add_mul, Nat.one_mul]] at hnext
    refine ⟨hnext, fun i hi hi' => ?_⟩
    have hlen : (k + 1) * (div.toNat + 1) = k * (div.toNat + 1) + div.toNat + 1 := by
      rw [Nat.add_mul]
      omega
    rcases Nat.lt_or_ge (f + 4 + div.toNat / 2 + k * (div.toNat + 1)) i with hlt | hge
    · have hq := (hbit.holds hQ hdiv).quiet hbit.ready hbit.error hbit.ret_ne
      rcases Nat.lt_or_ge i (f + 4 + div.toNat / 2 + (k + 1) * (div.toNat + 1)) with hlt' | hge'
      · exact hq i hlt.le (by omega)
      · obtain rfl : i = f + 4 + div.toNat / 2 + (k + 1) * (div.toNat + 1) := by omega
        exact ⟨hnext.ready, hnext.error⟩
    · exact hquiet i hi hge

/-- From the falling edge to the middle of the start bit. -/
theorem start_run (hs : (Q (f + 2)).state = .idle) (hi : (Q (f + 2)).bitIdx = 0#3)
    (he : (Q (f + 2)).edge = true) :
    InBit div b 0 (Q (f + 4 + div.toNat / 2)) ∧ Quiet Q (f + 3) (f + 3 + div.toNat / 2) := by
  have hnext : (Q (f + 3)).state = .wait ∧ (Q (f + 3)).waitStates = (div >>> 1).setWidth 17 ∧
      (Q (f + 3)).returnState = .verify ∧ (Q (f + 3)).ready = false ∧
      (Q (f + 3)).error = false ∧ (Q (f + 3)).bitIdx = 0#3 := by
    rw [hQ (f + 2)]
    simp only [RxUart.next, shift, hs, he, if_true, waitFor]
    cases v <;> simp [hi]
  obtain ⟨hst, hw, hret, hrd, herr, hidx⟩ := hnext
  have hwait : (Q (f + 3)).waitStates.toNat = div.toNat / 2 := by
    rw [hw, toNat_setWidth_div, BitVec.toNat_ushiftRight, Nat.shiftRight_eq_div_pow]
  have hh := holds_wait hQ hst hwait (by omega)
  have hq := hh.quiet hrd herr (by rw [hret]; decide)
  have hverify : (Q (f + 3 + div.toNat / 2)).state = .verify := hh.next.trans hret
  have hsample : (Q (f + 3 + div.toNat / 2)).sample = false := by
    have hmid := hL.middle (k := 0) (by omega)
    rw [Nat.zero_mul, Nat.add_zero] at hmid
    rw [show f + 3 + div.toNat / 2 = f + div.toNat / 2 + 3 by omega, sample_run hQ, hmid]
    rfl
  have hstep := hQ (f + 3 + div.toNat / 2)
  simp only [RxUart.next, shift, hverify, hsample, waitFor, Bool.false_eq_true, if_false] at hstep
  rw [show f + 3 + div.toNat / 2 + 1 = f + 4 + div.toNat / 2 by omega] at hstep
  have hq' := hq (f + 3 + div.toNat / 2) (by omega) le_rfl
  refine ⟨⟨?_, ?_, ?_, ?_, fun i hi => absurd hi (Nat.not_lt_zero i), ?_, ?_⟩, hq⟩
  · rw [hstep]
  · rw [hstep]
  · rw [hstep]
    exact hh.idx.trans hidx
  · rw [hstep]
    rfl
  · rw [hstep]
    exact hq'.1
  · rw [hstep]
    exact hq'.2

/-- From the falling edge to the middle of the stop bit. -/
theorem stop_run (hs : (Q (f + 2)).state = .idle) (hi : (Q (f + 2)).bitIdx = 0#3)
    (he : (Q (f + 2)).edge = true) :
    (Q (f + 3 + div.toNat / 2 + 9 * (div.toNat + 1))).state = .stop ∧
      (Q (f + 3 + div.toNat / 2 + 9 * (div.toNat + 1))).rxData = b ∧
      (Q (f + 3 + div.toNat / 2 + 9 * (div.toNat + 1))).bitIdx = 0#3 ∧
      (Q (f + 3 + div.toNat / 2 + 9 * (div.toNat + 1))).sample = true ∧
      Quiet Q (f + 3) (f + 3 + div.toNat / 2 + 9 * (div.toNat + 1)) := by
  obtain ⟨hbit0, hq0⟩ := start_run hQ hdiv hL hs hi he
  obtain ⟨hbit, hq1⟩ := hbit0.bits hQ hdiv hL le_rfl
  have hh := hbit.holds hQ hdiv
  have hq2 := hh.quiet hbit.ready hbit.error hbit.ret_ne
  have hat : f + 4 + div.toNat / 2 + 8 * (div.toNat + 1) + div.toNat =
      f + 3 + div.toNat / 2 + 9 * (div.toNat + 1) := by omega
  rw [hat] at hh hq2
  refine ⟨hh.next.trans ?_, ?_, ?_, ?_, ?_⟩
  · rw [hbit.ret, if_pos rfl]
  · rw [hh.data]
    exact BitVec.eq_of_getLsbD_eq fun i hi => hbit.data i hi
  · rw [hh.idx, hbit.idx]
    rfl
  · rw [show f + 3 + div.toNat / 2 + 9 * (div.toNat + 1) =
      f + (div.toNat / 2 + 9 * (div.toNat + 1)) + 3 by omega, sample_run hQ]
    exact hL.stop _ (by omega) (by omega)
  · intro k hk hk'
    rcases Nat.lt_or_ge (f + 4 + div.toNat / 2 + 8 * (div.toNat + 1)) k with hlt | hge
    · exact hq2 k hlt.le hk'
    rcases Nat.lt_or_ge (f + 3 + div.toNat / 2) k with hlt | hge'
    · exact hq1 k (by omega) hge
    · exact hq0 k hk hge'

end

/-- The cycles from the middle of the stop bit to `IDLE`. -/
def tail (v : UartVersion) (div : BitVec 16) : ℕ :=
  match v with
  | .first => div.toNat + 1
  | .second => 1 + div.toNat / 4

/-- A byte is received from cycle `m` to cycle `e`, with one report, and no error. -/
structure Receives (Q : ℕ → RxUart aw) (b : BitVec 8) (m e : ℕ) : Prop where
  state : (Q e).state = .idle
  idx : (Q e).bitIdx = 0#3
  error : ∀ k, m < k → k ≤ e → (Q k).error = false
  report : ∃ i, m < i ∧ i ≤ e ∧ (Q i).rxData = b ∧
    ∀ k, m < k → k ≤ e → ((Q k).ready = true ↔ k = i)

/-- A byte that is reported in cycle `i` and in no other. -/
theorem receives_of_report {b : BitVec 8} {m i e : ℕ} (hs : (Q e).state = .idle)
    (hidx : (Q e).bitIdx = 0#3) (herr : ∀ k, m < k → k ≤ e → (Q k).error = false) (hmi : m < i)
    (hie : i ≤ e) (hdata : (Q i).rxData = b) (hready : (Q i).ready = true)
    (hno : ∀ k, m < k → k ≤ e → k ≠ i → (Q k).ready = false) : Receives Q b m e := by
  refine ⟨hs, hidx, herr, i, hmi, hie, hdata, fun k hk hk' => ⟨fun hr => ?_, ?_⟩⟩
  · by_contra hne
    rw [hno k hk hk' hne] at hr
    exact Bool.noConfusion hr
  · rintro rfl
    exact hready

section Tail

variable {b : BitVec 8} {m g : ℕ} (hs : (Q g).state = .stop) (hsample : (Q g).sample = true)
  (hdata : (Q g).rxData = b) (hidx : (Q g).bitIdx = 0#3) (hm : m < g)
  (hquiet : Quiet Q (m + 1) g)

include hs hsample hdata hidx hm hquiet

/-- The first version waits for a bit time after the middle of the stop bit and reports the byte
as it goes back to `IDLE`. -/
theorem receives_first (hQ : ∀ n, Q (n + 1) = (Q n).next .first div (L n) (rd n))
    (hdiv : 4 ≤ div.toNat) : Receives Q b m (g + tail .first div) := by
  obtain ⟨hrdy, herr⟩ := hquiet g (by omega) le_rfl
  have hstep := hQ g
  simp only [next, shift, hs, hsample, if_true, waitFor] at hstep
  have hh := holds_wait hQ (m := g + 1) (w := div.toNat) (by rw [hstep])
    (by rw [hstep]; exact toNat_setWidth_div div) (by omega)
  have hat : g + 1 + div.toNat = g + tail .first div := by
    rw [tail]
    omega
  rw [hat] at hh
  have hfields : (Q (g + 1)).ready = false ∧ (Q (g + 1)).error = false ∧
      (Q (g + 1)).returnState = .idle ∧ (Q (g + 1)).rxData = b ∧ (Q (g + 1)).bitIdx = 0#3 := by
    rw [hstep]
    exact ⟨hrdy, herr, rfl, hdata, hidx⟩
  obtain ⟨hrdy1, herr1, hret1, hdata1, hidx1⟩ := hfields
  refine receives_of_report (hh.next.trans hret1) (hh.idx.trans hidx1) (fun k hk hk' => ?_)
    (show m < g + tail .first div by omega) le_rfl (hh.data.trans hdata1) ?_ fun k hk hk' hne => ?_
  · rcases Nat.lt_or_ge g k with hlt | hge
    · exact (hh.error k hlt hk').trans herr1
    · exact (hquiet k hk hge).2
  · rw [hh.last, hrdy1, hret1]
    rfl
  -- before the wait, at its start and during it nothing is reported
  · rcases Nat.lt_or_ge g k with hlt | hge
    · rcases Nat.lt_or_ge (g + 1) k with hlt' | hge'
      · rw [hh.ready k hlt' (by omega), hrdy1]
        rfl
      · obtain rfl : k = g + 1 := by omega
        exact hrdy1
    · exact (hquiet k hk hge).1

/-- The second version reports it in the middle of the stop bit, and waits for a quarter. -/
theorem receives_second (hQ : ∀ n, Q (n + 1) = (Q n).next .second div (L n) (rd n))
    (hdiv : 4 ≤ div.toNat) : Receives Q b m (g + tail .second div) := by
  obtain ⟨-, herr⟩ := hquiet g (by omega) le_rfl
  have hstep := hQ g
  simp only [next, shift, hs, hsample, if_true, waitFor] at hstep
  have hw : (Q (g + 1)).waitStates.toNat = div.toNat / 4 := by
    rw [hstep]
    show (div.setWidth 17 >>> 2).toNat = _
    rw [BitVec.toNat_ushiftRight, toNat_setWidth_div, Nat.shiftRight_eq_div_pow]
  have hh := holds_wait hQ (m := g + 1) (by rw [hstep]) hw (by omega)
  have hat : g + 1 + div.toNat / 4 = g + tail .second div := by
    rw [tail]
    omega
  rw [hat] at hh
  have hfields : (Q (g + 1)).ready = true ∧ (Q (g + 1)).error = false ∧
      (Q (g + 1)).returnState = .idle ∧ (Q (g + 1)).rxData = b ∧ (Q (g + 1)).bitIdx = 0#3 := by
    rw [hstep]
    exact ⟨rfl, herr, rfl, hdata, hidx⟩
  obtain ⟨hrdy1, herr1, hret1, hdata1, hidx1⟩ := hfields
  refine receives_of_report (hh.next.trans hret1) (hh.idx.trans hidx1) (fun k hk hk' => ?_)
    (show m < g + 1 by omega) (by omega) hdata1 hrdy1 fun k hk hk' hne => ?_
  · rcases Nat.lt_or_ge g k with hlt | hge
    · exact (hh.error k hlt hk').trans herr1
    · exact (hquiet k hk hge).2
  -- the wait takes the report back in its first cycle
  · rcases Nat.lt_or_ge g k with hlt | hge
    · rcases Nat.lt_or_ge k (g + tail .second div) with hlt' | hge'
      · exact hh.ready k (by omega) hlt'
      · obtain rfl : k = g + tail .second div := by omega
        exact hh.last
    · exact (hquiet k hk hge).1

end Tail

/-- **The receiver receives the byte on the line.** -/
theorem frame_run (hQ : ∀ n, Q (n + 1) = (Q n).next v div (L n) (rd n)) {b : BitVec 8} {f : ℕ}
    (hdiv : 4 ≤ div.toNat) (hL : Carries div L b f) (hs : (Q (f + 2)).state = .idle)
    (hi : (Q (f + 2)).bitIdx = 0#3) (he : (Q (f + 2)).edge = true) :
    Receives Q b (f + 2) (f + 3 + div.toNat / 2 + 9 * (div.toNat + 1) + tail v div) := by
  obtain ⟨hstop, hdata, hidx, hsample, hquiet⟩ := stop_run hQ hdiv hL hs hi he
  cases v with
  | first => exact receives_first hstop hsample hdata hidx (by omega) hquiet hQ hdiv
  | second => exact receives_second hstop hsample hdata hidx (by omega) hquiet hQ hdiv

end RxUart

end KianRiscV
