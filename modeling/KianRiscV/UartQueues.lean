/-
# The buffers of the UART as queues

`fifo.v` is a queue for a user that does not push to and pop from an empty buffer in one cycle
(`fifo_is_queue_iff`).  Both shifters push only when it is not full and pop only when it is not
empty.  Over a run, the bytes written to the transmitter are those its
shifter has taken followed by those in the buffer, and the bytes the receiver has pushed are
those that were read followed by those in the buffer.
-/
import KianRiscV.Uart

namespace KianRiscV

namespace Fifo

variable {aw : ℕ} {α : Type} {s : Fifo aw α}

/-! ## The buffer -/

/-- The contents, the oldest first. -/
def toList (s : Fifo aw α) : List α := Ring.slots s.ram s.rdPtr s.cnt.toNat

/-- The pointers are as far apart as the count says. -/
structure WF (s : Fifo aw α) : Prop where
  bound : s.cnt.toNat ≤ 2 ^ aw
  wrPtr : s.wrPtr = s.rdPtr + BitVec.ofNat aw s.cnt.toNat

theorem wf_resetState (ram : BitVec aw → α) : (resetState ram).WF := by
  constructor <;> simp [resetState]

theorem empty_iff : s.empty = true ↔ s.toList = [] := by
  rw [← List.length_eq_zero_iff, toList, Ring.length_slots, empty, beq_iff_eq,
    ← BitVec.toNat_inj]
  simp

theorem full_iff : s.full = true ↔ s.toList.length = 2 ^ aw := by
  have hlt : 2 ^ aw < 2 ^ (aw + 1) := Nat.pow_lt_pow_right (by decide) (by omega)
  rw [toList, Ring.length_slots, full, beq_iff_eq, ← BitVec.toNat_inj, BitVec.toNat_ofNat,
    Nat.mod_eq_of_lt hlt]

/-- A buffer that is not empty: the oldest entry and the rest. -/
theorem exists_cnt (h : s.empty = false) :
    ∃ n, s.cnt.toNat = n + 1 ∧ s.toList = s.dout :: Ring.slots s.ram (s.rdPtr + 1) n := by
  have hne : s.cnt.toNat ≠ 0 := by
    intro h0
    have hnil : s.toList = [] := by rw [toList, h0, Ring.slots_zero]
    rw [empty_iff.2 hnil] at h
    exact Bool.noConfusion h
  obtain ⟨n, hn⟩ : ∃ n, s.cnt.toNat = n + 1 := ⟨s.cnt.toNat - 1, by omega⟩
  refine ⟨n, hn, ?_⟩
  rw [toList, hn, Ring.slots_succ]
  rfl

theorem WF.cnt_lt (h : s.WF) (hf : s.full = false) : s.cnt.toNat < 2 ^ aw := by
  apply lt_of_le_of_ne h.bound
  intro heq
  have hfull : s.full = true := full_iff.2 (by rw [toList, Ring.length_slots, heq])
  rw [hf] at hfull
  exact Bool.noConfusion hfull

theorem toNat_add_one (h : s.cnt.toNat < 2 ^ aw) : (s.cnt + 1).toNat = s.cnt.toNat + 1 := by
  have hlt : 2 ^ aw < 2 ^ (aw + 1) := Nat.pow_lt_pow_right (by decide) (by omega)
  have hone : (1 : BitVec (aw + 1)).toNat = 1 := BitVec.toNat_one (by omega)
  rw [BitVec.toNat_add, hone, Nat.mod_eq_of_lt (by omega)]

theorem toNat_sub_one {n : ℕ} (h : s.cnt.toNat = n + 1) : (s.cnt - 1).toNat = n := by
  have hlt := s.cnt.isLt
  have hone : (1 : BitVec (aw + 1)).toNat = 1 := BitVec.toNat_one (by omega)
  rw [BitVec.toNat_sub, hone, h, show 2 ^ (aw + 1) - 1 + (n + 1) = n + 2 ^ (aw + 1) by omega,
    Nat.add_mod_right, Nat.mod_eq_of_lt (by omega)]

/-- Nothing is pushed or popped. -/
theorem next_eq_self {din : α} {push pop : Bool} (hw : s.wrAccept push pop = false)
    (hr : s.rdAccept pop = false) (hcnt : s.cntNext push pop = s.cnt) :
    s.next din push pop = s := by
  simp [Fifo.next, hw, hr, hcnt]

/-- A pop takes the oldest entry. -/
theorem WF.pop (h : s.WF) (din : α) (he : s.empty = false) :
    (s.next din false true).WF ∧ (s.next din false true).toList = s.toList.tail := by
  obtain ⟨n, hn, hlist⟩ := exists_cnt he
  have hw : s.wrAccept false true = false := rfl
  have hr : s.rdAccept true = true := by simp [rdAccept, he]
  have hcnt : (s.cntNext false true).toNat = n := by
    simp only [cntNext, he]
    exact toNat_sub_one hn
  have hb := h.bound
  refine ⟨⟨?_, ?_⟩, ?_⟩
  · simp only [Fifo.next, hcnt]
    omega
  · simp only [Fifo.next, hw, hr, hcnt, if_true, Bool.false_eq_true, if_false]
    rw [Ring.add_one_add_ofNat, ← hn]
    exact h.wrPtr
  · rw [hlist]
    simp [toList, Fifo.next, hw, hr, hcnt]

/-- A push adds the newest one. -/
theorem WF.push (h : s.WF) (din : α) (hf : s.full = false) :
    (s.next din true false).WF ∧ (s.next din true false).toList = s.toList ++ [din] := by
  have hlt := h.cnt_lt hf
  have hr : s.rdAccept false = false := rfl
  have hw : s.wrAccept true false = true := by simp [wrAccept, hf]
  have hcnt : (s.cntNext true false).toNat = s.cnt.toNat + 1 := by
    simp only [cntNext, hf]
    exact toNat_add_one hlt
  refine ⟨⟨?_, ?_⟩, ?_⟩
  · simp only [Fifo.next, hcnt]
    omega
  · simp only [Fifo.next, hw, hr, hcnt, if_true, Bool.false_eq_true, if_false]
    rw [h.wrPtr, Ring.add_ofNat_add_one]
  · simp only [toList, Fifo.next, hw, hr, hcnt, if_true, Bool.false_eq_true, if_false]
    rw [h.wrPtr]
    exact Ring.slots_update hlt din

/-- A push and a pop in one cycle: the new entry may take the place that becomes free. -/
theorem WF.pushPop (h : s.WF) (din : α) (he : s.empty = false) :
    (s.next din true true).WF ∧ (s.next din true true).toList = s.toList.tail ++ [din] := by
  obtain ⟨n, hn, hlist⟩ := exists_cnt he
  have hw : s.wrAccept true true = true := by simp [wrAccept]
  have hr : s.rdAccept true = true := by simp [rdAccept, he]
  have hb := h.bound
  have hwr : s.wrPtr = s.rdPtr + 1 + BitVec.ofNat aw n := by
    rw [Ring.add_one_add_ofNat, ← hn]
    exact h.wrPtr
  refine ⟨⟨h.bound, ?_⟩, ?_⟩
  · simp only [Fifo.next, hw, hr, cntNext, if_true]
    rw [hwr, hn, Ring.add_ofNat_add_one]
  · rw [hlist]
    simp only [toList, Fifo.next, hw, hr, cntNext, if_true, hn, List.tail_cons]
    rw [hwr]
    exact Ring.slots_update (by omega) din

/-- **The buffer is a queue**, but for a push and a pop of an empty one: the count then stays at
zero although the entry is written. -/
theorem WF.step (h : s.WF) (din : α) (push pop : Bool)
    (hne : ¬ (push = true ∧ pop = true ∧ s.empty = true)) :
    (s.next din push pop).WF ∧ (s.next din push pop).toList =
      BoundedQueue.step (2 ^ aw) s.toList din push pop := by
  have hfull : (s.toList.length != 2 ^ aw) = !s.full := by
    rw [Bool.eq_iff_iff, bne_iff_ne, Bool.not_eq_true', Ne, ← full_iff, Bool.not_eq_true]
  rw [BoundedQueue.step, hfull]
  cases push with
  | false =>
    cases pop with
    | false =>
      rw [next_eq_self rfl rfl rfl]
      exact ⟨h, by simp⟩
    | true =>
      cases he : s.empty with
      | true =>
        rw [next_eq_self rfl (by simp [rdAccept, he]) (by simp [cntNext, he])]
        exact ⟨h, by simp [empty_iff.1 he]⟩
      | false =>
        obtain ⟨hwf, hlist⟩ := h.pop din he
        exact ⟨hwf, by simpa using hlist⟩
  | true =>
    cases pop with
    | false =>
      cases hf : s.full with
      | true =>
        rw [next_eq_self (by simp [wrAccept, hf]) rfl (by simp [cntNext, hf])]
        exact ⟨h, by simp⟩
      | false =>
        obtain ⟨hwf, hlist⟩ := h.push din hf
        exact ⟨hwf, by simpa using hlist⟩
    | true =>
      have he : s.empty = false := by
        rw [Bool.eq_false_iff]
        exact fun he => hne ⟨rfl, rfl, he⟩
      obtain ⟨hwf, hlist⟩ := h.pushPop din he
      exact ⟨hwf, by simpa using hlist⟩

/-- As both shifters use it: pushed when not full and popped when not empty. -/
theorem WF.next (h : s.WF) (din : α) (push pop : Bool) (hpop : pop = true → s.empty = false)
    (hpush : push = true → s.full = false) :
    (s.next din push pop).WF ∧ (s.next din push pop).toList =
      (if pop then s.toList.tail else s.toList) ++ (if push then [din] else []) := by
  have hne : ¬ (push = true ∧ pop = true ∧ s.empty = true) := by
    rintro ⟨-, hp, he⟩
    rw [hpop hp] at he
    exact Bool.noConfusion he
  obtain ⟨hwf, hlist⟩ := h.step din push pop hne
  refine ⟨hwf, hlist.trans ?_⟩
  rw [BoundedQueue.step]
  cases push with
  | false => rfl
  | true =>
    have hroom : (s.toList.length != 2 ^ aw) = true := by
      rw [bne_iff_ne, Ne, ← full_iff, hpush rfl]
      decide
    rw [hroom]
    rfl

end Fifo

/-! ## Whole runs of the buffer -/

/-- What comes to a buffer in a cycle. -/
structure FifoIn (α : Type) where
  din : α
  push : Bool
  pop : Bool

namespace Fifo

variable {aw : ℕ} {α : Type} (ram : BitVec aw → α) (inp : ℕ → FifoIn α)

/-- The registers `n` cycles after reset. -/
def after (n : ℕ) : Fifo aw α :=
  Sync.run (fun s i => s.next i.din i.push i.pop) (resetState ram) inp n

/-- The queue after the same `n` cycles. -/
def queue (aw : ℕ) (inp : ℕ → FifoIn α) (n : ℕ) : List α :=
  Sync.run (fun q i => BoundedQueue.step (2 ^ aw) q i.din i.push i.pop) [] inp n

/-- The entry accepted in cycle `n`. -/
def accepted (n : ℕ) : Option α :=
  if (after ram inp n).wrAccept (inp n).push (inp n).pop then some (inp n).din else none

/-- The entry read in cycle `n`. -/
def read (n : ℕ) : Option α :=
  if (after ram inp n).rdAccept (inp n).pop then some (after ram inp n).dout else none

/-- The outputs of the buffer are those of the queue. -/
structure Shows (s : Fifo aw α) (q : List α) : Prop where
  empty : s.empty = true ↔ q = []
  full : s.full = true ↔ q.length = 2 ^ aw
  dout : ∀ x, q.head? = some x → s.dout = x

variable {ram inp} {s : Fifo aw α}

theorem shows_toList (s : Fifo aw α) : s.Shows s.toList := by
  refine ⟨empty_iff, full_iff, ?_⟩
  intro x hx
  cases he : s.empty with
  | true =>
    rw [empty_iff.1 he] at hx
    cases hx
  | false =>
    obtain ⟨n, -, hlist⟩ := exists_cnt he
    rw [hlist] at hx
    exact Option.some.inj hx

/-- Cycle `n` does not push to and pop from an empty buffer. -/
def Proper (ram : BitVec aw → α) (inp : ℕ → FifoIn α) (n : ℕ) : Prop :=
  ¬ ((inp n).push = true ∧ (inp n).pop = true ∧ (after ram inp n).empty = true)

/-- In proper cycles the contents are those of the queue. -/
theorem toList_after {n : ℕ} (h : ∀ k < n, Proper ram inp k) :
    (after ram inp n).WF ∧ (after ram inp n).toList = queue aw inp n := by
  induction n with
  | zero =>
    refine ⟨wf_resetState ram, ?_⟩
    have hzero : (0 : BitVec (aw + 1)).toNat = 0 := BitVec.toNat_zero
    show Ring.slots ram 0 (0 : BitVec (aw + 1)).toNat = []
    rw [hzero, Ring.slots_zero]
  | succ n ih =>
    obtain ⟨hwf, hlist⟩ := ih fun k hk => h k (by omega)
    obtain ⟨hwf', hlist'⟩ := hwf.step (inp n).din (inp n).push (inp n).pop (h n (by omega))
    refine ⟨hwf', hlist'.trans ?_⟩
    rw [hlist]
    rfl

/-- A buffer that shows a queue accepts and reads what the queue takes in and gives out. -/
theorem Shows.accepted_eq {n : ℕ} (h : (after ram inp n).Shows (queue aw inp n)) :
    accepted ram inp n = BoundedQueue.pushed (2 ^ aw) (queue aw inp n) (inp n).din (inp n).push
      (inp n).pop := by
  have hfull : ((queue aw inp n).length != 2 ^ aw) = !(after ram inp n).full := by
    rw [Bool.eq_iff_iff, bne_iff_ne, Bool.not_eq_true', Ne, ← h.full, Bool.not_eq_true]
  rw [accepted, wrAccept, BoundedQueue.pushed, hfull]

theorem Shows.read_eq {n : ℕ} (h : (after ram inp n).Shows (queue aw inp n)) :
    read ram inp n = BoundedQueue.popped (queue aw inp n) (inp n).pop := by
  rw [read, rdAccept, BoundedQueue.popped]
  cases (inp n).pop with
  | false => rfl
  | true =>
    cases hq : queue aw inp n with
    | nil =>
      rw [h.empty.2 hq]
      rfl
    | cons x q =>
      have he : (after ram inp n).empty = false := by
        rw [Bool.eq_false_iff, Ne, h.empty, hq]
        exact List.cons_ne_nil x q
      rw [he, h.dout x (by rw [hq]; rfl)]
      rfl

/-- What the queue has taken in is what it has given out and what it holds. -/
theorem log_accepted {n : ℕ} (h : ∀ k < n, (after ram inp k).Shows (queue aw inp k)) :
    Sync.log (accepted ram inp) n = Sync.log (read ram inp) n ++ queue aw inp n := by
  induction n with
  | zero => rfl
  | succ n ih =>
    have hn := h n (Nat.lt_succ_self n)
    have hstep : queue aw inp (n + 1) = BoundedQueue.step (2 ^ aw) (queue aw inp n) (inp n).din
        (inp n).push (inp n).pop := rfl
    rw [Sync.log_succ, Sync.log_succ, ih fun k hk => h k (by omega), hn.accepted_eq, hn.read_eq,
      hstep, List.append_assoc, List.append_assoc, BoundedQueue.popped_append_step]

/-- The buffer is a queue of capacity `2 ^ aw` for as long as no cycle pushes to and pops from an
empty buffer, and no longer.  As long as it is one, it accepts what the queue takes in and reads
what the queue gives out, and every entry accepted is read once, in order, or still there. -/
theorem fifo_is_queue_iff {aw : ℕ} {α : Type} (ram : BitVec aw → α) (inp : ℕ → FifoIn α) (n : ℕ) :
    ((∀ k ≤ n, (after ram inp k).Shows (queue aw inp k)) ↔
      ∀ k < n, ¬ ((inp k).push = true ∧ (inp k).pop = true ∧ (after ram inp k).empty = true)) ∧
    ((∀ k ≤ n, (after ram inp k).Shows (queue aw inp k)) →
      (∀ k ≤ n, accepted ram inp k = BoundedQueue.pushed (2 ^ aw) (queue aw inp k) (inp k).din
          (inp k).push (inp k).pop ∧
        read ram inp k = BoundedQueue.popped (queue aw inp k) (inp k).pop) ∧
      Sync.log (accepted ram inp) n = Sync.log (read ram inp) n ++ queue aw inp n) := by
  have hshows : ∀ {d : ℕ}, (∀ k < d, Proper ram inp k) →
      (after ram inp d).Shows (queue aw inp d) := by
    intro d hd
    rw [← (toList_after hd).2]
    exact shows_toList _
  constructor
  · apply Sync.forall_le_iff (hshows fun k hk => absurd hk (Nat.not_lt_zero k))
    intro d _ hd hproper
    constructor
    · rintro hd' ⟨hpush, hpop, he⟩
      have hstep : queue aw inp (d + 1) = BoundedQueue.step (2 ^ aw) (queue aw inp d) (inp d).din
          (inp d).push (inp d).pop := rfl
      -- The count stays at zero, while the queue holds the entry pushed.
      have hnext : (after ram inp (d + 1)).empty = true := by
        have hrun : after ram inp (d + 1)
            = (after ram inp d).next (inp d).din (inp d).push (inp d).pop := rfl
        rw [hrun, hpush, hpop]
        exact he
      rw [hd'.empty, hstep, hpush, hpop, hd.empty.1 he] at hnext
      simp [BoundedQueue.step] at hnext
    · intro hC
      apply hshows
      intro k hk
      rcases Nat.lt_succ_iff_lt_or_eq.1 hk with hlt | rfl
      · exact hproper k hlt
      · exact hC
  · intro h
    exact ⟨fun k hk => ⟨(h k hk).accepted_eq, (h k hk).read_eq⟩,
      log_accepted fun k hk => h k hk.le⟩

/-- A byte pushed to an empty buffer in a cycle that pops: the buffer stays empty. -/
theorem push_pop_empty_lost :
    ¬ ∀ (ram : BitVec 4 → BitVec 8) (inp : ℕ → FifoIn (BitVec 8)) (n : ℕ),
      (after ram inp n).Shows (queue 4 inp n) := by
  intro h
  have hshow := h (fun _ => 0#8) (fun _ => ⟨0x41#8, true, true⟩) 1
  have hempty : (after (fun _ => 0#8) (fun _ => ⟨0x41#8, true, true⟩) 1 : Fifo 4 (BitVec 8)).empty
      = true := by decide
  have hqueue : queue 4 (fun _ => (⟨0x41#8, true, true⟩ : FifoIn (BitVec 8))) 1 ≠ [] := by decide
  exact hqueue (hshow.empty.1 hempty)

end Fifo

/-! ## The transmitter -/

namespace TxUart

variable {aw : ℕ} {v : UartVersion} {stopBits : ℕ} {div : BitVec 16} {s : TxUart aw}
  {valid : Bool} {txData : BitVec 8}

/-- The byte the shifter takes. -/
def taken (s : TxUart aw) : Option (BitVec 8) := if s.takes then some s.fifo.dout else none

/-- The byte that is written. -/
def written (s : TxUart aw) (valid : Bool) (txData : BitVec 8) : Option (BitVec 8) :=
  if valid && !s.fifo.full then some txData else none

/-- The bytes the shifter has not taken yet: a byte that is being popped is taken already. -/
def pending (s : TxUart aw) : List (BitVec 8) :=
  if s.fifoPop then s.fifo.toList.tail else s.fifo.toList

/-- The buffer is well-formed, and the byte that is being popped is there. -/
structure Ok (s : TxUart aw) : Prop where
  wf : s.fifo.WF
  pop : s.fifoPop = true → s.fifo.empty = false ∧ s.state ≠ .idle

theorem ok_resetState (ram : BitVec aw → BitVec 8) : (resetState ram).Ok :=
  ⟨Fifo.wf_resetState ram, fun h => absurd h Bool.false_ne_true⟩

theorem next_fifoPop : (s.next v stopBits div valid txData).fifoPop = s.takes := by
  cases hst : s.state with
  | idle =>
    cases he : s.fifo.empty with
    | true => simp [next, shift, takes, hst, he]
    | false => cases v <;> simp [next, shift, takes, hst, he, waitFor]
  | wait =>
    simp only [next, shift, takes, hst]
    split <;> rfl
  | _ => simp [next, shift, takes, hst, waitFor]

theorem takes_iff : s.takes = true ↔ s.state = .idle ∧ s.fifo.empty = false := by
  simp [takes]

/-- Having taken a byte, the shifter is busy. -/
theorem next_state_of_takes (h : s.takes = true) :
    (s.next v stopBits div valid txData).state ≠ .idle := by
  obtain ⟨hst, he⟩ := takes_iff.1 h
  cases v <;> simp [next, shift, hst, he, waitFor]

/-- No byte is lost or doubled by an edge. -/
theorem Ok.next (h : s.Ok) (v : UartVersion) (stopBits : ℕ) (div : BitVec 16) (valid : Bool)
    (txData : BitVec 8) :
    (s.next v stopBits div valid txData).Ok ∧
      s.pending ++ (s.written valid txData).toList =
        s.taken.toList ++ (s.next v stopBits div valid txData).pending := by
  obtain ⟨hwf, hlist⟩ := h.wf.next txData (valid && !s.fifo.full) s.fifoPop
    (fun hp => (h.pop hp).1) (fun hp => by simp_all)
  have hfifo : (s.next v stopBits div valid txData).fifo =
      s.fifo.next txData (valid && !s.fifo.full) s.fifoPop := rfl
  have hw : (s.written valid txData).toList =
      if valid && !s.fifo.full then [txData] else [] := by
    rw [written]
    split <;> rfl
  rw [← hw] at hlist
  by_cases ht : s.takes = true
  · -- The byte taken is still in the buffer, and the pop follows.
    obtain ⟨hst, he⟩ := takes_iff.1 ht
    have hnp : s.fifoPop = false := by
      by_contra hp
      exact (h.pop (by simpa using hp)).2 hst
    obtain ⟨n, -, hcons⟩ := Fifo.exists_cnt he
    rw [hnp, if_neg Bool.false_ne_true] at hlist
    refine ⟨⟨hwf, fun _ => ⟨?_, next_state_of_takes ht⟩⟩, ?_⟩
    · have hne : ¬ (s.fifo.next txData (valid && !s.fifo.full) s.fifoPop).toList = [] := by
        rw [hnp, hlist, hcons]
        simp
      rw [hfifo]
      exact Bool.eq_false_of_not_eq_true fun hno => hne (Fifo.empty_iff.1 hno)
    · rw [pending, hnp, if_neg Bool.false_ne_true, pending, next_fifoPop, ht, if_pos rfl, hfifo,
        hnp, hlist, taken, if_pos ht, hcons]
      rfl
  · have hpop : (s.next v stopBits div valid txData).fifoPop = false := by
      rw [next_fifoPop]
      simpa using ht
    refine ⟨⟨hwf, fun hno => absurd (hpop.symm.trans hno) Bool.false_ne_true⟩, ?_⟩
    rw [taken, if_neg ht, pending, pending, hpop, if_neg Bool.false_ne_true, hfifo, hlist]
    rfl

/-- A byte that is taken is the first of those pending. -/
theorem Ok.taken_prefix (h : s.Ok) : s.taken.toList <+: s.pending := by
  by_cases ht : s.takes = true
  · obtain ⟨hst, he⟩ := takes_iff.1 ht
    have hnp : s.fifoPop = false := by
      by_contra hp
      exact (h.pop (by simpa using hp)).2 hst
    obtain ⟨n, -, hcons⟩ := Fifo.exists_cnt he
    rw [pending, hnp, if_neg Bool.false_ne_true, taken, if_pos ht, hcons]
    exact ⟨_, rfl⟩
  · rw [taken, if_neg ht]
    exact List.nil_prefix

/-! ## Runs of the transmitter -/

section

variable {R : ℕ → TxUart aw} {divs : ℕ → BitVec 16} {valids : ℕ → Bool} {datas : ℕ → BitVec 8}
  (hR : ∀ n, R (n + 1) = (R n).next v stopBits (divs n) (valids n) (datas n)) (h0 : (R 0).Ok)
  (hnil : (R 0).pending = [])

include hR h0 hnil

/-- The bytes written are those taken and those pending. -/
theorem log_written (n : ℕ) :
    (R n).Ok ∧ Sync.log (fun k => (R k).written (valids k) (datas k)) n =
      Sync.log (fun k => (R k).taken) n ++ (R n).pending := by
  induction n with
  | zero => exact ⟨h0, by rw [hnil]; rfl⟩
  | succ n ih =>
    obtain ⟨hok, heq⟩ := ih.1.next v stopBits (divs n) (valids n) (datas n)
    rw [← hR n] at hok heq
    refine ⟨hok, ?_⟩
    rw [Sync.log_succ, Sync.log_succ, ih.2, List.append_assoc, heq, List.append_assoc]

/-- A byte is taken in a later cycle than the one it is written in. -/
theorem log_taken_prefix (n : ℕ) :
    Sync.log (fun k => (R k).taken) (n + 1) <+:
      Sync.log (fun k => (R k).written (valids k) (datas k)) n := by
  obtain ⟨hok, heq⟩ := log_written hR h0 hnil n
  rw [Sync.log_succ, heq]
  exact (List.prefix_append_right_inj _).2 hok.taken_prefix

end

/-- The frame bits the shifter still has to set up from the state on. -/
def phasesLeft (st : TxState) (bitIdx : BitVec 3) : ℕ :=
  match st with
  | .idle | .wait => 0
  | .stop => 1
  | .data => 9 - bitIdx.toNat
  | .start => 10

/-- A bound for the time until `S_IDLE`, whatever the divisors are. -/
def rank (s : TxUart aw) : ℕ :=
  if s.state = .wait then
    phasesLeft s.returnState s.bitIdx * (2 ^ 17 + 1) + s.waitStates.toNat + 1
  else phasesLeft s.state s.bitIdx * (2 ^ 17 + 1)

/-- The wait leads out of it. -/
def Sound (s : TxUart aw) : Prop := s.returnState ≠ .wait

theorem Sound.next (h : s.Sound) : (s.next v stopBits div valid txData).Sound := by
  unfold Sound at h ⊢
  cases hst : s.state with
  | idle =>
    cases he : s.fifo.empty with
    | true => simpa [TxUart.next, shift, hst, he] using h
    | false => cases v <;> simp [TxUart.next, shift, hst, he, waitFor, h]
  | wait =>
    simp only [TxUart.next, shift, hst]
    split <;> exact h
  | data =>
    simp only [TxUart.next, shift, hst, waitFor]
    split <;> decide
  | _ => simp [TxUart.next, shift, hst, waitFor]

theorem rank_waitFor (s : TxUart aw) (n : BitVec 17) (st : TxState) :
    (waitFor s n st).rank < (phasesLeft st s.bitIdx + 1) * (2 ^ 17 + 1) := by
  have hn := n.isLt
  simp only [rank, waitFor, if_true]
  omega

/-- Outside `S_IDLE` every edge brings the shifter nearer to it. -/
theorem rank_next (h : s.Sound) (hst : s.state ≠ .idle) :
    (s.next v stopBits div valid txData).rank < s.rank := by
  have hrank : (s.next v stopBits div valid txData).rank = (s.shift v stopBits div).rank := rfl
  rw [hrank]
  cases hs : s.state with
  | idle => exact absurd hs hst
  | start =>
    simp only [shift, hs]
    refine (rank_waitFor _ _ _).trans_le ?_
    simp [rank, hs, phasesLeft]
    omega
  | data =>
    simp only [shift, hs]
    refine (rank_waitFor _ _ _).trans_le ?_
    have hdata : s.rank = (9 - s.bitIdx.toNat) * (2 ^ 17 + 1) := by simp [rank, hs, phasesLeft]
    rw [hdata]
    by_cases h7 : s.bitIdx = 7#3
    · rw [if_pos h7, h7]
      exact le_rfl
    · have hlt := s.bitIdx.isLt
      have hne : s.bitIdx.toNat ≠ 7 := fun he => h7 (BitVec.eq_of_toNat_eq he)
      have hadd : (s.bitIdx + 1).toNat = s.bitIdx.toNat + 1 := by
        rw [BitVec.toNat_add]
        exact Nat.mod_eq_of_lt (by simp; omega)
      rw [if_neg h7]
      simp only [phasesLeft, hadd]
      omega
  | stop =>
    simp only [shift, hs]
    refine (rank_waitFor _ _ _).trans_le ?_
    simp [rank, hs, phasesLeft]
  | wait =>
    simp only [shift, hs]
    by_cases hw : s.waitStates = 0#17
    · simp only [hw, if_true, rank, if_neg h]
      simp [hs]
    · have hlt := s.waitStates.isLt
      have hpos : s.waitStates.toNat ≠ 0 := fun he => hw (BitVec.eq_of_toNat_eq he)
      have hsub : (s.waitStates - 1).toNat = s.waitStates.toNat - 1 := by
        rw [BitVec.toNat_sub]
        simp
        omega
      simp only [if_neg hw, rank, hs, if_true, hsub]
      omega

section

variable {R : ℕ → TxUart aw} {divs : ℕ → BitVec 16} {valids : ℕ → Bool} {datas : ℕ → BitVec 8}
  (hR : ∀ n, R (n + 1) = (R n).next v stopBits (divs n) (valids n) (datas n))
  (hsound : (R 0).Sound)

include hR hsound

/-- The shifter always comes back to `S_IDLE`. -/
theorem exists_idle (n : ℕ) : ∃ m, n ≤ m ∧ (R m).state = .idle := by
  have hall : ∀ k, (R k).Sound := by
    intro k
    induction k with
    | zero => exact hsound
    | succ k ih =>
      rw [hR k]
      exact ih.next
  refine Sync.eventually_of_rank (P := fun _ => True) (fun k => (R k).rank) (fun k _ => ?_) trivial
  by_cases hst : (R k).state = .idle
  · exact .inl hst
  · refine .inr ⟨k + 1, Nat.lt_succ_self k, trivial, ?_⟩
    rw [hR k]
    exact rank_next (hall k) hst

variable (h0 : (R 0).Ok) (hnil : (R 0).pending = [])

include h0 hnil

/-- A byte that is pending leads to a byte that is taken. -/
theorem exists_takes (n : ℕ) (hp : (R n).pending ≠ []) : ∃ m, n ≤ m ∧ (R m).takes = true := by
  by_contra hnone
  have hno : ∀ m, n ≤ m → ¬ (R m).takes = true := fun m hm ht => hnone ⟨m, hm, ht⟩
  have hkeep : ∀ m, n ≤ m → (R m).pending ≠ [] := by
    intro m hm
    induction m, hm using Nat.le_induction with
    | base => exact hp
    | succ m hm ih =>
      have heq := ((log_written hR h0 hnil m).1.next v stopBits (divs m) (valids m) (datas m)).2
      rw [← hR m, taken, if_neg (hno m hm)] at heq
      intro hnil'
      rw [hnil'] at heq
      exact ih (List.append_eq_nil_iff.1 heq).1
  obtain ⟨m, hm, hst⟩ := exists_idle hR hsound n
  have hnp : (R m).fifoPop = false := by
    by_contra hpop
    exact ((log_written hR h0 hnil m).1.pop (by simpa using hpop)).2 hst
  have hne := hkeep m hm
  rw [pending, hnp, if_neg Bool.false_ne_true] at hne
  refine hno m hm (takes_iff.2 ⟨hst, ?_⟩)
  exact Bool.eq_false_of_not_eq_true fun he => hne (Fifo.empty_iff.1 he)

/-- Every byte written is taken in the end. -/
theorem exists_taken (n : ℕ) :
    ∃ m, n ≤ m ∧ Sync.log (fun k => (R k).written (valids k) (datas k)) n <+:
      Sync.log (fun k => (R k).taken) m := by
  refine Sync.exists_log_prefix (fun k => (log_written hR h0 hnil k).2) (fun k hk => ?_) n
  obtain ⟨m, hkm, hm⟩ := exists_takes hR hsound h0 hnil k hk
  exact ⟨m, hkm, by rw [taken, if_pos hm]; rfl⟩

/-- If nothing is written any more, then the buffer has space at some time. -/
theorem exists_not_full {n : ℕ}
    (hno : ∀ m, n ≤ m → (R m).written (valids m) (datas m) = none) :
    ∃ m, n ≤ m ∧ (R m).fifo.full = false := by
  obtain ⟨m, hnm, hm⟩ := exists_taken hR hsound h0 hnil n
  obtain ⟨hok, hsplit⟩ := log_written hR h0 hnil m
  rw [Sync.log_eq_of_none _ hnm fun j hj _ => hno j hj] at hsplit
  have hpend : (R m).pending = [] := by
    have hle := hm.length_le
    rw [hsplit, List.length_append] at hle
    exact List.length_eq_zero_iff.1 (by omega)
  have htake : (R m).taken = none := by
    have hpre := hok.taken_prefix
    rw [hpend, List.prefix_nil, Option.toList_eq_nil_iff] at hpre
    exact hpre
  -- The last byte may still be in the buffer, on its way out.
  have hpop : (R (m + 1)).fifoPop = false := by
    rw [hR m, next_fifoPop]
    apply Bool.eq_false_of_not_eq_true
    intro ht
    rw [taken, if_pos ht] at htake
    exact absurd htake (Option.some_ne_none _)
  have hstep := (hok.next v stopBits (divs m) (valids m) (datas m)).2
  rw [← hR m, hpend, htake, hno m hnm, pending, hpop, if_neg Bool.false_ne_true] at hstep
  have hempty : (R (m + 1)).fifo.toList = [] := hstep.symm
  refine ⟨m + 1, by omega, Bool.eq_false_of_not_eq_true fun hf => ?_⟩
  have hlen := Fifo.full_iff.1 hf
  rw [hempty, List.length_nil] at hlen
  exact absurd hlen.symm (Nat.two_pow_pos aw).ne'

end

end TxUart

/-! ## The receiver -/

namespace RxUart

variable {aw : ℕ} {s : RxUart aw}

/-- The byte that is put into the buffer. -/
def pushed (s : RxUart aw) : Option (BitVec 8) := if s.push then some s.rxData else none

/-- The byte that is read. -/
def popped (s : RxUart aw) (dataRd : Bool) : Option (BitVec 8) :=
  if dataRd && !s.fifo.empty then some s.fifo.dout else none

/-- A read returns all ones if and only if there is no byte. -/
theorem data_eq_ones : s.data = 0xFFFFFFFF#32 ↔ s.fifo.empty = true := by
  cases he : s.fifo.empty with
  | true => simp [RxUart.data, he]
  | false =>
    have hne : s.fifo.dout.setWidth 32 ≠ 0xFFFFFFFF#32 := by
      intro h
      have hlt : (s.fifo.dout.setWidth 32).toNat < 256 := by
        rw [BitVec.toNat_setWidth]
        have := s.fifo.dout.isLt
        omega
      rw [h] at hlt
      exact absurd hlt (by decide)
    simp [RxUart.data, he, hne]

/-- No byte is lost or doubled by an edge. -/
theorem wf_next (h : s.fifo.WF) (v : UartVersion) (div : BitVec 16) (rxIn dataRd : Bool) :
    (s.next v div rxIn dataRd).fifo.WF ∧
      s.fifo.toList ++ s.pushed.toList =
        (s.popped dataRd).toList ++ (s.next v div rxIn dataRd).fifo.toList := by
  obtain ⟨hwf, hlist⟩ := h.next s.rxData s.push (dataRd && !s.fifo.empty)
    (fun hp => by simp_all) (fun hp => by simp_all [push])
  refine ⟨hwf, ?_⟩
  have hfifo : (s.next v div rxIn dataRd).fifo =
      s.fifo.next s.rxData s.push (dataRd && !s.fifo.empty) := rfl
  have hp : s.pushed.toList = if s.push then [s.rxData] else [] := by
    rw [pushed]
    split <;> rfl
  rw [hfifo, hlist, ← hp, popped]
  by_cases hr : (dataRd && !s.fifo.empty) = true
  · have he : s.fifo.empty = false := by simp_all
    obtain ⟨n, -, hcons⟩ := Fifo.exists_cnt he
    rw [if_pos hr, if_pos hr, hcons]
    rfl
  · rw [if_neg hr, if_neg hr]
    rfl

/-! ## Runs of the receiver -/

section

variable {v : UartVersion} {Q : ℕ → RxUart aw} {divs : ℕ → BitVec 16} {ins rds : ℕ → Bool}
  (hQ : ∀ n, Q (n + 1) = (Q n).next v (divs n) (ins n) (rds n)) (h0 : (Q 0).fifo.WF)
  (hnil : (Q 0).fifo.toList = [])

include hQ h0 hnil

/-- The bytes pushed are those read and those in the buffer. -/
theorem log_pushed (n : ℕ) :
    (Q n).fifo.WF ∧ Sync.log (fun k => (Q k).pushed) n =
      Sync.log (fun k => (Q k).popped (rds k)) n ++ (Q n).fifo.toList := by
  induction n with
  | zero => exact ⟨h0, by rw [hnil]; rfl⟩
  | succ n ih =>
    obtain ⟨hwf, heq⟩ := wf_next ih.1 v (divs n) (ins n) (rds n)
    rw [← hQ n] at hwf heq
    refine ⟨hwf, ?_⟩
    rw [Sync.log_succ, Sync.log_succ, ih.2, List.append_assoc, heq, List.append_assoc]

/-- If there is always another read, then every byte pushed is read in the end. -/
theorem exists_popped (hread : ∀ n, ∃ m, n ≤ m ∧ rds m = true) (n : ℕ) :
    ∃ m, n ≤ m ∧ Sync.log (fun k => (Q k).pushed) n <+:
      Sync.log (fun k => (Q k).popped (rds k)) m := by
  refine Sync.exists_log_prefix (fun j => (log_pushed hQ h0 hnil j).2) (fun j hj => ?_) n
  by_contra hnone
  have hno : ∀ l, j ≤ l → (Q l).popped (rds l) = none := fun l hl =>
    Option.not_isSome_iff_eq_none.1 fun hsome => hnone ⟨l, hl, hsome⟩
  -- The buffer keeps its bytes until the next read, which pops one.
  have hkeep : ∀ l, j ≤ l → (Q l).fifo.toList ≠ [] := by
    intro l hl
    induction l, hl using Nat.le_induction with
    | base => exact hj
    | succ l hl ih =>
      have heq := (wf_next (log_pushed hQ h0 hnil l).1 v (divs l) (ins l) (rds l)).2
      rw [← hQ l, hno l hl] at heq
      intro hnil'
      rw [hnil'] at heq
      exact ih (List.append_eq_nil_iff.1 heq).1
  obtain ⟨r, hjr, hr⟩ := hread j
  have he : (Q r).fifo.empty = false := Bool.eq_false_of_not_eq_true fun he =>
    hkeep r hjr (Fifo.empty_iff.1 he)
  have hpop := hno r hjr
  rw [popped, hr, he] at hpop
  exact absurd hpop (Option.some_ne_none _)

end

end RxUart

end KianRiscV
