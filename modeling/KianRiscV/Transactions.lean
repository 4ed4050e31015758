/-
# One access, one bus transaction

`sv32` puts an access on the bus already in the last cycle of `STATE_TRANSLATE`, where it
stalls the state machine, and keeps it there through `STATE_ACCESS`.  An answer in the first
of these cycles goes to the core, which does not advance, and the access is answered again.
With no such early answer every access is one transaction, whatever the bus returns to the
walker and however long it takes.
-/
import KianRiscV.BusIntegrity
import KianRiscV.InterruptDelivery

namespace KianRiscV

namespace Sv32

variable {iw dw : ℕ} {m : Sv32 iw dw} {r : CpuReq}

/-! ## The turns of `sv32` on any bus -/

/-- The walker looks for the entry; in machine mode it is not asked. -/
structure WalkTurn (m : Sv32 iw dw) (r : CpuReq) : Prop extends Translating m r where
  sel : m.sel.Quiet
  walkReady : m.ptw.ready = true → m.ptw.state = .s0
  machine : r.machine = true → m.ptw.state = .s0 ∧ m.ptw.ready = false

/-- The translator checks the entry. -/
structure CheckTurn (m : Sv32 iw dw) (r : CpuReq) : Prop extends Translating m r where
  selState : m.sel.state = .s1
  selReady : m.sel.ready = false
  selFault : m.sel.pageFault = false
  walk : m.ptw.state = .s0
  walkReady : m.ptw.ready = false

/-- The result stands. -/
structure DoneTurn (m : Sv32 iw dw) (r : CpuReq) : Prop extends Translating m r where
  selState : m.sel.state = .s0
  selReady : m.sel.ready = true
  walk : m.ptw.state = .s0
  walkReady : m.ptw.ready = false
  pending : m.translationPendingQ = true

/-- The access waits for its answer. -/
structure AccessTurn (m : Sv32 iw dw) (r : CpuReq) : Prop extends Latched m r where
  state : m.state = .access
  pageFault : m.pageFault = false
  sel : m.sel.Quiet
  other : m.other.Quiet
  selValid : m.selValid = false
  otherValid : m.otherValid = false
  walk : m.ptw.state = .s0
  walkReady : m.ptw.ready = false
  pending : m.translationPendingQ = true

/-- Where `sv32` and its submodules are with the request `r`.  At rest, what the walker
returned does not matter any more. -/
inductive Turn (m : Sv32 iw dw) (r : CpuReq) : Prop where
  | rest (h : m.IdlePhase true (fun _ => 0#32) none r)
  | walk (h : m.WalkTurn r)
  | check (h : m.CheckTurn r)
  | done (h : m.DoneTurn r)
  | access (h : m.AccessTurn r)

/-- The access is answered in the cycle in which it is put on the bus. -/
def early (m : Sv32 iw dw) (rdy : Bool) : Bool := m.state == .translate && m.answers && rdy

/-- A walker that reports ready is at rest. -/
theorem walk_ready_next {w : TableWalk iw dw} {i : WalkIn} (h : w.ready = true → w.state = .s0)
    (hr : (w.next i).ready = true) : (w.next i).state = .s0 := by
  have hr' : w.readyNxt i = true := hr
  show w.stateNxt i = .s0
  cases hw : w.state with
  | s0 =>
    simp only [TableWalk.readyNxt, hw, Bool.and_eq_true, Bool.not_eq_true'] at hr'
    simp [TableWalk.stateNxt, hw, hr'.1.1]
  | s1 =>
    have hnr : w.ready = false := by
      by_contra hn
      exact absurd (hw.symm.trans (h (by simpa using hn))) (by decide)
    simp only [TableWalk.readyNxt, hw, hnr] at hr'
    split at hr'
    · next hit => simp [TableWalk.stateNxt, hw, hit]
    · exact absurd hr' (by decide)
  | s2 =>
    have hnr : w.ready = false := by
      by_contra hn
      exact absurd (hw.symm.trans (h (by simpa using hn))) (by decide)
    have hm : i.memReady = true := by
      by_contra hm
      simp [TableWalk.readyNxt, hw, hnr, hm] at hr'
    simp [TableWalk.stateNxt, hw, hm, hr']

/-- With no read of the walker on the bus, nothing is answered before the result. -/
theorem busReq_of_translating (h : m.Translating r) (hd : m.sel.ready = false)
    (hw : m.ptw.state = .s0) : m.busReq.valid = false := by
  rw [h.busReq hd]
  simp [TableWalk.memValid, hw]

section Edge

variable {flush rdy : Bool} {rdata : Word}

theorem WalkTurn.next (h : m.WalkTurn r) (hbus : rdy = true → m.busReq.valid = true) :
    (m.next r flush rdy rdata).Turn r := by
  obtain ⟨ht, hp⟩ := h.toTranslating.next flush rdy rdata h.sel.ready h.sel.pageFault
  have hsel := h.toLatched.sel_next flush rdy rdata
  rw [h.selValid] at hsel
  have hw := h.toTranslating.walkIn flush rdy rdata
  have hquiet : m.ptw.state = .s0 → rdy = false := by
    intro hs
    by_contra hr
    have hv := hbus (by simpa using hr)
    rw [busReq_of_translating h.toTranslating h.sel.ready hs] at hv
    exact absurd hv (by decide)
  cases hm : r.machine with
  | true =>
    -- the translator answers at once
    obtain ⟨hs, hr⟩ := h.machine hm
    rw [hm, hr] at hsel
    rw [hquiet hs] at hp ht hsel ⊢
    have hv : (m.walkIn flush false rdata).valid = false := by
      rw [hquiet hs] at hw
      rw [hw]
      simp [Translator.walkValid, hm]
    obtain ⟨hs', hr', -⟩ := walk_rest hs (.inl hv)
    exact .done { ht with
      selState := by rw [hsel]; simp [Translator.next, h.sel.state]
      selReady := by rw [hsel]; simp [Translator.next, h.sel.state, h.sel.ready]
      walk := hs'
      walkReady := hr'
      pending := hp }
  | false =>
    rw [hm] at hsel
    cases hr : m.ptw.ready with
    | true =>
      have hs := h.walkReady hr
      rw [hr] at hsel
      obtain ⟨hs', hr', -⟩ := walk_rest (i := m.walkIn flush rdy rdata) hs (.inr hr)
      exact .check { ht with
        selState := by rw [hsel]; simp [Translator.next, h.sel.state]
        selReady := by rw [hsel]; simp [Translator.next, h.sel.state]
        selFault := by rw [hsel]; simp [Translator.next, h.sel.state]
        walk := hs'
        walkReady := hr' }
    | false =>
      rw [hr] at hsel
      refine .walk { ht with sel := ?_, walkReady := ?_, machine := ?_ }
      · rw [hsel]
        exact h.sel.next_waiting rfl true
      · exact walk_ready_next h.walkReady
      · exact fun hm' => absurd (hm.symm.trans hm') (by decide)

theorem CheckTurn.next (h : m.CheckTurn r) (hbus : rdy = true → m.busReq.valid = true) :
    (m.next r flush rdy rdata).Turn r := by
  obtain ⟨ht, hp⟩ := h.toTranslating.next flush rdy rdata h.selReady h.selFault
  have hsel := h.toLatched.sel_next flush rdy rdata
  have hrdy : rdy = false := by
    by_contra hr
    have hv := hbus (by simpa using hr)
    rw [busReq_of_translating h.toTranslating h.selReady h.walk] at hv
    exact absurd hv (by decide)
  have hv : (m.walkIn flush rdy rdata).valid = false := by
    rw [h.toTranslating.walkIn]
    simp [Translator.walkValid, h.selState]
  obtain ⟨hs', hr', -⟩ := walk_rest h.walk (.inl hv)
  exact .done { ht with
    selState := by rw [hsel]; simp [Translator.next, h.selState]
    selReady := by rw [hsel]; simp [Translator.next, h.selState]
    walk := hs'
    walkReady := hr'
    pending := by rw [hp, hrdy]; rfl }

variable (flush rdy rdata) in
/-- The registers that rest after the result. -/
theorem DoneTurn.rest_next (h : m.DoneTurn r) :
    (m.next r flush rdy rdata).sel.Quiet ∧ (m.next r flush rdy rdata).other.Quiet ∧
      (m.next r flush rdy rdata).instrTranslateValid = false ∧
      (m.next r flush rdy rdata).dataTranslateValid = false ∧
      (m.next r flush rdy rdata).ptw.state = .s0 ∧
      (m.next r flush rdy rdata).ptw.ready = false := by
  have hd := (translationDone_eq h.other).trans h.selReady
  have hsel := h.toLatched.sel_next flush rdy rdata
  rw [h.walkReady] at hsel
  have hv : (m.walkIn flush rdy rdata).valid = false := by
    rw [h.toTranslating.walkIn]
    simp [Translator.walkValid, h.selReady]
  obtain ⟨hs', hr', -⟩ := walk_rest h.walk (.inl hv)
  obtain ⟨hvi, hvd⟩ := next_validQ_of_pending (r := r) h.pending hd flush rdy rdata
  refine ⟨?_, h.toLatched.other_next flush rdy rdata h.other h.otherValid, hvi, hvd, hs', hr'⟩
  rw [hsel]
  exact (Translator.next_of_ready h.selState h.selReady m.selValid).1

theorem DoneTurn.next (h : m.DoneTurn r) (hearly : m.early rdy = false) :
    (m.next r flush rdy rdata).Turn r := by
  have hd := (translationDone_eq h.other).trans h.selReady
  obtain ⟨hqs, hqo, hvi, hvd, hs', hr'⟩ := h.rest_next flush rdy rdata
  have hl := h.toLatched.next flush rdy rdata
  cases hf : m.sel.pageFault with
  | true =>
    have ha := (anyPageFault_eq h.other).trans hf
    obtain ⟨hqi, hqd⟩ := quiet_of_sel_of_other hqs hqo
    refine .rest ⟨?_, hqi, hqd, hvi, hvd, hs', hr', rfl, fun _ => ha, fun _ => ⟨hl, ?_, .inr rfl⟩⟩
    · simp [Sv32.next, stateNxt, h.state, ha]
    · simp [Sv32.next, ha, h.addr]
  | false =>
    have ha := (anyPageFault_eq h.other).trans hf
    have hrdy : rdy = false := by
      simpa [early, h.state, answers, hd, ha] using hearly
    refine .access { hl with
      state := ?_, pageFault := ha, sel := hqs, other := hqo, selValid := ?_, otherValid := ?_
      walk := hs', walkReady := hr', pending := ?_ }
    · simp [Sv32.next, stateNxt, h.state, ha, hd]
    · unfold selValid
      split
      · exact hvi
      · exact hvd
    · unfold otherValid
      split
      · exact hvd
      · exact hvi
    · simp [Sv32.next, translationPending, h.reqValid, h.pageFault, hrdy]

theorem AccessTurn.done (h : m.AccessTurn r) :
    m.translationDone = false ∧ m.anyPageFault = false :=
  ⟨(translationDone_eq h.other).trans h.sel.ready,
    (anyPageFault_eq h.other).trans h.sel.pageFault⟩

variable (flush rdy rdata) in
/-- What every edge of `STATE_ACCESS` leaves alone. -/
theorem AccessTurn.rest_next (h : m.AccessTurn r) :
    (m.next r flush rdy rdata).sel.Quiet ∧ (m.next r flush rdy rdata).other.Quiet ∧
      (m.next r flush rdy rdata).instrTranslateValid = false ∧
      (m.next r flush rdy rdata).dataTranslateValid = false ∧
      (m.next r flush rdy rdata).ptw.state = .s0 ∧
      (m.next r flush rdy rdata).ptw.ready = false := by
  have hstart : m.translationStart r rdy = false := translationStart_of_pending h.pending rdy
  have hvalid : m.instrTranslateValid = false ∧ m.dataTranslateValid = false := by
    have h1 := h.selValid
    have h2 := h.otherValid
    unfold Sv32.selValid at h1
    unfold Sv32.otherValid at h2
    cases hi : m.isInstrQ <;> simp only [hi, if_true, Bool.false_eq_true, if_false] at h1 h2
    · exact ⟨h2, h1⟩
    · exact ⟨h1, h2⟩
  have hsel := h.toLatched.sel_next flush rdy rdata
  rw [h.selValid, h.walkReady] at hsel
  have hv : (m.walkIn flush rdy rdata).valid = false := by
    show m.ptwValid = false
    rw [h.toLatched.ptwValid, h.selValid]
    simp [Translator.walkValid]
  obtain ⟨hs', hr', -⟩ := walk_rest h.walk (.inl hv)
  refine ⟨?_, h.toLatched.other_next flush rdy rdata h.other h.otherValid, ?_, ?_, hs', hr'⟩
  · rw [hsel]
    exact h.sel.next
  · simp [Sv32.next, hstart, hvalid.1]
  · simp [Sv32.next, hstart, hvalid.2]

theorem AccessTurn.next_ready (h : m.AccessTurn r) (r' : CpuReq) :
    (m.next r flush true rdata).Turn r' := by
  obtain ⟨hqs, hqo, hvi, hvd, hs', hr'⟩ := h.rest_next flush true rdata
  obtain ⟨hqi, hqd⟩ := quiet_of_sel_of_other hqs hqo
  refine .rest ⟨?_, hqi, hqd, hvi, hvd, hs', hr', rfl, fun hp => ?_, fun hf => ?_⟩
  · simp [Sv32.next, stateNxt, h.state]
  · simp [Sv32.next, translationPending] at hp
  · exact absurd (h.done.2.symm.trans hf) (by decide)

theorem AccessTurn.next_wait (h : m.AccessTurn r) : (m.next r flush false rdata).AccessTurn r := by
  obtain ⟨hqs, hqo, hvi, hvd, hs', hr'⟩ := h.rest_next flush false rdata
  refine { h.toLatched.next flush false rdata with
    state := ?_, pageFault := h.done.2, sel := hqs, other := hqo, selValid := ?_, otherValid := ?_
    walk := hs', walkReady := hr', pending := ?_ }
  · simp [Sv32.next, stateNxt, h.state]
  · unfold Sv32.selValid
    split
    · exact hvi
    · exact hvd
  · unfold Sv32.otherValid
    split
    · exact hvd
    · exact hvi
  · simp [Sv32.next, translationPending, h.reqValid, h.pageFault]

end Edge

/-- A turn is one of the request up to its write data. -/
theorem Turn.same {r' : CpuReq} (h : m.Turn r) (hs : r.SameAs r') : m.Turn r' := by
  cases h with
  | rest h =>
    refine .rest { h with fault := fun hf => ?_ }
    obtain ⟨h1, h2, -⟩ := h.fault hf
    exact ⟨h1.same hs, h2.trans hs.addr.symm, .inr rfl⟩
  | walk h =>
    exact .walk { h.toTranslating.same hs, h with
      machine := fun hm => h.machine (hs.machine.symm.trans hm) }
  | check h => exact .check { h.toTranslating.same hs, h with }
  | done h => exact .done { h.toTranslating.same hs, h with }
  | access h => exact .access { h.toLatched.same hs, h with }

/-- **One edge on any bus** that answers only requests, and no access in the cycle it is put
on the bus. -/
theorem Turn.next {r' : CpuReq} {flush rdy : Bool} {rdata : Word} (h : m.Turn r)
    (hbus : rdy = true → m.busReq.valid = true) (hearly : m.early rdy = false)
    (hhold : m.Holds rdy flush r r') : (m.next r flush rdy rdata).Turn r' := by
  -- a translation that goes on is one of the request still presented
  have keep : m.Translating r → m.cpuReady rdy = false → r.SameAs r' := fun ht hc =>
    (hhold ht.reqValid hc ht.pageFault).1
  cases h with
  | rest h =>
    obtain rfl : rdy = false := by
      by_contra hr
      have hv := hbus (by simpa using hr)
      rw [h.busReq_valid] at hv
      exact absurd hv (by decide)
    by_cases hv : r.valid = false ∨ m.pageFault = true
    · exact .rest (h.next_rest hv flush rdata _ r').1
    · obtain ⟨hv, hf⟩ : r.valid = true ∧ m.pageFault = false := by simpa using hv
      have hq := h.next_start hv hf flush rdata
      refine Turn.same (.walk { hq with
        walkReady := fun _ => hq.walk, machine := fun _ => ⟨hq.walk, hq.walkReady⟩ }) ?_
      exact (hhold hv (by simp [cpuReady]) hf).1
  | walk h =>
    exact (h.next hbus).same
      (keep h.toTranslating (cpuReady_of_translating h.toTranslating h.sel.ready rdy))
  | check h =>
    exact (h.next hbus).same
      (keep h.toTranslating (cpuReady_of_translating h.toTranslating h.selReady rdy))
  | done h =>
    refine (h.next hearly).same (keep h.toTranslating ?_)
    simpa [early, h.state, cpuReady] using hearly
  | access h =>
    cases rdy with
    | true => exact h.next_ready r'
    | false =>
      exact Turn.same (.access h.next_wait) (hhold h.reqValid (by simp [cpuReady]) h.pageFault).1

/-! ## What the turns give -/

/-- Busy, `sv32` works on the request presented. -/
theorem Turn.latched (h : m.Turn r) (hb : m.state ≠ .idle) :
    m.Latched r ∧ m.pageFault = false := by
  cases h with
  | rest h => exact absurd h.state hb
  | walk h => exact ⟨h.toLatched, h.pageFault⟩
  | check h => exact ⟨h.toLatched, h.pageFault⟩
  | done h => exact ⟨h.toLatched, h.pageFault⟩
  | access h => exact ⟨h.toLatched, h.pageFault⟩

/-- An answer that is not early is one in `STATE_ACCESS`. -/
theorem access_of_cpuReady {rdy : Bool} (hearly : m.early rdy = false)
    (hr : m.cpuReady rdy = true) : m.state = .access ∧ rdy = true := by
  simp only [cpuReady, Bool.and_eq_true] at hr
  refine ⟨?_, hr.2⟩
  cases hs : m.state with
  | access => rfl
  | idle => simp [answers, hs] at hr
  | translate => simp [early, hs, hr.1, hr.2] at hearly

end Sv32

/-! ## The core and `sv32` -/

namespace Cpu

variable {iw dw : ℕ} {p : Params} {s : Cpu iw dw} {i : CpuIn}

/-- The memory management unit is at some turn of the request the core presents, and works
only while the state machine waits on the bus. -/
structure InTurn (s : Cpu iw dw) : Prop where
  turn : s.mmu.Turn s.req
  waits : s.mmu.state ≠ .idle → waitsForBus s.core.state = true

theorem IsReset.inTurn (h : s.IsReset p) : s.InTurn := by
  refine ⟨?_, fun hne => absurd h.2.1 hne⟩
  obtain ⟨h1, h2, h3, -, -, -, -, -, -, -, -, -, h4, h5, h6, h7, h8, -, h9, -⟩ := h.2
  have hq : Translator.reset.Quiet := ⟨rfl, rfl, rfl⟩
  refine .rest ⟨h1, h6 ▸ hq, h7 ▸ hq, h4, h5, h8, h9, rfl, fun hp => ?_, fun hf => ?_⟩
  · exact absurd (h2.symm.trans hp) (by decide)
  · exact absurd (h3.symm.trans hf) (by decide)

theorem InTurn.next (h : s.InTurn) (hal : s.FetchAligned)
    (hbus : i.memReady = true → s.mmu.busReq.valid = true)
    (hearly : s.mmu.early i.memReady = false) : (s.next p i).InTurn := by
  refine ⟨h.turn.next hbus hearly (holds h.waits hal),
    waits_next h.waits hal (fun hb => ?_) fun hc => ?_⟩
  · obtain ⟨hl, hf⟩ := h.turn.latched hb
    exact ⟨hl.reqValid, hf⟩
  · exact (Sv32.access_of_cpuReady hearly hc).1

/-- The state machine leaves a waiting state with the answer or the page fault of `sv32`. -/
theorem InTurn.next_state_ne_iff (h : s.InTurn) (hal : s.FetchAligned)
    (hearly : s.mmu.early i.memReady = false) (hw : waitsForBus s.core.state = true)
    (hv : s.core.memValid = true) :
    (s.next p i).core.state ≠ s.core.state ↔
      s.mmu.pageFault = true ∨ s.mmu.cpuReady i.memReady = true := by
  have hiff := Core.next_state_ne_iff p (i := s.coreIn i) hw hv (hal hv)
  refine hiff.trans ⟨fun hx => hx.2, fun hx => ⟨?_, hx⟩⟩
  show s.mmu.stall = false
  rcases hx with hf | hr
  · have hidle : s.mmu.state = .idle := by
      by_contra hb
      exact absurd ((h.turn.latched hb).2.symm.trans hf) (by decide)
    rw [Sv32.stall, hidle]
    rfl
  · rw [Sv32.stall, (Sv32.access_of_cpuReady hearly hr).1]
    rfl

end Cpu

section Run

variable {iw dw : ℕ} {p : Params} {s : Cpu iw dw} {inp : ℕ → CpuIn}

/-- The memory management unit in cycle `n`. -/
def mmuAt (p : Params) (s : Cpu iw dw) (inp : ℕ → CpuIn) (n : ℕ) : Sv32 iw dw :=
  (Sync.run (Cpu.next p) s inp n).mmu

/-- The bus answers the access itself, not a read of the walker, in cycle `k`. -/
def Handshake (p : Params) (s : Cpu iw dw) (inp : ℕ → CpuIn) (k : ℕ) : Prop :=
  (mmuAt p s inp k).answers = true ∧ (busReqAt p s inp k).valid = true ∧
    (inp k).memReady = true

/-- The bus answers an access in the cycle in which `mem_valid` rises for it. -/
def EarlyAnswer (p : Params) (s : Cpu iw dw) (inp : ℕ → CpuIn) (k : ℕ) : Prop :=
  (mmuAt p s inp k).early (inp k).memReady = true

/-- The state machine makes an access from cycle `c` to cycle `d`, which does not end in a
page fault. -/
structure Access (p : Params) (s : Cpu iw dw) (inp : ℕ → CpuIn) (c d : ℕ) : Prop where
  waits : waitsForBus (coreAt p s inp c).state = true
  valid : (coreAt p s inp c).memValid = true
  enters : ∀ b, c = b + 1 → (coreAt p s inp b).state ≠ (coreAt p s inp c).state
  le : c ≤ d
  stays : ∀ k, c ≤ k → k ≤ d → (coreAt p s inp k).state = (coreAt p s inp c).state
  leaves : (coreAt p s inp (d + 1)).state ≠ (coreAt p s inp c).state
  noFault : (coreInAt p s inp d).pageFault = false

/-- The access is one transaction of the bus. -/
structure OneTransaction (p : Params) (s : Cpu iw dw) (inp : ℕ → CpuIn) (c d : ℕ) : Prop where
  once : ∀ k, c ≤ k → k ≤ d → (Handshake p s inp k ↔ k = d)
  rests : (mmuAt p s inp (d + 1)).state = .idle
  request : (mmuAt p s inp d).cpuAddrQ = (coreAt p s inp c).memAddr ∧
    (busReqAt p s inp d).wstrb = (coreAt p s inp c).memWstrb
  fetch : (coreAt p s inp c).state = .fetch → (coreAt p s inp (d + 1)).state = .decode →
    (coreAt p s inp (d + 1)).pc = (coreAt p s inp c).pc + 4#32 ∧
      (coreAt p s inp (d + 1)).oldPc = (coreAt p s inp c).pc
  fault : (coreAt p s inp c).state = .fetch →
    (coreAt p s inp (d + 1)).state = .instrFault0 →
    (csrInAt p s inp (d + 1)).badaddr = (coreAt p s inp c).pc

/-- `PC` is not redirected in `FETCH`. -/
theorem exceptionSelect_of_fetch (hs : s.IsReset p) {n : ℕ}
    (hf : (coreAt p s inp n).state = .fetch) :
    (coreAt p s inp n).csr.exceptionSelect = false := by
  cases n with
  | zero =>
    have hcsr : (coreAt p s inp 0).csr = CsrUnit.reset := hs.1.2.2.2.2.2.2.2.2.2.1
    rw [hcsr]
    rfl
  | succ n =>
    -- a trap or a return is followed by its second state
    rw [coreAt_succ] at hf ⊢
    refine Core.next_select p ?_ _
    have hnot : ∀ st, (coreAt p s inp n).state = st → st ≠ .fetch →
        (∀ j, stateNxt st j ≠ .fetch) → False := by
      intro st hst hne hnxt
      cases hstall : (coreInAt p s inp n).stall with
      | true =>
        rw [Core.next_state_of_stall _ _ hstall, hst] at hf
        exact hne hf
      | false =>
        rw [Core.next_state _ _ hstall, hst] at hf
        exact hnxt _ hf
    refine ⟨?_, fun hm => hnot _ hm (by decide) (fun j => by simp [stateNxt]),
      fun hm => hnot _ hm (by decide) (fun j => by simp [stateNxt])⟩
    by_contra hr
    rw [Bool.not_eq_false] at hr
    refine hnot _ rfl (fun he => ?_) (fun j he => ?_)
    · rw [he] at hr
      exact absurd hr (by decide)
    · revert he
      cases hst : (coreAt p s inp n).state <;> rw [hst] at hr <;>
        first | (simp [stateNxt]; done) | exact absurd hr (by decide)

/-- As long as no answer is early and no fetch misaligned, the core and `sv32` are in turn. -/
theorem inTurn_run (hs : s.IsReset p)
    (hbus : ∀ k, (inp k).memReady = true → (busReqAt p s inp k).valid = true) (n : ℕ)
    (hal : ∀ k, k < n → (Sync.run (Cpu.next p) s inp k).FetchAligned)
    (hlate : ∀ k, k < n → ¬ EarlyAnswer p s inp k) :
    (Sync.run (Cpu.next p) s inp n).InTurn := by
  induction n with
  | zero => exact hs.inTurn
  | succ n ih =>
    refine (ih (fun k hk => hal k (by omega)) fun k hk => hlate k (by omega)).next
      (hal n (by omega)) (hbus n) ?_
    have := hlate n (by omega)
    unfold EarlyAnswer mmuAt at this
    simpa using this

section Access

variable {c d : ℕ}

theorem early_eq_false {k : ℕ} (h : ¬ EarlyAnswer p s inp k) :
    (Sync.run (Cpu.next p) s inp k).mmu.early (inp k).memReady = false := by
  simpa [EarlyAnswer, mmuAt] using h

/-- The request stands unchanged in every cycle of an access. -/
theorem Access.request (h : Access p s inp c d)
    (hal : ∀ k, k ≤ d → (Sync.run (Cpu.next p) s inp k).FetchAligned)
    (hlate : ∀ k, k ≤ d → ¬ EarlyAnswer p s inp k)
    (hturn : ∀ k, k ≤ d → (Sync.run (Cpu.next p) s inp k).InTurn) (k : ℕ) (hck : c ≤ k) :
    k ≤ d → (coreAt p s inp k).memValid = true ∧
      (coreAt p s inp k).memAddr = (coreAt p s inp c).memAddr ∧
      (coreAt p s inp k).memWstrb = (coreAt p s inp c).memWstrb := by
  induction k, hck using Nat.le_induction with
  | base => exact fun _ => ⟨h.valid, rfl, rfl⟩
  | succ k hck ih =>
    intro hkd
    obtain ⟨hv, ha, hw⟩ := ih (by omega)
    have hst : (coreAt p s inp k).state = (coreAt p s inp c).state := h.stays k hck (by omega)
    have hin := hturn k (by omega)
    -- the state machine stays, so there is neither answer nor page fault
    have hstay := (hin.next_state_ne_iff (p := p) (hal k (by omega))
      (early_eq_false (hlate k (by omega))) (by rw [← h.waits, ← hst]; rfl) hv).not.1
      (not_not.2 ((h.stays (k + 1) (by omega) hkd).trans hst.symm))
    rw [not_or, Bool.not_eq_true, Bool.not_eq_true] at hstay
    have hsame := (Cpu.request_of_hold (p := p) hin.waits (hal k (by omega)) hv hstay.2 hstay.1).1
    exact ⟨hsame.valid.trans hv, hsame.addr.trans ha, hsame.wstrb.trans hw⟩

/-- An access with no early answer up to its end is one transaction. -/
theorem Access.oneTransaction (hs : s.IsReset p) (h : Access p s inp c d)
    (hal : ∀ k, k ≤ d → (Sync.run (Cpu.next p) s inp k).FetchAligned)
    (hlate : ∀ k, k ≤ d → ¬ EarlyAnswer p s inp k)
    (hturn : ∀ k, k ≤ d → (Sync.run (Cpu.next p) s inp k).InTurn) :
    OneTransaction p s inp c d := by
  have hreq := h.request hal hlate hturn
  have hleave : ∀ k, c ≤ k → k ≤ d →
      ((coreAt p s inp (k + 1)).state ≠ (coreAt p s inp k).state ↔
        (mmuAt p s inp k).pageFault = true ∨
          (mmuAt p s inp k).cpuReady (inp k).memReady = true) := by
    intro k hck hkd
    exact (hturn k hkd).next_state_ne_iff (hal k hkd) (early_eq_false (hlate k hkd))
      (by rw [← h.waits, ← h.stays k hck hkd]; rfl) (hreq k hck hkd).1
  -- the last cycle is answered in `STATE_ACCESS`
  have hready : (mmuAt p s inp d).cpuReady (inp d).memReady = true := by
    have hne : (coreAt p s inp (d + 1)).state ≠ (coreAt p s inp d).state := by
      rw [h.stays d h.le le_rfl]
      exact h.leaves
    rcases (hleave d h.le le_rfl).1 hne with hf | hr
    · exact absurd (h.noFault.symm.trans hf) (by decide)
    · exact hr
  obtain ⟨hacc, hrdy⟩ := Sv32.access_of_cpuReady (early_eq_false (hlate d le_rfl)) hready
  have hlat := ((hturn d le_rfl).turn.latched (by rw [hacc]; decide)).1
  have hbusy : busReqAt p s inp d = ⟨true, (mmuAt p s inp d).selectedPhysAddr,
      (coreAt p s inp d).memWstrb, (mmuAt p s inp d).cpuWdataQ⟩ := by
    have hvq : (mmuAt p s inp d).cpuValidQ = true := hlat.validQ
    have hwq : (mmuAt p s inp d).cpuWstrbQ = (coreAt p s inp d).memWstrb := hlat.wstrb
    have hacc' : (mmuAt p s inp d).state = .access := hacc
    show (mmuAt p s inp d).busReq = _
    simp only [Sv32.busReq, hacc', hvq, hwq]
  obtain ⟨-, haddr, hwstrb⟩ := hreq d h.le le_rfl
  refine ⟨fun k hck hkd => ⟨fun hk => ?_, ?_⟩, ?_, ⟨?_, ?_⟩, fun hf hd => ?_, fun hf hd => ?_⟩
  · by_contra hne
    have hcr : (mmuAt p s inp k).cpuReady (inp k).memReady = true := by
      simp [Sv32.cpuReady, hk.1, hk.2.2]
    refine (hleave k hck hkd).2 (.inr hcr) ?_
    rw [h.stays k hck hkd]
    exact h.stays (k + 1) (by omega) (by omega)
  · rintro rfl
    refine ⟨?_, by rw [hbusy], hrdy⟩
    simp only [Sv32.cpuReady, Bool.and_eq_true] at hready
    exact hready.1
  · show (mmuAt p s inp d).stateNxt _ (inp d).memReady = .idle
    have hacc' : (mmuAt p s inp d).state = .access := hacc
    simp [Sv32.stateNxt, hacc', hrdy]
  · exact hlat.addr.trans haddr
  · rw [hbusy]
    exact hwstrb
  · have hfd : (coreAt p s inp d).state = .fetch := (h.stays d h.le le_rfl).trans hf
    obtain ⟨hpc, hold, -⟩ := Core.next_fetched p (i := coreInAt p s inp d) hfd hready
      (exceptionSelect_of_fetch hs hfd)
    have hpcd : (coreAt p s inp d).pc = (coreAt p s inp c).pc := by
      rw [← (Core.memAddr_of_presentsFetch (.inr hfd)).1,
        ← (Core.memAddr_of_presentsFetch (.inr hf)).1]
      exact haddr
    rw [coreAt_succ, hpc, hold, hpcd]
    exact ⟨rfl, rfl⟩
  · have hfd : (coreAt p s inp d).state = .fetch := (h.stays d h.le le_rfl).trans hf
    show badaddr (coreAt p s inp (d + 1)).state (coreAt p s inp (d + 1)).trapAddr _ = _
    rw [hd]
    show (coreAt p s inp (d + 1)).trapAddr = _
    rw [coreAt_succ]
    simp only [Core.next, hfd, latchesTrapAddr, if_true]
    rw [haddr]
    exact (Core.memAddr_of_presentsFetch (.inr hf)).1

/-- An early answer is one transaction of an access that goes on. -/
theorem OneTransaction.not_early (h : OneTransaction p s inp c d) (hacc : Access p s inp c d)
    (hbus : ∀ k, (inp k).memReady = true → (busReqAt p s inp k).valid = true) {k : ℕ}
    (hck : c ≤ k) (hkd : k ≤ d) : ¬ EarlyAnswer p s inp k := by
  intro he
  simp only [EarlyAnswer, Sv32.early, Bool.and_eq_true, beq_iff_eq] at he
  obtain ⟨⟨htr, hans⟩, hr⟩ := he
  obtain rfl : k = d := (h.once k hck hkd).1 ⟨hans, hbus k hr, hr⟩
  -- `sv32` stalls the state machine in this cycle
  apply hacc.leaves
  rw [← hacc.stays k hck le_rfl, coreAt_succ]
  apply Core.next_state_of_stall _ _
  show (mmuAt p s inp k).stall = true
  rw [Sv32.stall, htr]
  rfl

/-- **Accesses and transactions.**  In a run from reset on a bus that answers only requests,
with no misaligned fetch so far and no early answer before, an access that does not fault is
one transaction exactly if it is not answered in the cycle in which `mem_valid` rises. -/
theorem one_transaction_iff (hs : s.IsReset p)
    (hbus : ∀ k, (inp k).memReady = true → (busReqAt p s inp k).valid = true)
    (hal : ∀ k, k ≤ d → (Sync.run (Cpu.next p) s inp k).FetchAligned)
    (hlate : ∀ k, k < c → ¬ EarlyAnswer p s inp k) (hacc : Access p s inp c d) :
    OneTransaction p s inp c d ↔ ∀ k, c ≤ k → k ≤ d → ¬ EarlyAnswer p s inp k := by
  constructor
  · intro h k hck hkd
    exact h.not_early hacc hbus hck hkd
  · intro h
    have hlate' : ∀ k, k ≤ d → ¬ EarlyAnswer p s inp k := by
      intro k hkd
      by_cases hkc : k < c
      · exact hlate k hkc
      · exact h k (by omega) hkd
    apply hacc.oneTransaction hs hal hlate'
    intro k hkd
    exact inTurn_run hs hbus k (fun j hj => hal j (by omega)) fun j hj => hlate' j (by omega)

end Access

/-- The memory of a system answers only requests. -/
theorem System.busAt_answers (p : Params) (s : System iw dw) (inp : ℕ → SystemIn) (k : ℕ)
    (h : (s.busAt p inp k).memReady = true) :
    (busReqAt p s.cpu (s.busAt p inp) k).valid = true := by
  unfold busReqAt
  rw [System.run_cpu]
  exact (Memory.of_ready h).1

end Run

instance {iw dw : ℕ} (s : Cpu iw dw) : Decidable s.FetchAligned :=
  inferInstanceAs (Decidable (_ → _ → _))

instance {iw dw : ℕ} (p : Params) (s : Cpu iw dw) (inp : ℕ → CpuIn) (k : ℕ) :
    Decidable (EarlyAnswer p s inp k) :=
  inferInstanceAs (Decidable (_ = _))

instance {iw dw : ℕ} (p : Params) (s : Cpu iw dw) (inp : ℕ → CpuIn) (k : ℕ) :
    Decidable (Handshake p s inp k) :=
  inferInstanceAs (Decidable (_ ∧ _ ∧ _))

/-- The bus of `lui x1, 0x10000; jalr x0, 32(x1)`: the two words come from a memory, and the
fetch from the I/O address the jump goes to, which no device matches, is answered in the cycle
in which it appears and refused in the next. -/
def ioFetchBus : ℕ → CpuIn := fun n =>
  if n = 3 then ⟨true, 0x100000b7#32, false, false, false, false, false⟩
  else if n = 9 then ⟨true, 0x02008067#32, false, false, false, false, false⟩
  else if n = 15 then ⟨true, 0#32, false, false, false, false, false⟩
  else if n = 16 then ⟨true, 0#32, true, false, false, false, false⟩
  else ⟨false, 0#32, false, false, false, false, false⟩

/-- The processor after reset. -/
def resetCpu : Cpu 4 3 := ⟨Core.reset sampleParams, Sv32.reset 4 3⟩

theorem resetCpu_isReset : resetCpu.IsReset sampleParams :=
  ⟨Core.reset_isReset sampleParams, Sv32.reset_isReset 4 3⟩

theorem ioFetchBus_answers (k : ℕ) (h : (ioFetchBus k).memReady = true) :
    (busReqAt sampleParams resetCpu ioFetchBus k).valid = true := by
  have hk : k = 3 ∨ k = 9 ∨ k = 15 ∨ k = 16 := by
    by_contra hno
    simp only [not_or] at hno
    simp [ioFetchBus, hno] at h
  rcases hk with rfl | rfl | rfl | rfl <;> decide +kernel

/-- The fetch of the `lui`. -/
theorem one_transaction_iff_lui :
    Access sampleParams resetCpu ioFetchBus 0 3 ∧
      OneTransaction sampleParams resetCpu ioFetchBus 0 3 := by
  have hacc : Access sampleParams resetCpu ioFetchBus 0 3 := by
    refine ⟨rfl, rfl, fun b hb => absurd hb (by omega), by omega, ?_, by decide +kernel,
      by decide +kernel⟩
    intro k _ hk
    obtain rfl | rfl | rfl | rfl : k = 0 ∨ k = 1 ∨ k = 2 ∨ k = 3 := by omega
    all_goals decide +kernel
  refine ⟨hacc, (one_transaction_iff resetCpu_isReset ioFetchBus_answers ?_ (by omega) hacc).2 ?_⟩
  · intro k hk
    obtain rfl | rfl | rfl | rfl : k = 0 ∨ k = 1 ∨ k = 2 ∨ k = 3 := by omega
    all_goals decide +kernel
  · intro k _ hk
    obtain rfl | rfl | rfl | rfl : k = 0 ∨ k = 1 ∨ k = 2 ∨ k = 3 := by omega
    all_goals decide +kernel

/-- The fetch from the I/O address is two transactions, `PC` moves on by 8, and the fault
reports the address after the one fetched. -/
theorem io_fetch_is_answered_twice :
    ¬ ∀ (p : Params) (s : Cpu 4 3) (inp : ℕ → CpuIn), s.IsReset p →
      (∀ k, (inp k).memReady = true → (busReqAt p s inp k).valid = true) →
      ∀ c d, Access p s inp c d → OneTransaction p s inp c d := by
  intro h
  have hone := h sampleParams resetCpu ioFetchBus resetCpu_isReset ioFetchBus_answers 14 16 (by
    refine ⟨by decide +kernel, by decide +kernel, fun b hb => ?_, by omega, ?_, by decide +kernel,
      by decide +kernel⟩
    · obtain rfl : b = 13 := by omega
      decide +kernel
    · intro k hk hk'
      obtain rfl | rfl | rfl : k = 14 ∨ k = 15 ∨ k = 16 := by omega
      all_goals decide +kernel)
  have h15 : Handshake sampleParams resetCpu ioFetchBus 15 := by decide +kernel
  exact absurd ((hone.once 15 (by omega) (by omega)).1 h15) (by decide)

end KianRiscV
