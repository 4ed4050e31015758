/-
# Every bus answer belongs to its request

The processor with a memory of arbitrary latency, from reset.  As long as no fetch is
presented at a misaligned `pc`, the core holds each request until it is answered, so the
phases of `sv32` stay in step with the state machine: the bus is stable, and an answer
is one to the translation of the address presented in the same cycle.  `FETCH` does
present a misaligned `pc` on the bus while it traps, and then an answer can reach the
first fetch of the trap handler.
-/
import KianRiscV.CoreStep
import KianRiscV.MmuRun

namespace KianRiscV

namespace Cpu

variable {iw dw : ℕ} {p : Params} {s : Cpu iw dw} {i : CpuIn}

/-! ## The core holds its requests -/

/-- No fetch is presented at a misaligned address in this cycle. -/
def FetchAligned (s : Cpu iw dw) : Prop :=
  s.core.memValid = true → s.core.isInstr = true → s.core.memAddr.extractLsb' 0 2 = 0#2

/-- What a core that holds its request presents in the next cycle. -/
theorem request_of_hold (hw : s.mmu.state ≠ .idle → waitsForBus s.core.state = true)
    (hal : s.FetchAligned) (hv : s.core.memValid = true)
    (hc : s.mmu.cpuReady i.memReady = false) (hf : s.mmu.pageFault = false) :
    s.req.SameAs (s.next p i).req ∧ waitsForBus (s.next p i).core.state = true := by
  have hstall : (s.coreIn i).stall = true → waitsForBus s.core.state = true := by
    intro hst
    apply hw
    intro hidle
    have hst' : s.mmu.stall = true := hst
    rw [Sv32.stall, hidle] at hst'
    exact absurd hst' (by decide)
  obtain ⟨hwait, h1, h2, h3, h4⟩ :=
    Core.request_next p (i := s.coreIn i) hv hc hf (hal hv) hstall
  obtain ⟨h5, h6, h7, -⟩ :=
    Core.next_csr_of_quiet p (Core.touchesCsr_of_memValid hv) (s.coreIn i)
  exact ⟨⟨h1.trans hv.symm, h3, h2, h4, h7, h6, h5⟩, hwait⟩

theorem holds (hw : s.mmu.state ≠ .idle → waitsForBus s.core.state = true)
    (hal : s.FetchAligned) :
    s.mmu.Holds i.memReady (s.core.tlbFlush (s.coreIn i)) s.req (s.next p i).req := by
  intro hv hc hf
  exact ⟨(request_of_hold hw hal hv hc hf).1, Core.tlbFlush_of_memValid hv _⟩

/-- The unit is busy only while the state machine waits, if it is busy only with the request
presented and hands on answers only in `STATE_ACCESS`. -/
theorem waits_next (hw : s.mmu.state ≠ .idle → waitsForBus s.core.state = true)
    (hal : s.FetchAligned)
    (hlat : s.mmu.state ≠ .idle → s.core.memValid = true ∧ s.mmu.pageFault = false)
    (hacc : s.mmu.cpuReady i.memReady = true → s.mmu.state = .access)
    (hne : (s.next p i).mmu.state ≠ .idle) :
    waitsForBus (s.next p i).core.state = true := by
  -- a busy next state means that the request of this cycle was held
  suffices hsuff : s.core.memValid = true ∧ s.mmu.cpuReady i.memReady = false ∧
      s.mmu.pageFault = false from (request_of_hold hw hal hsuff.1 hsuff.2.1 hsuff.2.2).2
  by_cases hidle : s.mmu.state = .idle
  · have hstart : s.mmu.translationStart s.req i.memReady = true := by
      by_contra hno
      rw [Bool.not_eq_true] at hno
      apply hne
      show s.mmu.stateNxt (s.mmu.translationStart s.req i.memReady) i.memReady = .idle
      simp [Sv32.stateNxt, hidle, hno]
    simp only [Sv32.translationStart, Sv32.translationPending, Bool.and_eq_true,
      Bool.not_eq_true'] at hstart
    exact ⟨hstart.1.1.1, by simp [Sv32.cpuReady, Sv32.answers, hidle], hstart.1.2⟩
  · obtain ⟨hv, hf⟩ := hlat hidle
    refine ⟨hv, ?_, hf⟩
    by_contra hc
    rw [Bool.not_eq_false] at hc
    have hr : i.memReady = true := by
      simp only [Sv32.cpuReady, Bool.and_eq_true] at hc
      exact hc.2
    apply hne
    show s.mmu.stateNxt _ i.memReady = .idle
    simp [Sv32.stateNxt, hacc hc, hr]

end Cpu

namespace System

variable {iw dw : ℕ} {p : Params} {s : System iw dw} {i : SystemIn}

/-! ## The invariant -/

/-- The memory management unit is in some phase of the request the core presents, and
works only while the state machine waits on the bus. -/
structure InStep (s : System iw dw) : Prop where
  phase : s.cpu.mmu.Phase true s.mem.content s.mem.held s.cpu.req
  waits : s.cpu.mmu.state ≠ .idle → waitsForBus s.cpu.core.state = true

/-- No fetch is presented at a misaligned address in this cycle. -/
def FetchAligned (s : System iw dw) : Prop :=
  s.cpu.core.memValid = true → s.cpu.core.isInstr = true →
    s.cpu.core.memAddr.extractLsb' 0 2 = 0#2

theorem IsReset.inStep (h : s.IsReset p) : s.InStep := by
  refine ⟨?_, fun hne => absurd h.1.2.1 hne⟩
  rw [h.2]
  exact h.1.2.phase

theorem holds (h : s.InStep) (hal : s.FetchAligned) :
    s.cpu.mmu.Holds (s.memReady i) (s.cpu.core.tlbFlush (s.coreIn i)) s.cpu.req
      (s.next p i).cpu.req :=
  Cpu.holds (i := s.cpuIn i) h.waits hal

/-- The contents change only with an answer to the processor. -/
theorem content_next (hc : s.cpu.mmu.cpuReady (s.memReady i) = false) :
    (s.next p i).mem.content = s.mem.content := by
  cases ha : s.cpu.mmu.answers with
  | false => exact Memory.next_content_of_read (Sv32.busReq_wstrb ha)
  | true =>
    have hr : s.memReady i = false := by simpa [Sv32.cpuReady, ha] using hc
    have hr' : s.mem.ready s.busReq i.mem = false := hr
    simp [System.next, Memory.next, hr']

/-- A read is answered with the word of the memory, or refused with zero. -/
theorem memRdata_cases (s : System iw dw) (i : SystemIn) :
    (s.cpuIn i).memRdata = s.mem.content (wordAddr s.busReq.addr) ∨
      (true = true ∧ (s.cpuIn i).memRdata = 0#32) := by
  have hrd : (s.cpuIn i).memRdata
      = if i.mem.accessFault then 0#32 else s.mem.content (wordAddr s.busReq.addr) := rfl
  rw [hrd]
  cases i.mem.accessFault with
  | true => exact .inr ⟨rfl, rfl⟩
  | false => exact .inl rfl

/-- The phases follow a core that holds its request. -/
theorem phase_next (h : s.cpu.mmu.Phase true s.mem.content s.mem.held s.cpu.req)
    (hhold : s.cpu.mmu.Holds (s.memReady i) (s.cpu.core.tlbFlush (s.coreIn i)) s.cpu.req
      (s.next p i).cpu.req) :
    (s.next p i).cpu.mmu.Phase true (s.next p i).mem.content (s.next p i).mem.held
      (s.next p i).cpu.req :=
  h.next (fun hr => Memory.of_ready hr) (fun _ _ => memRdata_cases s i) hhold content_next

/-- **The invariant is kept** by every edge in which fetches are aligned. -/
theorem InStep.next (h : s.InStep) (hal : s.FetchAligned) : (s.next p i).InStep := by
  refine ⟨phase_next h.phase (holds h hal),
    Cpu.waits_next (i := s.cpuIn i) h.waits hal (fun hb => ?_) fun hc => ?_⟩
  · obtain ⟨hl, hf⟩ := h.phase.latched_of_busy hb
    exact ⟨hl.reqValid, hf⟩
  · exact (h.phase.access_of_cpuReady (fun hr => (Memory.of_ready hr).2) hc).state

/-! ## Answers and requests -/

/-- The translation of a fetch from `pc`. -/
def fetchOutcome (s : System iw dw) : Option Outcome :=
  CpuReq.outcome
    { valid := true, wstrb := 0#4, addr := s.cpu.core.pc, wdata := 0#32, isInstruction := true
      satp := s.cpu.core.csr.satp, mstatus := s.cpu.core.csr.mstatus
      privilegeMode := s.cpu.core.csr.privilegeMode }
    s.cpu.mmu.ptw s.mem.content

/-- The answers of one cycle belong to their requests:
* a request on the bus that is not answered keeps address, strobes and data;
* an answer to the processor is the memory's answer to a request for the translation of
  the address presented in this cycle;
* a word taken from `FETCH` to `DECODE` is the one at the translation of the `PC` that
  goes to `OldPC`. -/
structure AnswersBelong (p : Params) (s : System iw dw) (i : SystemIn) : Prop where
  stable : s.busReq.valid = true → s.memReady i = false →
    (s.next p i).busReq.addr = s.busReq.addr ∧ (s.next p i).busReq.wstrb = s.busReq.wstrb ∧
      (s.next p i).busReq.wdata = s.busReq.wdata
  answer : (s.coreIn i).memReady = true →
    s.cpu.req.outcome s.cpu.mmu.ptw s.mem.content = some (.physical s.busReq.addr) ∧
      s.memReady i = true ∧ (s.coreIn i).memRdata = s.mem.rdata s.busReq i.mem
  fetch : s.cpu.core.state = .fetch → (s.next p i).cpu.core.state = .decode →
    ∃ pa, s.fetchOutcome = some (.physical pa) ∧
      (s.next p i).cpu.core.instr = s.mem.content (wordAddr pa) ∧
      (s.next p i).cpu.core.oldPc = s.cpu.core.pc

/-- The edge from `FETCH` to `DECODE` takes an answer without access fault. -/
theorem ready_of_decode (hs : s.cpu.core.state = .fetch)
    (hd : (s.next p i).cpu.core.state = .decode) :
    (s.coreIn i).memReady = true ∧ (s.coreIn i).accessFault = false := by
  have hd' : (s.cpu.core.next p (s.coreIn i)).state = .decode := hd
  cases hst : (s.coreIn i).stall with
  | true =>
    rw [Core.next_state_of_stall _ _ hst, hs] at hd'
    exact absurd hd' (by decide)
  | false =>
    rw [Core.next_state _ _ hst, hs] at hd'
    simp only [stateNxt, accessNxt] at hd'
    split_ifs at hd' with h1 h2 h3 h4
    exact ⟨h3, Bool.eq_false_of_not_eq_true h4⟩

theorem InStep.answersBelong (h : s.InStep) (hal : s.FetchAligned) : AnswersBelong p s i := by
  -- an answer reaches the core only in `STATE_ACCESS`, where the translation is latched
  have hanswer : (s.coreIn i).memReady = true →
      s.cpu.req.outcome s.cpu.mmu.ptw s.mem.content = some (.physical s.busReq.addr) ∧
        s.memReady i = true ∧ (s.coreIn i).memRdata = s.mem.rdata s.busReq i.mem := by
    intro hc
    have hacc := h.phase.access_of_cpuReady (fun hr => (Memory.of_ready hr).2) hc
    have hc' : (s.cpu.mmu.answers && s.memReady i) = true := hc
    obtain ⟨ha, hr⟩ := (Bool.and_eq_true_iff).1 hc'
    refine ⟨?_, hr, ?_⟩
    · rw [hacc.result, busReq, hacc.busReq]
      rfl
    · show (if s.cpu.mmu.answers then _ else _) = _
      rw [ha]
      rfl
  refine ⟨fun hv hr => ?_, hanswer, fun hs hd => ?_⟩
  -- the bus stays as it is while no answer comes
  · have hhold := holds (p := p) (i := i) h hal
    rw [hr] at hhold
    have hst := h.phase.bus_stable (s.cpuIn i).memRdata hhold hv
    have hnext : (s.next p i).cpu.mmu = s.cpu.mmu.next s.cpu.req
        (s.cpu.core.tlbFlush (s.coreIn i)) false (s.cpuIn i).memRdata := by
      rw [← hr]; rfl
    simp only [busReq, hnext]
    exact hst
  · obtain ⟨hready, haf⟩ := ready_of_decode hs hd
    obtain ⟨hout, hr, hdata⟩ := hanswer hready
    have haf' : i.mem.accessFault = false := by
      have : (i.mem.accessFault && s.memReady i) = false := haf
      simpa [hr] using this
    have hstore : storeInstr s.cpu.core.state (s.coreIn i).memReady = true := by
      simp [storeInstr, hs, hready]
    obtain ⟨ha, hw, hi⟩ := Core.memAddr_of_presentsFetch (c := s.cpu.core) (.inr hs)
    refine ⟨s.busReq.addr, ?_, ?_, ?_⟩
    · have hv : true = s.cpu.core.memValid := by rw [Core.memValid, hs]; rfl
      have hsame : s.cpu.req.SameAs
          { valid := true, wstrb := 0#4, addr := s.cpu.core.pc, wdata := 0#32
            isInstruction := true, satp := s.cpu.core.csr.satp
            mstatus := s.cpu.core.csr.mstatus
            privilegeMode := s.cpu.core.csr.privilegeMode } :=
        ⟨hv, hw.symm, ha.symm, hi.symm, rfl, rfl, rfl⟩
      exact (hsame.outcome _ _).trans hout
    · show (s.cpu.core.next p (s.coreIn i)).instr = _
      simp only [Core.next, hstore, if_true, hdata, Memory.rdata, haf']
      rfl
    · show (s.cpu.core.next p (s.coreIn i)).oldPc = _
      simp only [Core.next, hstore, if_true]

section Run

variable {inp : ℕ → SystemIn}

theorem inStep_run (hs : s.IsReset p) (n : ℕ)
    (hal : ∀ k, k < n → (Sync.run (System.next p) s inp k).FetchAligned) :
    (Sync.run (System.next p) s inp n).InStep := by
  induction n with
  | zero => exact hs.inStep
  | succ n ih => exact (ih fun k hk => hal k (by omega)).next (hal n (by omega))

/-- **Bus integrity.**  In a run from reset, as long as no fetch has been presented at a
misaligned address, every answer belongs to the request it is used for. -/
theorem answers_belong (hs : s.IsReset p) (n : ℕ)
    (hal : ∀ k, k ≤ n → (Sync.run (System.next p) s inp k).FetchAligned) :
    AnswersBelong p (Sync.run (System.next p) s inp n) (inp n) :=
  (inStep_run hs n fun k hk => hal k (by omega)).answersBelong (hal n le_rfl)

end Run

instance (s : System iw dw) : Decidable s.FetchAligned :=
  inferInstanceAs (Decidable (_ → _ → _))

/-- `jal x1, 10` at address 0, and `ebreak` in the word the misaligned target lies in. -/
def misalignedJump : BitVec 32 → Word := fun a =>
  [0x00a000ef#32, 0x00000013#32, 0x00100073#32].getD a.toNat 0#32

/-- Memory that answers the fetch of the jump at once, and the fetch from its target only
when the state machine fetches the trap handler. -/
def lateAnswer : ℕ → SystemIn := fun n =>
  ⟨⟨n < 8 || n == 12, false⟩, false, false, false, false⟩

/-- The fetch of the jump is answered in cycle 3. -/
theorem answers_belong_first_fetch :
    (∀ k, k ≤ 3 → (Sync.run (System.next sampleParams)
        (System.reset 4 3 sampleParams misalignedJump) lateAnswer k).FetchAligned) ∧
      ((Sync.run (System.next sampleParams)
        (System.reset 4 3 sampleParams misalignedJump) lateAnswer 3).coreIn (lateAnswer 3)).memReady
          = true ∧
      AnswersBelong sampleParams (Sync.run (System.next sampleParams)
        (System.reset 4 3 sampleParams misalignedJump) lateAnswer 3) (lateAnswer 3) := by
  have hal : ∀ k, k ≤ 3 → (Sync.run (System.next sampleParams)
      (System.reset 4 3 sampleParams misalignedJump) lateAnswer k).FetchAligned := by
    intro k hk
    obtain rfl | rfl | rfl | rfl : k = 0 ∨ k = 1 ∨ k = 2 ∨ k = 3 := by omega
    all_goals decide +kernel
  exact ⟨hal, by decide +kernel,
    answers_belong (System.reset_isReset 4 3 sampleParams misalignedJump) 3 hal⟩

/-- The answer to the fetch from the misaligned target is taken as the first
instruction of the trap handler at address 0. -/
theorem misaligned_fetch_reaches_handler :
    ¬ ∀ (p : Params) (s : System 4 3) (inp : ℕ → SystemIn), s.IsReset p →
      ∀ n, AnswersBelong p (Sync.run (System.next p) s inp n) (inp n) := by
  intro h
  have hb := h sampleParams _ lateAnswer (System.reset_isReset 4 3 sampleParams misalignedJump) 12
  obtain ⟨pa, hpa, hi, -⟩ := hb.fetch (by decide +kernel) (by decide +kernel)
  have h0 : (Sync.run (System.next sampleParams) (System.reset 4 3 sampleParams misalignedJump)
      lateAnswer 12).fetchOutcome = some (.physical 0) := by decide +kernel
  rw [h0] at hpa
  cases hpa
  revert hi
  decide +kernel

end System

end KianRiscV
