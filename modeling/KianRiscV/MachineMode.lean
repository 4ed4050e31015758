/-
# Machine mode over a fair memory

In machine mode, with `MPRV` clear and interrupts disabled, `sv32` hands every access on to its own
address and finds no page fault, and no instruction is displaced by an interrupt.  When the memory
answers again and again, every access that the state machine waits for is answered.
-/
import KianRiscV.AtomicRmw
import KianRiscV.InterruptDelivery
import KianRiscV.Rv32Machine

namespace KianRiscV

/-! ## The bypass of the memory management unit -/

namespace Sv32

variable {iw dw : ℕ} {m : Sv32 iw dw} {r : CpuReq} {rd : BitVec 32 → Word} {held : Option BusReq}
  {rdy : Bool}

/-- No page fault is reported and none is on its way. -/
structure Clean (m : Sv32 iw dw) : Prop where
  now : m.pageFault = false
  next : m.anyPageFault = false

theorem IsReset.clean (h : m.IsReset) : m.Clean := by
  obtain ⟨-, -, hf, -, -, -, -, -, -, -, -, -, -, -, hi, hd, -⟩ := h
  refine ⟨hf, ?_⟩
  rw [anyPageFault, hi, hd]
  rfl

theorem RequestPhase.clean (h : m.RequestPhase r) : m.Clean :=
  ⟨h.pageFault, (anyPageFault_eq h.other).trans h.sel.pageFault⟩

theorem AccessPhase.clean (h : m.AccessPhase rd held r) : m.Clean :=
  ⟨h.pageFault, (anyPageFault_eq h.other).trans h.sel.pageFault⟩

/-- The result of a request that bypasses translation is no page fault. -/
theorem DonePhase.clean (h : m.DonePhase false rd held r) (hm : r.machine = true) : m.Clean := by
  refine ⟨h.pageFault, (anyPageFault_eq h.other).trans ?_⟩
  rcases h.result with hr | ⟨hno, -⟩
  · by_contra hf
    rw [Bool.not_eq_false] at hf
    simp [CpuReq.outcome, CpuReq.outcomeOf, hm, hf] at hr
  · exact absurd hno (by decide)

/-- Every edge keeps the unit clean; with the request presented it brings the answer nearer, unless
the access waits for the memory. -/
theorem Phase.machine_next {flush : Bool} (h : m.Phase true rd held r) (hm : r.machine = true)
    (hc : m.Clean) (hflush : m.state ≠ .idle → flush = false)
    (hbus : rdy = true → m.busReq.valid = true ∧ held = some m.busReq) (rdata : Word) :
    (m.next r flush rdy rdata).Clean ∧
      (r.valid = true → m.cpuReady rdy = true ∨ (m.next r flush rdy rdata).phaseRank < m.phaseRank ∨
        m.waitsForMem = true ∧ rdy = false) := by
  have hno := not_ready_of_not_held hbus
  cases h with
  | idle h =>
    obtain rfl := hno (.inl h.busReq_valid)
    cases hv : r.valid with
    | true =>
      have hn := h.next_start hv hc.now flush rdata
      exact ⟨hn.clean, fun _ => .inr (.inl (by rw [hn.phaseRank, h.phaseRank]; omega))⟩
    | false =>
      obtain ⟨hn, hf⟩ := h.next_rest (.inl hv) flush rdata rd r
      exact ⟨⟨hf, hn.done.2⟩, fun hv' => absurd hv' (by decide)⟩
  | request h =>
    obtain rfl := hno (.inl h.busReq_valid)
    have hn : (m.next r flush false rdata).DonePhase false rd none r := h.next_machine hm flush rdata
    exact ⟨hn.clean hm, fun _ => .inr (.inl (by rw [hn.phaseRank, h.phaseRank]; omega))⟩
  | lookup h => exact absurd (h.machine.symm.trans hm) (by decide)
  | read h => exact absurd (h.machine.symm.trans hm) (by decide)
  | answered h => exact absurd (h.machine.symm.trans hm) (by decide)
  | check h => exact absurd (h.machine.symm.trans hm) (by decide)
  | done h =>
    obtain rfl := hno (.inr h.held)
    obtain rfl := hflush (by rw [h.state]; decide)
    have hf : m.sel.pageFault = false := (anyPageFault_eq h.other).symm.trans hc.next
    obtain ⟨hn, -⟩ := h.next_access hf rdata
    exact ⟨hn.clean, fun _ => .inr (.inl (by rw [hn.phaseRank, h.phaseRank]; omega))⟩
  | access h =>
    obtain rfl := hflush (by rw [h.state]; decide)
    cases hrdy : rdy with
    | false =>
      obtain ⟨hn, -⟩ := h.next_wait rdata
      exact ⟨hn.clean, fun _ => .inr (.inr ⟨by simp [waitsForMem, h.state], rfl⟩)⟩
    | true =>
      obtain ⟨hn, hf⟩ : (m.next r false true rdata).IdlePhase true rd none r ∧ _ :=
        h.next_ready false rdata rd r
      exact ⟨⟨hf, hn.done.2⟩, fun _ => .inl (by simp [cpuReady, answers, h.state])⟩

end Sv32

/-! ## The mode -/

/-- Machine mode for fetches and data, with interrupts disabled. -/
structure CsrUnit.MachineOnly (c : CsrUnit) : Prop where
  mode : isMachine c.privilegeMode = true
  data : isMachine (effectivePriv c.privilegeMode c.mstatus) = true
  interrupts : bitOf c.mstatus 3 = false

theorem CsrUnit.MachineOnly.of_countsOn {c c' : CsrUnit} (h : c.MachineOnly) (hc : c.CountsOn c') :
    c'.MachineOnly := by
  obtain ⟨-, hms, hpriv⟩ := hc.translation
  constructor
  · rw [hpriv]
    exact h.mode
  · rw [hpriv, hms]
    exact h.data
  · rw [hms]
    exact h.interrupts

theorem CsrUnit.machineOnly_reset : CsrUnit.reset.MachineOnly :=
  ⟨by decide, by decide, by decide⟩

/-- No line reaches the state machine. -/
theorem CsrUnit.MachineOnly.pending {c : CsrUnit} (h : c.MachineOnly) (irq3 irq7 irq9 irq11 : Bool) :
    (c.irqLines irq3 irq7 irq9 irq11).pending = false := by
  have hm : c.mEnabled = false := by simp [CsrUnit.mEnabled, h.mode, h.interrupts]
  have hmode : c.privilegeMode = 3#2 := by simpa [isMachine] using h.mode
  have hs : c.sEnabled = false := by simp [CsrUnit.sEnabled, isUser, isSupervisor, hmode]
  by_contra hp
  rw [Bool.not_eq_false, CsrUnit.pending_iff] at hp
  obtain ⟨k, hk, hb⟩ := hp
  have hk32 : k < 32 := by
    simp only [CsrUnit.irqCodes, List.mem_cons, List.not_mem_nil, or_false] at hk
    omega
  rcases CsrUnit.interrupts_bits c irq3 irq7 irq9 irq11 with ⟨-, hbit⟩ | ⟨-, hbit⟩ <;>
    rw [hbit k hk32] at hb
  · simp [CsrUnit.mInterrupt, hm] at hb
  · simp [CsrUnit.sInterrupt, hs] at hb

namespace System

variable {iw dw : ℕ} {p : Params} {s t : System iw dw} {i : SystemIn} {inp : ℕ → SystemIn}

/-- The bus is in step, and accesses bypass the translation. -/
structure Steady (t : System iw dw) : Prop where
  inStep : t.InStep
  clean : t.cpu.mmu.Clean
  mode : t.cpu.core.csr.MachineOnly

theorem Steady.machine (h : t.Steady) : t.cpu.req.machine = true := by
  unfold CpuReq.machine
  cases t.cpu.req.isInstruction
  · exact h.mode.data
  · exact h.mode.mode

/-- The physical address of an access is its address. -/
theorem Steady.outcome (h : t.Steady) :
    t.cpu.req.outcome t.cpu.mmu.ptw t.mem.content
      = some (.physical (Rv32im.physical t.cpu.core.memAddr)) := by
  rw [CpuReq.outcome, CpuReq.outcomeOf, h.machine, if_pos rfl]
  rfl

theorem Steady.pageFault (h : t.Steady) : (t.coreIn i).pageFault = false := h.clean.now

theorem Steady.pending (h : t.Steady) (j : CoreIn) : (t.cpu.core.fsmIn j).irq.pending = false :=
  h.mode.pending _ _ _ _

/-- A busy unit works on the request that the core presents. -/
theorem InStep.presented (h : t.InStep) (hb : t.cpu.mmu.state ≠ .idle) :
    t.cpu.core.memValid = true ∧ t.cpu.core.tlbFlush (t.coreIn i) = false := by
  have hv : t.cpu.core.memValid = true := (h.phase.latched_of_busy hb).1.reqValid
  exact ⟨hv, Core.tlbFlush_of_memValid hv _⟩

/-- One cycle of the processor for its memory management unit. -/
theorem Steady.mmu_next (h : t.Steady) :
    (t.next p i).cpu.mmu.Clean ∧
      (t.cpu.core.memValid = true → (t.coreIn i).memReady = true ∨
        (t.next p i).cpu.mmu.phaseRank < t.cpu.mmu.phaseRank ∨
        t.cpu.mmu.waitsForMem = true ∧ t.memReady i = false) :=
  h.inStep.phase.machine_next h.machine h.clean (fun hb => (h.inStep.presented hb).2)
    (fun hr => Memory.of_ready hr) (t.cpuIn i).memRdata

/-- A cycle that leaves the control and status registers alone. -/
theorem Steady.next (h : t.Steady) (hc : Core.touchesCsr t.cpu.core.state = false)
    (hal : t.FetchAligned) : (t.next p i).Steady :=
  ⟨h.inStep.next hal, h.mmu_next.1, h.mode.of_countsOn (CsrUnit.linesOnly_of_quiet
    (Core.csrIn_quiet hc (t.coreIn i)) p.systemClk).rest⟩

/-! ## Every access is answered -/

/-- The memory answers again and again, and refuses nothing. -/
structure Fair (inp : ℕ → SystemIn) : Prop where
  answers : ∀ n, ∃ m, n ≤ m ∧ (inp m).mem.answer = true
  grants : ∀ n, (inp n).mem.accessFault = false

theorem Fair.shift (h : Fair inp) (k : ℕ) : Fair fun n => inp (k + n) := by
  refine ⟨fun n => ?_, fun n => h.grants (k + n)⟩
  obtain ⟨m, hm, ha⟩ := h.answers (k + n)
  exact ⟨m - k, by omega, by rwa [show k + (m - k) = m by omega]⟩

theorem Fair.accessFault (h : Fair inp) (t : System iw dw) (n : ℕ) :
    (t.coreIn (inp n)).accessFault = false := by
  show ((inp n).mem.accessFault && t.memReady (inp n)) = false
  rw [h.grants n, Bool.false_and]

/-- The state machine waits for an access. -/
structure Waiting (t : System iw dw) : Prop extends Steady t where
  waits : waitsForBus t.cpu.core.state = true
  valid : t.cpu.core.memValid = true
  aligned : t.FetchAligned

/-- Without answer it waits on. -/
theorem Waiting.next (h : t.Waiting) (hr : (t.coreIn i).memReady = false) :
    (t.next p i).Waiting := by
  obtain ⟨hsame, hw⟩ := Cpu.request_of_hold (p := p) (i := t.cpuIn i) h.inStep.waits h.aligned
    h.valid hr h.clean.now
  refine ⟨h.toSteady.next (Core.touchesCsr_of_memValid h.valid) h.aligned, hw,
    hsame.valid.trans h.valid, fun hv hi => ?_⟩
  have haddr : (t.next p i).cpu.core.memAddr = t.cpu.core.memAddr := hsame.addr
  have hins : (t.next p i).cpu.core.isInstr = t.cpu.core.isInstr := hsame.isInstruction
  rw [haddr]
  exact h.aligned h.valid (hins.symm.trans hi)

/-- A waiting unit gets its answer with the memory's next one. -/
theorem Waiting.answered (h : t.Waiting) (hw : t.cpu.mmu.waitsForMem = true)
    (ha : i.mem.answer = true) : t.memReady i = true := by
  obtain ⟨hv, hh⟩ := h.inStep.phase.held_of_waits hw
  simp [memReady, Memory.ready, busReq, ha, hv, hh]

/-- In machine mode a unit that waits for the memory waits for the access. -/
theorem Waiting.answers (h : t.Waiting) (hw : t.cpu.mmu.waitsForMem = true) :
    t.cpu.mmu.answers = true := by
  cases hst : t.cpu.mmu.state with
  | idle => simp [Sv32.waitsForMem, hst] at hw
  | access => simp [Sv32.answers, hst]
  | translate =>
    simp only [Sv32.waitsForMem, hst, Bool.or_eq_true, Bool.and_eq_true, beq_iff_eq] at hw
    rcases hw with hw | ⟨-, hw⟩
    · exact absurd hw (by decide)
    · exact absurd ((h.inStep.phase.read_of_s2 hw).machine.symm.trans h.machine) (by decide)

section Run

variable {k : ℕ}

/-- The state machine has waited from cycle `k` on. -/
structure WaitsFrom (p : Params) (s : System iw dw) (inp : ℕ → SystemIn) (k j : ℕ) : Prop where
  le : k ≤ j
  waiting : ∀ l, k ≤ l → l ≤ j → (Sync.run (System.next p) s inp l).Waiting
  unanswered : ∀ l, k ≤ l → l < j →
    ((Sync.run (System.next p) s inp l).coreIn (inp l)).memReady = false

theorem WaitsFrom.succ {j : ℕ} (h : WaitsFrom p s inp k j)
    (hr : ((Sync.run (System.next p) s inp j).coreIn (inp j)).memReady = false) :
    WaitsFrom p s inp k (j + 1) := by
  refine ⟨by have := h.le; omega, fun l hkl hl => ?_, fun l hkl hl => ?_⟩
  · rcases Nat.lt_or_eq_of_le hl with hlt | rfl
    · exact h.waiting l hkl (by omega)
    · exact (h.waiting j h.le le_rfl).next hr
  · rcases Nat.lt_or_eq_of_le (Nat.lt_succ_iff.1 hl) with hlt | rfl
    · exact h.unanswered l hkl hlt
    · exact hr

/-- The memory's next answer ends the wait for the access. -/
theorem WaitsFrom.exists_of_waitsForMem (hfair : Fair inp) {j : ℕ} (h : WaitsFrom p s inp k j)
    (hw : (Sync.run (System.next p) s inp j).cpu.mmu.waitsForMem = true) :
    ∃ m, WaitsFrom p s inp k m ∧
      ((Sync.run (System.next p) s inp m).coreIn (inp m)).memReady = true := by
  -- a cycle without the memory's answer leaves the access on the bus
  have hstay : ∀ l, (WaitsFrom p s inp k l ∧
      (Sync.run (System.next p) s inp l).cpu.mmu.waitsForMem = true) →
      ¬ (inp l).mem.answer = true → WaitsFrom p s inp k (l + 1) ∧
        (Sync.run (System.next p) s inp (l + 1)).cpu.mmu.waitsForMem = true := by
    rintro l ⟨hl, hwl⟩ hg
    have hwait := hl.waiting l hl.le le_rfl
    have hno : (Sync.run (System.next p) s inp l).memReady (inp l) = false := by
      simp [memReady, Memory.ready, Bool.eq_false_of_not_eq_true hg]
    have hr : ((Sync.run (System.next p) s inp l).coreIn (inp l)).memReady = false := by
      show ((Sync.run (System.next p) s inp l).cpu.mmu.answers &&
        (Sync.run (System.next p) s inp l).memReady (inp l)) = false
      rw [hno, Bool.and_false]
    have hnext : (Sync.run (System.next p) s inp (l + 1)).cpu.mmu
        = (Sync.run (System.next p) s inp l).cpu.mmu.next (Sync.run (System.next p) s inp l).cpu.req
          false false ((Sync.run (System.next p) s inp l).cpuIn (inp l)).memRdata := by
      have hflush := Core.tlbFlush_of_memValid hwait.valid
        ((Sync.run (System.next p) s inp l).coreIn (inp l))
      show Sv32.next _ _ (Core.tlbFlush _ _) (memReady _ _) _ = _
      rw [hno]
      exact congrArg (fun flush => Sv32.next _ _ flush false _) hflush
    refine ⟨hl.succ hr, ?_⟩
    rw [hnext]
    exact (hwait.inStep.phase.wait_next hwl _).1
  obtain ⟨m, -, ⟨hm, hwm⟩, ha⟩ := Sync.exists_of_wait hstay ⟨h, hw⟩ (hfair.answers j)
  have hwait := hm.waiting m hm.le le_rfl
  refine ⟨m, hm, ?_⟩
  show ((Sync.run (System.next p) s inp m).cpu.mmu.answers &&
    (Sync.run (System.next p) s inp m).memReady (inp m)) = true
  rw [hwait.answers hwm, hwait.answered hwm ha]
  rfl

/-- **Every access that the state machine waits for is answered.** -/
theorem Waiting.exists_answer (hfair : Fair inp)
    (h : (Sync.run (System.next p) s inp k).Waiting) :
    ∃ m, WaitsFrom p s inp k m ∧ AnsweredIn p s inp k m := by
  have hstep : ∀ j, WaitsFrom p s inp k j →
      (∃ m, WaitsFrom p s inp k m ∧
        ((Sync.run (System.next p) s inp m).coreIn (inp m)).memReady = true) ∨
      ∃ l, j < l ∧ WaitsFrom p s inp k l ∧
        (Sync.run (System.next p) s inp l).cpu.mmu.phaseRank
          < (Sync.run (System.next p) s inp j).cpu.mmu.phaseRank := by
    intro j hj
    have hwait := hj.waiting j hj.le le_rfl
    cases hready : ((Sync.run (System.next p) s inp j).coreIn (inp j)).memReady with
    | true => exact .inl ⟨j, hj, hready⟩
    | false =>
      rcases (hwait.mmu_next (p := p) (i := inp j)).2 hwait.valid with hr | hlt | ⟨hw, -⟩
      · exact absurd (hready.symm.trans hr) (by decide)
      · exact .inr ⟨j + 1, Nat.lt_succ_self j, hj.succ hready, hlt⟩
      · exact .inl (hj.exists_of_waitsForMem hfair hw)
  have hstart : WaitsFrom p s inp k k := by
    refine ⟨le_rfl, fun l hkl hl => ?_, fun l hkl hl => by omega⟩
    obtain rfl : k = l := by omega
    exact h
  obtain ⟨-, -, m, hm, hready⟩ := Sync.eventually_of_rank
    (fun j => (Sync.run (System.next p) s inp j).cpu.mmu.phaseRank) hstep hstart
  exact ⟨m, hm, hm.le, fun l hkl hl => ⟨hm.unanswered l hkl hl,
    (hm.waiting l hkl (by omega)).pageFault⟩, hready, hfair.accessFault _ m⟩

end Run

end System

end KianRiscV
