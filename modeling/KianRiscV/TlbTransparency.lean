/-
# The TLBs are invisible

`sv32` with its two TLBs behind a client that presents one request after the other, writes
CSRs and executes `SFENCE.VMA`.  As long as page tables stay as they are between two
flushes and no ASID is used with two roots between two flushes, every request has the
result of a walk of memory.  The registers of `csr_unit` are part of the state, because
what makes the missing flush of `SFENCE.VMA` in bare mode harmless is that `satp` cannot
leave Sv32 mode without a flush.
-/
import KianRiscV.BusIntegrity
import KianRiscV.Sv32Spec

namespace KianRiscV

/-! ## The client -/

/-- `sv32` with its memory, and the control and status registers. -/
structure TlbClient (iw dw : ℕ) where
  csr : CsrUnit
  sys : MmuSys iw dw

/-- One cycle of the client: a request, the state machine and its inputs, what
`csr_unit` is told to do, and whether the memory answers. -/
structure TlbClientIn where
  valid : Bool
  wstrb : BitVec 4
  addr : Word
  wdata : Word
  isInstruction : Bool
  fsm : FsmState
  fsmIn : FsmIn
  csrIn : CsrIn
  answer : Bool

namespace TlbClient

variable {iw dw : ℕ} {s : TlbClient iw dw} {i : TlbClientIn}

/-- The request with the registers that govern its translation. -/
def req (s : TlbClient iw dw) (i : TlbClientIn) : CpuReq where
  valid := i.valid
  wstrb := i.wstrb
  addr := i.addr
  wdata := i.wdata
  isInstruction := i.isInstruction
  satp := s.csr.satp
  mstatus := s.csr.mstatus
  privilegeMode := s.csr.privilegeMode

/-- `tlb_flush | tlb_flush_csr`. -/
def flush (s : TlbClient iw dw) (i : TlbClientIn) : Bool :=
  fsmTlbFlush i.fsm
      { i.fsmIn with
        satpMode := satpModeOf s.csr.satp
        mstatusTvm := bitOf s.csr.mstatus 20
        privilegeMode := s.csr.privilegeMode } ||
    s.csr.tlbFlush i.csrIn

/-- What `sv32` and the memory see. -/
def mmuIn (s : TlbClient iw dw) (i : TlbClientIn) : MmuIn := ⟨s.req i, s.flush i, i.answer⟩

/-- One clock edge. -/
def next (clk : ℕ) (s : TlbClient iw dw) (i : TlbClientIn) : TlbClient iw dw :=
  ⟨s.csr.next clk i.csrIn, s.sys.next (s.mmuIn i)⟩

/-- The registers after reset, with any memory contents. -/
def IsReset (s : TlbClient iw dw) : Prop :=
  s.csr = CsrUnit.reset ∧ s.sys.mmu.IsReset ∧ s.sys.mem.held = none

/-- The state after `n` cycles. -/
def run (clk : ℕ) (s : TlbClient iw dw) (inp : ℕ → TlbClientIn) : ℕ → TlbClient iw dw :=
  Sync.run (next clk) s inp

/-- The inputs of `sv32` and the memory along a run. -/
def mmuInAt (clk : ℕ) (s : TlbClient iw dw) (inp : ℕ → TlbClientIn) (n : ℕ) : MmuIn :=
  (run clk s inp n).mmuIn (inp n)

variable {clk : ℕ} {inp : ℕ → TlbClientIn}

theorem run_succ (n : ℕ) : run clk s inp (n + 1) = (run clk s inp n).next clk (inp n) := rfl

theorem run_sys (n : ℕ) :
    (run clk s inp n).sys = MmuSys.run s.sys (mmuInAt clk s inp) n := by
  induction n with
  | zero => rfl
  | succ n ih =>
    rw [run_succ, MmuSys.run_succ, ← ih]
    rfl

/-- Each request is held until it is answered or found to fault, and nothing is flushed
under a request in work. -/
def Held (clk : ℕ) (s : TlbClient iw dw) (inp : ℕ → TlbClientIn) : Prop :=
  MmuSys.Held s.sys (mmuInAt clk s inp)

theorem phase (hreset : s.IsReset) (hheld : Held clk s inp) (n : ℕ) :
    (run clk s inp n).sys.Phase ((run clk s inp n).req (inp n)) := by
  rw [run_sys]
  refine MmuSys.phase_run ?_ hheld n
  unfold MmuSys.Phase
  rw [hreset.2.2]
  exact hreset.2.1.phase

/-! ## Flushes and bare mode -/

theorem tlbsEmpty_flush (n : ℕ) (h : (run clk s inp n).flush (inp n) = true) :
    TlbsEmpty (run clk s inp (n + 1)).sys.mmu.ptw :=
  tlbsEmpty_of_flush h

/-- In bare mode both TLBs are empty: entries are written by walks only, walks start in
Sv32 mode, and leaving Sv32 mode flushes. -/
theorem tlbsEmpty_bare (hreset : s.IsReset) (hheld : Held clk s inp) (n : ℕ)
    (h : satpModeOf (run clk s inp n).csr.satp = false) :
    TlbsEmpty (run clk s inp n).sys.mmu.ptw := by
  induction n with
  | zero =>
    obtain ⟨-, -, -, -, -, -, -, -, -, -, -, -, -, -, -, -, hw⟩ := hreset.2.1
    exact ⟨hw.2.2.2.2.2.1, hw.2.2.2.2.2.2.1⟩
  | succ n ih =>
    cases hfl : (run clk s inp n).flush (inp n) with
    | true => exact tlbsEmpty_flush n hfl
    | false =>
      have hmode : satpModeOf (run clk s inp n).csr.satp = false := by
        rw [← CsrUnit.satpMode_next (Bool.or_eq_false_iff.1 hfl).2 clk]
        exact h
      refine (ih hmode).next ?_
      by_contra hfill
      rw [Bool.not_eq_false] at hfill
      obtain ⟨-, -, hsv32, -⟩ :=
        Sv32.Phase.fill (phase hreset hheld n) (fun _ _ => .inl rfl) hfill
      exact absurd (hsv32.symm.trans hmode) (by decide)

/-! ## The results of requests -/

/-- `roots` says which root each ASID is used with in each cycle: it changes only with a
flush, and every request presented in Sv32 mode keeps to it. -/
structure UsesRoots (clk : ℕ) (s : TlbClient iw dw) (inp : ℕ → TlbClientIn)
    (roots : ℕ → Roots) : Prop where
  flush : ∀ n, (run clk s inp n).flush (inp n) = false → roots (n + 1) = roots n
  admits : ∀ n, (inp n).valid = true → satpModeOf (run clk s inp n).csr.satp = true →
    (roots n).Admits (run clk s inp n).csr.satp

/-- The page tables under the roots in use do not change between flushes. -/
def TablesStable (clk : ℕ) (s : TlbClient iw dw) (inp : ℕ → TlbClientIn)
    (roots : ℕ → Roots) : Prop :=
  ∀ n, (run clk s inp n).flush (inp n) = false → ∀ satp, (roots n).Admits satp →
    SameTables (run clk s inp n).sys.mem.content (run clk s inp (n + 1)).sys.mem.content satp

/-- Sound TLBs, over whole runs. -/
theorem tlbsOk {roots : ℕ → Roots} (hreset : s.IsReset) (hheld : Held clk s inp)
    (hroots : UsesRoots clk s inp roots) (htables : TablesStable clk s inp roots) (n : ℕ) :
    TlbsOk (roots n) (run clk s inp n).sys.mem.content (run clk s inp n).sys.mmu.ptw := by
  induction n with
  | zero =>
    refine TlbsEmpty.ok (tlbsEmpty_bare hreset hheld 0 ?_)
    show satpModeOf s.csr.satp = false
    rw [hreset.1]
    decide
  | succ n ih =>
    cases hfl : (run clk s inp n).flush (inp n) with
    | true => exact (tlbsEmpty_flush n hfl).ok
    | false =>
      rw [hroots.flush n hfl]
      refine TlbsOk.mono ?_ (htables n hfl)
      exact MmuSys.tlbsOk_next (phase hreset hheld n) (hroots.admits n) ih

/-- **The TLBs are invisible.**  From reset, with requests held until they end:
* a flush, by `SFENCE.VMA` or by a write that changes the mode of `satp`, leaves both TLBs
  without a valid entry;
* whenever `satp` is in bare mode both TLBs are empty;
* if between flushes page tables do not change and each ASID is used with one root, then a
  request that is answered is served at the address a walk of memory gives, one that
  faults is one for which the walk gives a page fault, and on a memory that answers again
  and again every request for which the walk gives a result ends. -/
theorem tlbs_invisible (hreset : s.IsReset) (hheld : Held clk s inp) :
    (∀ n, (run clk s inp n).flush (inp n) = true →
      TlbsEmpty (run clk s inp (n + 1)).sys.mmu.ptw) ∧
    (∀ n, satpModeOf (run clk s inp n).csr.satp = false →
      TlbsEmpty (run clk s inp n).sys.mmu.ptw) ∧
    ∀ roots, UsesRoots clk s inp roots → TablesStable clk s inp roots →
      (∀ n, (inp n).valid = true →
        ((run clk s inp n).sys.Answered (mmuInAt clk s inp n) →
          ((run clk s inp n).req (inp n)).walkOutcome (run clk s inp n).sys.mem.content
            = some (.physical (run clk s inp n).sys.mmu.busReq.addr)) ∧
        ((run clk s inp n).sys.mmu.pageFault = true →
          ((run clk s inp n).req (inp n)).walkOutcome (run clk s inp n).sys.mem.content
              = some .pageFault ∧
            (run clk s inp n).sys.mmu.faultAddress = (inp n).addr)) ∧
      ((∀ n, ∃ m, n ≤ m ∧ (inp m).answer = true) → ∀ n, (inp n).valid = true →
        ((run clk s inp n).req (inp n)).walkOutcome (run clk s inp n).sys.mem.content ≠ none →
        ∃ k, n ≤ k ∧ (mmuInAt clk s inp n).req.SameAs (mmuInAt clk s inp k).req ∧
          (run clk s inp k).sys.Ends (mmuInAt clk s inp k)) := by
  refine ⟨tlbsEmpty_flush, tlbsEmpty_bare hreset hheld, fun roots hroots htables => ⟨?_, ?_⟩⟩
  · intro n hv
    obtain ⟨hanswer, hfault⟩ :=
      MmuSys.Phase.result (i := mmuInAt clk s inp n) (phase hreset hheld n)
    -- an entry found in a TLB is what the walk of the present memory gives
    have hout := (tlbsOk hreset hheld hroots htables n).outcome
      (r := (run clk s inp n).req (inp n)) (hroots.admits n hv)
    rw [← hout]
    exact ⟨fun ha => (hanswer ha).1, hfault⟩
  · intro hans n hv hend
    have hphase : ∀ k, (MmuSys.run s.sys (mmuInAt clk s inp) k).Phase (mmuInAt clk s inp k).req := by
      intro k
      rw [← run_sys]
      exact phase hreset hheld k
    rw [run_sys] at hend
    obtain ⟨k, hnk, hpres, hends⟩ := MmuSys.exists_ends hphase hheld hans hv hend
    refine ⟨k, hnk, hpres.req, ?_⟩
    rw [run_sys]
    exact hends

/-! ## A run -/

/-- The inputs of `csr_unit` in a cycle without CSR instruction. -/
def idleCsr : CsrIn where
  incrInstRetired := false
  csrAddr := 0#12
  csrOp := .na
  we := false
  rd1 := 0#32
  uimm := 0#5
  exceptionEvent := false
  mret := false
  sret := false
  cause := 0#32
  pc := 0#32
  badaddr := 0#32
  irq3 := false
  irq7 := false
  irq9 := false
  irq11 := false

/-- The inputs of `csr_unit` for a `CSRRW`. -/
def csrrw (csrAddr : BitVec 12) (value : Word) : CsrIn :=
  { idleCsr with csrAddr := csrAddr, csrOp := .csrrw, we := true, rd1 := value }

/-- Machine code that turns Sv32 on and returns to supervisor mode, which then loads from
`0x00401ABC` again and again. -/
def loadAsSupervisor (n : ℕ) : TlbClientIn where
  valid := decide (3 ≤ n)
  wstrb := 0#4
  addr := 0x00401ABC#32
  wdata := 0#32
  isInstruction := false
  fsm := .memRead
  fsmIn := {
    instr := 0x00000013#32, zero := false, mstatusTw := false, mstatusTvm := false
    satpMode := false, faultAddress := 0#32, cpuMemAddr := 0#32, isInstructionUnaligned := false
    isLoadUnaligned := false, isStoreUnaligned := false, accessFault := false, pageFault := false
    amoReservedStateLoad := false, privilegeMode := 3#2, csrAccessFault := false
    irq := ⟨false, false, false, false, false, false⟩, mulExtReady := false, memReady := false }
  csrIn := if n = 0 then csrrw 0x300#12 0x800#32
    else if n = 1 then csrrw 0x180#12 0x80000001#32
    else if n = 2 then { idleCsr with mret := true } else idleCsr
  answer := true

/-- The reset state over the page tables of `rd`. -/
def atReset (rd : BitVec 32 → Word) : TlbClient 4 3 :=
  ⟨CsrUnit.reset, ⟨Sv32.reset 4 3, ⟨rd, none⟩⟩⟩

theorem atReset_isReset (rd : BitVec 32 → Word) : (atReset rd).IsReset :=
  ⟨rfl, Sv32.reset_isReset 4 3, rfl⟩

theorem run_csr (n : ℕ) : (run clk s inp n).csr
    = Sync.run (CsrUnit.next clk) s.csr (fun k => (inp k).csrIn) n := by
  induction n with
  | zero => rfl
  | succ n ih => rw [run_succ, Sync.run_succ, ← ih]; rfl

theorem loadAsSupervisor_csr (rd : BitVec 32 → Word) (n : ℕ) (hn : 3 ≤ n) :
    (run 0 (atReset rd) loadAsSupervisor n).csr.satp = 0x80000001#32 ∧
      (run 0 (atReset rd) loadAsSupervisor n).csr.mstatus = 0x80#32 ∧
      (run 0 (atReset rd) loadAsSupervisor n).csr.privilegeMode = 1#2 := by
  induction n, hn using Nat.le_induction with
  | base =>
    rw [run_csr, show (atReset rd).csr = CsrUnit.reset from rfl]
    refine ⟨?_, ?_, ?_⟩ <;> decide
  | succ n hn ih =>
    have hq : CsrUnit.IsQuiet (loadAsSupervisor n).csrIn := by
      simp only [loadAsSupervisor, show n ≠ 0 by omega, show n ≠ 1 by omega, show n ≠ 2 by omega, if_false]
      exact ⟨rfl, rfl, rfl, rfl⟩
    obtain ⟨hp, hm, hs, -⟩ := CsrUnit.next_of_quiet hq 0
      (run 0 (atReset rd) loadAsSupervisor n).csr
    exact ⟨hs.trans ih.1, hm.trans ih.2.1, hp.trans ih.2.2⟩

theorem loadAsSupervisor_held (rd : BitVec 32 → Word) :
    Held 0 (atReset rd) loadAsSupervisor := by
  intro n hv _ _
  have hn : 3 ≤ n := of_decide_eq_true hv
  obtain ⟨hs, hm, hp⟩ := loadAsSupervisor_csr rd n hn
  obtain ⟨hs', hm', hp'⟩ := loadAsSupervisor_csr rd (n + 1) (by omega)
  refine ⟨⟨?_, rfl, rfl, rfl, hs'.trans hs.symm, hm'.trans hm.symm, hp'.trans hp.symm⟩, ?_⟩
  · show decide (3 ≤ n + 1) = decide (3 ≤ n)
    simp only [hn, show 3 ≤ n + 1 by omega]
  · have hi : (loadAsSupervisor n).csrIn = idleCsr := by
      simp [loadAsSupervisor, show n ≠ 0 by omega, show n ≠ 1 by omega, show n ≠ 2 by omega]
    simp only [mmuInAt, mmuIn, flush, hi]
    rfl

/-- The run only reads. -/
theorem loadAsSupervisor_content (rd : BitVec 32 → Word) (n : ℕ) :
    (run 0 (atReset rd) loadAsSupervisor n).sys.mem.content = rd := by
  induction n with
  | zero => rfl
  | succ n ih =>
    have hphase := phase (atReset_isReset rd) (loadAsSupervisor_held rd) n
    rw [run_succ]
    by_cases ha : (run 0 (atReset rd) loadAsSupervisor n).sys.Answered
        (mmuInAt 0 (atReset rd) loadAsSupervisor n)
    · have hw := ((MmuSys.Phase.result (i := mmuInAt 0 (atReset rd) loadAsSupervisor n)
        hphase).1 ha).2
      exact (Memory.next_content_of_read hw).trans ih
    · exact (MmuSys.content_next ha).trans ih

theorem tlbs_invisible_loadAsSupervisor :
    ∃ k, 3 ≤ k ∧
      (run 0 (atReset MmuSys.onePage) loadAsSupervisor k).sys.Answered
        (mmuInAt 0 (atReset MmuSys.onePage) loadAsSupervisor k) ∧
      (run 0 (atReset MmuSys.onePage) loadAsSupervisor k).sys.mmu.busReq.addr = 0x123ABC#34 := by
  obtain ⟨-, -, h⟩ := tlbs_invisible (atReset_isReset MmuSys.onePage)
    (loadAsSupervisor_held MmuSys.onePage)
  have hv : ∀ n, 3 ≤ n → (loadAsSupervisor n).valid = true := fun n hn => decide_eq_true hn
  have hwalk : ∀ n, 3 ≤ n →
      ((run 0 (atReset MmuSys.onePage) loadAsSupervisor n).req (loadAsSupervisor n)).walkOutcome
        (run 0 (atReset MmuSys.onePage) loadAsSupervisor n).sys.mem.content
        = some (.physical 0x123ABC#34) := by
    intro n hn
    obtain ⟨hs, hm, hp⟩ := loadAsSupervisor_csr MmuSys.onePage n hn
    rw [loadAsSupervisor_content, req, hs, hm, hp, hv n hn]
    show CpuReq.walkOutcome
      ⟨true, 0#4, 0x00401ABC#32, 0#32, false, 0x80000001#32, 0x80#32, 1#2⟩ MmuSys.onePage = _
    decide
  -- one root for every ASID, and page tables that nobody writes
  obtain ⟨hres, hlive⟩ := h (fun _ _ => some 0x1000#32)
    ⟨fun _ _ => rfl, fun n hv _ => by
      rw [(loadAsSupervisor_csr MmuSys.onePage n (of_decide_eq_true hv)).1]; rfl⟩
    fun n _ satp _ address => by
      rw [loadAsSupervisor_content, loadAsSupervisor_content]
      exact ⟨rfl, fun _ => rfl⟩
  obtain ⟨k, hk, -, hend⟩ := hlive (fun n => ⟨n, le_rfl, rfl⟩) 3 (hv 3 le_rfl)
    (by rw [hwalk 3 le_rfl]; exact Option.some_ne_none _)
  obtain ⟨hanswer, hfault⟩ := hres k (hv k hk)
  rcases hend with ha | hf
  · have haddr := (hwalk k hk).symm.trans (hanswer ha)
    simp only [Option.some.injEq, Outcome.physical.injEq] at haddr
    exact ⟨k, hk, ha, haddr.symm⟩
  · have hno := (hwalk k hk).symm.trans (hfault hf).1
    simp at hno

end TlbClient

/-! ## The core as such a client -/

namespace System

variable {iw dw : ℕ} {p : Params} {s : System iw dw} {inp : ℕ → SystemIn}

/-- The part of the system that translates. -/
def tlbClient (s : System iw dw) : TlbClient iw dw := ⟨s.cpu.core.csr, ⟨s.cpu.mmu, s.mem⟩⟩

/-- What the core does with it in one cycle. -/
def tlbClientIn (s : System iw dw) (i : SystemIn) : TlbClientIn where
  valid := s.cpu.core.memValid
  wstrb := s.cpu.core.memWstrb
  addr := s.cpu.core.memAddr
  wdata := s.cpu.core.memWdata
  isInstruction := s.cpu.core.isInstr
  fsm := s.cpu.core.state
  fsmIn := s.cpu.core.fsmIn (s.coreIn i)
  csrIn := s.cpu.core.csrIn (s.coreIn i)
  answer := i.mem.answer

/-- On a memory that refuses nothing, the system is the core driving a `TlbClient`. -/
theorem tlbClient_next {i : SystemIn} (h : i.mem.accessFault = false) :
    (s.next p i).tlbClient = s.tlbClient.next p.systemClk (s.tlbClientIn i) := by
  obtain ⟨⟨answer, accessFault⟩, irq3, irq7, irq9, irq11⟩ := i
  obtain rfl : accessFault = false := h
  rfl

theorem tlbClient_run (h : ∀ n, (inp n).mem.accessFault = false) (n : ℕ) :
    (Sync.run (next p) s inp n).tlbClient
      = TlbClient.run p.systemClk s.tlbClient
          (fun k => (Sync.run (next p) s inp k).tlbClientIn (inp k)) n := by
  induction n with
  | zero => rfl
  | succ n ih =>
    rw [Sync.run_succ, tlbClient_next (h n), ih]
    rfl

/-- The core holds its requests and flushes only between them. -/
theorem tlbClient_held (hreset : s.IsReset p) (h : ∀ n, (inp n).mem.accessFault = false)
    (hal : ∀ n, (Sync.run (next p) s inp n).FetchAligned) :
    TlbClient.Held p.systemClk s.tlbClient
      fun k => (Sync.run (next p) s inp k).tlbClientIn (inp k) := by
  intro n hv hc hf
  have hst := tlbClient_run (s := s) (p := p) h
  have hsys : ∀ k, MmuSys.run s.tlbClient.sys (TlbClient.mmuInAt p.systemClk s.tlbClient
      fun k => (Sync.run (next p) s inp k).tlbClientIn (inp k)) k
      = (Sync.run (next p) s inp k).tlbClient.sys := by
    intro k
    rw [← TlbClient.run_sys, ← hst]
  have hin : ∀ k, TlbClient.mmuInAt p.systemClk s.tlbClient
      (fun k => (Sync.run (next p) s inp k).tlbClientIn (inp k)) k
      = (Sync.run (next p) s inp k).tlbClient.mmuIn
          ((Sync.run (next p) s inp k).tlbClientIn (inp k)) := by
    intro k
    rw [TlbClient.mmuInAt, ← hst]
  rw [hsys, hin] at hc
  rw [hsys] at hf
  rw [hin] at hv ⊢
  rw [hin]
  have hmem : (inp n).mem = ⟨(inp n).mem.answer, false⟩ := by rw [← h n]
  -- without access faults the two memories answer alike
  have hready : (Sync.run (next p) s inp n).memReady (inp n)
      = (Sync.run (next p) s inp n).tlbClient.sys.ready
          ((Sync.run (next p) s inp n).tlbClient.mmuIn
            ((Sync.run (next p) s inp n).tlbClientIn (inp n))) := by
    rw [memReady, hmem]
    rfl
  rw [← hready] at hc
  exact holds (inStep_run hreset n fun k _ => hal k) (hal n) hv hc hf

end System

end KianRiscV
