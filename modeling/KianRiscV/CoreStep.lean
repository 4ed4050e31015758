/-
# One clock edge of the core

The edges of `main_fsm` and `datapath_unit` seen from outside: which state follows
which, and which edges leave the control and status registers alone.
-/
import KianRiscV.Core
import KianRiscV.CsrStep

namespace KianRiscV

/-! ## Outputs of the state machine -/

theorem moore_mret (st : FsmState) (instr : Word) : (moore st instr).mret = (st == .mret0) := by
  cases st <;> rfl

theorem moore_sret (st : FsmState) (instr : Word) : (moore st instr).sret = (st == .sret0) := by
  cases st <;> rfl

theorem moore_csrValid (st : FsmState) (instr : Word) :
    (moore st instr).csrValid = (st == .execSystem) := by
  cases st <;> rfl

/-- The states that raise `exception_event`. -/
def raisesException : FsmState → Bool
  | .ipageFault0 | .csrFault0 | .ecall0 | .irq0 | .ebreak0 | .illegal0 | .loadMisalign0
  | .storeMisalign0 | .loadFault0 | .storeFault0 | .lpageFault0 | .spageFault0
  | .instrMisalign0 | .instrFault0 => true
  | _ => false

theorem moore_exceptionEvent (st : FsmState) (instr : Word) :
    (moore st instr).exceptionEvent = raisesException st := by
  cases st <;> rfl

/-! ## States that present a request -/

/-- The states, other than `FETCH`, that wait for a memory access. -/
def waitsForMemory : FsmState → Bool
  | .memRead | .memWrite | .amoLrRead | .amoScWrite | .amoOpRead | .amoOpWrite => true
  | _ => false

/-- The states that already present the fetch of the next instruction. -/
def presentsFetch : FsmState → Bool
  | .memWb | .aluWb | .mulWb | .systemWb | .amoLrWb | .amoScSuccess | .amoScFail | .amoComplete
  | .branch => true
  | _ => false

/-- The states that wait on the bus. -/
def waitsForBus (st : FsmState) : Bool := st == .fetch || waitsForMemory st

theorem presents_of_memValid {st : FsmState} {zero lu su : Bool}
    (h : memValid st zero lu su = true) : waitsForBus st = true ∨ presentsFetch st = true := by
  cases st <;> first | (left; rfl) | (right; rfl) | (simp [memValid] at h)

theorem stateNxt_of_presentsFetch {st : FsmState} (h : presentsFetch st = true) (i : FsmIn) :
    stateNxt st i = .fetch := by
  cases st <;> first | rfl | (simp [presentsFetch] at h)

/-- The states that can write `PC`. -/
def Core.movesPc (st : FsmState) : Bool := st == .fetch || st == .branch || pcUpdate st false

theorem movesPc_of_presentsFetch {st : FsmState} (h : presentsFetch st = true)
    (hne : st ≠ .branch) : Core.movesPc st = false := by
  cases st <;> first | rfl | exact absurd h (by decide) | exact absurd rfl hne

theorem not_waits_of_presentsFetch {st : FsmState} (h : presentsFetch st = true) :
    waitsForBus st = false := by
  cases st <;> first | rfl | (simp [presentsFetch] at h)

/-! ## Decoding -/

theorem decodeNxt_ne_decode (i : FsmIn) : decodeNxt i ≠ .decode := by
  simp only [decodeNxt, ne_eq, apply_ite (· = FsmState.decode), reduceCtorEq, ite_self,
    not_false_eq_true]

theorem decodeNxt_eq_mret0_iff (i : FsmIn) :
    decodeNxt i = .mret0 ↔ i.irq.pending = false ∧ isMret i.instr = true := by
  constructor
  · intro h
    simp only [decodeNxt, apply_ite (· = FsmState.mret0), reduceCtorEq, if_false_left,
      ite_self] at h
    grind
  · rintro ⟨hp, hm⟩
    have hw : i.instr = 0x30200073#32 := by simpa [isMret] using hm
    have hf : i.wfiIllegal = false ∧ i.wfiAllowed = false := by
      simp [FsmIn.wfiIllegal, FsmIn.wfiAllowed, hw, isWfi]
    simp only [decodeNxt, hp, hf, hw]
    rfl

theorem decodeNxt_eq_sret0_iff (i : FsmIn) :
    decodeNxt i = .sret0 ↔ i.irq.pending = false ∧ isSret i.instr = true := by
  constructor
  · intro h
    simp only [decodeNxt, apply_ite (· = FsmState.sret0), reduceCtorEq, if_false_left,
      ite_self] at h
    grind
  · rintro ⟨hp, hm⟩
    have hw : i.instr = 0x10200073#32 := by simpa [isSret] using hm
    have hf : i.wfiIllegal = false ∧ i.wfiAllowed = false := by
      simp [FsmIn.wfiIllegal, FsmIn.wfiAllowed, hw, isWfi]
    simp only [decodeNxt, hp, hf, hw]
    rfl

namespace Core

/-! ## The next state -/

theorem next_state_of_stall (p : Params) (c : Core) {i : CoreIn} (h : i.stall = true) :
    (c.next p i).state = c.state := by
  simp [next, h]

theorem next_state (p : Params) (c : Core) {i : CoreIn} (h : i.stall = false) :
    (c.next p i).state = stateNxt c.state (c.fsmIn i) := by
  simp [next, h]

/-! ## Registers over one edge -/

/-- The states that write the register file. -/
def writesBack : FsmState → Bool
  | .memWb | .aluWb | .mulWb | .systemWb | .amoLrWb | .amoScSuccess | .amoScFail | .amoOpWb => true
  | _ => false

/-- The states that write to memory. -/
def storesData : FsmState → Bool
  | .memWrite | .amoScWrite | .amoOpWrite => true
  | _ => false

theorem moore_regWrite (st : FsmState) (instr : Word) :
    (moore st instr).regWrite = writesBack st := by
  cases st <;> rfl

theorem moore_memWrite (st : FsmState) (instr : Word) :
    (moore st instr).memWrite = storesData st := by
  cases st <;> rfl

section Edge

variable {p : Params} {c : Core} {i : CoreIn}

theorem memWstrb_eq_zero (h : storesData c.state = false) : c.memWstrb = 0#4 := by
  rw [memWstrb, ctl, moore_memWrite, h]
  rfl

theorem next_regs (h : writesBack c.state = false) : (c.next p i).regs = c.regs := by
  funext r
  show writeReg c.regs c.ctl.regWrite (rdOf c.instr) c.result r = c.regs r
  rw [ctl, moore_regWrite, h]
  simp [writeReg]

theorem next_pc (h : c.pcWrite i = false) : (c.next p i).pc = c.pc := by
  simp [next, h]

theorem pcWrite_of_not_movesPc (h : movesPc c.state = false) : c.pcWrite i = false := by
  unfold pcWrite ctl
  cases hs : c.state <;> rw [hs] at h <;> first | rfl | exact absurd h (by decide)

theorem pcWrite_of_fetch (h : c.state = .fetch) : c.pcWrite i = i.memReady := by
  unfold pcWrite ctl
  rw [h]
  rfl

theorem pcWrite_of_branch (h : c.state = .branch) : c.pcWrite i = !c.zero := by
  unfold pcWrite ctl
  rw [h]
  exact Bool.or_false _

theorem next_instr (h : c.state ≠ .fetch) :
    (c.next p i).instr = c.instr ∧ (c.next p i).oldPc = c.oldPc := by
  have hs : storeInstr c.state i.memReady = false := by simp [storeInstr, h]
  simp [next, hs]

end Edge

/-! ## Edges that leave the control and status registers alone -/

/-- The states in which `csr_unit` sees a trap, a return or a CSR access. -/
def touchesCsr (st : FsmState) : Bool :=
  raisesException st || st == .mret0 || st == .sret0 || st == .execSystem

theorem csrIn_quiet {c : Core} (h : touchesCsr c.state = false) (i : CoreIn) :
    CsrUnit.IsQuiet (c.csrIn i) := by
  simp only [touchesCsr, Bool.or_eq_false_iff] at h
  obtain ⟨⟨⟨he, hm⟩, hs⟩, hx⟩ := h
  refine ⟨?_, ?_, ?_, ?_⟩
  · exact (moore_exceptionEvent _ _).trans he
  · exact (moore_mret _ _).trans hm
  · exact (moore_sret _ _).trans hs
  · show (csrWe c.instr && c.ctl.csrValid) = false
    rw [ctl, moore_csrValid, hx, Bool.and_false]

/-- The privilege mode after an edge of the core. -/
theorem next_privilegeMode (p : Params) (c : Core) (i : CoreIn) :
    (c.next p i).csr.privilegeMode =
      if raisesException c.state then
        (if c.csr.delegated (cause c.state (c.fsmIn i)) then 1#2 else 3#2)
      else if c.state = .mret0 then mppOf c.csr.mstatus
      else if c.state = .sret0 then sppOf c.csr.mstatus
      else c.csr.privilegeMode := by
  refine (CsrUnit.next_privilegeMode _ _ _).trans ?_
  simp only [csrIn, ctl, moore_exceptionEvent, moore_mret, moore_sret, beq_iff_eq]

theorem next_csr_of_quiet (p : Params) {c : Core} (h : touchesCsr c.state = false)
    (i : CoreIn) :
    (c.next p i).csr.privilegeMode = c.csr.privilegeMode ∧
      (c.next p i).csr.mstatus = c.csr.mstatus ∧ (c.next p i).csr.satp = c.csr.satp ∧
      (c.next p i).csr.exceptionSelect = false :=
  CsrUnit.next_of_quiet (csrIn_quiet h i) _ _

/-- `PC` is not redirected after a state other than a trap or a return. -/
theorem next_select (p : Params) {c : Core}
    (h : raisesException c.state = false ∧ c.state ≠ .mret0 ∧ c.state ≠ .sret0) (i : CoreIn) :
    (c.next p i).csr.exceptionSelect = false := by
  have hsel := CsrUnit.next_exceptionSelect p.systemClk c.csr (c.csrIn i)
  apply hsel.trans
  show (c.ctl.exceptionEvent || c.ctl.mret || c.ctl.sret) = false
  rw [ctl, moore_exceptionEvent, moore_mret, moore_sret, h.1]
  simp [h.2.1, h.2.2]

/-! ## Requests of the core -/

section Request

variable {c : Core}

theorem touchesCsr_of_memValid (h : c.memValid = true) : touchesCsr c.state = false := by
  unfold memValid at h
  cases hst : c.state <;> rw [hst] at h <;> first | rfl | (simp [KianRiscV.memValid] at h)

/-- The TLBs are flushed from `DECODE` and by writes of control and status registers. -/
theorem tlbFlush_of_not_touchesCsr (hc : touchesCsr c.state = false) (hd : c.state ≠ .decode)
    (i : CoreIn) : c.tlbFlush i = false := by
  simp [tlbFlush, fsmTlbFlush, hd, CsrUnit.tlbFlush, CsrUnit.writes, (csrIn_quiet hc i).2.2.2]

/-- No TLB flush while a request is presented. -/
theorem tlbFlush_of_memValid (h : c.memValid = true) (i : CoreIn) : c.tlbFlush i = false := by
  refine tlbFlush_of_not_touchesCsr (touchesCsr_of_memValid h) ?_ i
  intro hd
  simp [memValid, hd, KianRiscV.memValid] at h

/-- The state machine presents the fetch from `pc` in these states. -/
theorem memAddr_of_presentsFetch (h : presentsFetch c.state = true ∨ c.state = .fetch) :
    c.memAddr = c.pc ∧ c.memWstrb = 0#4 ∧ c.isInstr = true := by
  unfold memAddr memWstrb ctl isInstr
  cases hst : c.state <;> rw [hst] at h <;>
    first
    | (simp [moore, isInstruction]; done)
    | (simp [presentsFetch] at h)

/-- The registers behind the request of a data access. -/
theorem next_of_waitsForMemory (p : Params) (h : waitsForMemory c.state = true)
    (hv : c.memValid = true) (i : CoreIn) :
    (c.next p i).instr = c.instr ∧ (c.next p i).aluOut = c.aluOut ∧
      (c.next p i).amoBufferAddr = c.amoBufferAddr := by
  refine ⟨?_, ?_, ?_⟩
  · have hs : storeInstr c.state i.memReady = false := by
      cases hst : c.state <;> rw [hst] at h <;> first | rfl | (simp [waitsForMemory] at h)
    simp [next, hs]
  · simp [next, hv]
  · have hb : c.ctl.amoBufferedAddress = false := by
      unfold ctl
      cases hst : c.state <;> rw [hst] at h <;> first | rfl | (simp [waitsForMemory] at h)
    simp [next, hb]

/-- The request of a data access is a function of the state and these registers. -/
theorem request_congr {c' : Core} (h : waitsForMemory c.state = true) (hs : c'.state = c.state)
    (hi : c'.instr = c.instr) (ha : c'.aluOut = c.aluOut)
    (hb : c'.amoBufferAddr = c.amoBufferAddr) :
    c'.memAddr = c.memAddr ∧ c'.memWstrb = c.memWstrb ∧ c'.memValid = c.memValid ∧
      c'.isInstr = c.isInstr := by
  have haddr : c'.memAddr = c.memAddr := by
    unfold memAddr result ctl
    rw [hs]
    cases hst : c.state <;> rw [hst] at h <;>
      first
      | (simp only [moore, ha, hb, if_true, Bool.false_eq_true, if_false]; done)
      | (simp [waitsForMemory] at h)
  refine ⟨haddr, ?_, ?_, ?_⟩
  · rw [memWstrb, memWstrb, ctl, ctl, hs, hi, haddr]
  · unfold memValid loadUnaligned storeUnaligned
    rw [hs, hi, haddr]
    cases hst : c.state <;> rw [hst] at h <;>
      first
      | (simp only [KianRiscV.memValid]; done)
      | (simp [waitsForMemory] at h)
  · rw [isInstr, isInstr, hs]

/-- A fetch is presented from `pc`, which is not written without an answer. -/
theorem request_next_fetch (p : Params) {i : CoreIn} (hv : c.memValid = true)
    (hr : i.memReady = false) (hc : presentsFetch c.state = true ∨ c.state = .fetch)
    (hs : (c.next p i).state = .fetch) :
    waitsForBus (c.next p i).state = true ∧ (c.next p i).memValid = true ∧
      (c.next p i).memAddr = c.memAddr ∧ (c.next p i).memWstrb = c.memWstrb ∧
      (c.next p i).isInstr = c.isInstr := by
  have hpw : c.pcWrite i = false := by
    rcases hc with hc | hc
    · by_cases hb : c.state = .branch
      · have hz : c.zero = true := by
          unfold memValid at hv
          rw [hb] at hv
          exact hv
        rw [pcWrite_of_branch hb, hz]
        rfl
      · exact pcWrite_of_not_movesPc (movesPc_of_presentsFetch hc hb)
    · rw [pcWrite_of_fetch hc, hr]
  have hpc : (c.next p i).pc = c.pc := by simp [next, hpw]
  obtain ⟨h1, h2, h3⟩ := memAddr_of_presentsFetch hc
  obtain ⟨h1', h2', h3'⟩ := memAddr_of_presentsFetch (c := c.next p i) (.inr hs)
  refine ⟨by rw [hs]; rfl, by unfold memValid; rw [hs]; rfl, ?_, by rw [h2, h2'], by rw [h3, h3']⟩
  rw [h1, h1', hpc]

/-- A fetch that is answered brings the instruction word and moves `PC` on. -/
theorem next_fetched (p : Params) {i : CoreIn} (hs : c.state = .fetch) (hr : i.memReady = true)
    (hsel : c.csr.exceptionSelect = false) :
    (c.next p i).pc = c.pc + 4#32 ∧ (c.next p i).oldPc = c.pc ∧
      (c.next p i).instr = i.memRdata := by
  have hpw : c.pcWrite i = true := (pcWrite_of_fetch hs).trans hr
  have hsi : storeInstr c.state i.memReady = true := by simp [storeInstr, hs, hr]
  have hres : c.result = c.pc + 4#32 := by
    simp [result, aluResult, srcA, srcB, ctl, hs, moore, aluDecoder, alu]
  refine ⟨?_, ?_, ?_⟩ <;> simp [next, hpw, hsi, hsel, hres]

/-- A branch that waits for an aligned access is left exactly with an answer or a page fault. -/
theorem accessNxt_ne_iff {misalign fault page done stay : FsmState} {i : FsmIn}
    (hfault : fault ≠ stay) (hpage : page ≠ stay) (hdone : done ≠ stay) :
    accessNxt false misalign fault page done stay i ≠ stay ↔
      i.pageFault = true ∨ i.memReady = true := by
  unfold accessNxt
  cases i.pageFault with
  | true => simp [hpage]
  | false =>
    cases i.memReady with
    | false => simp
    | true => cases i.accessFault <;> simp [hfault, hdone]

/-- A waiting state whose access is aligned is left exactly with an answer or a page fault. -/
theorem next_state_ne_iff (p : Params) {i : CoreIn} (hw : waitsForBus c.state = true)
    (hv : c.memValid = true) (hal : c.isInstr = true → c.memAddr.extractLsb' 0 2 = 0#2) :
    (c.next p i).state ≠ c.state ↔
      i.stall = false ∧ (i.pageFault = true ∨ i.memReady = true) := by
  cases hst : i.stall with
  | true => simp [next_state_of_stall _ _ hst]
  | false =>
    rw [next_state _ _ hst, eq_self_iff_true, true_and]
    unfold memValid at hv
    cases hcs : c.state <;> rw [hcs] at hw hv
    case fetch =>
      have hu : (c.fsmIn i).isInstructionUnaligned = false := by
        have := hal (by simp [isInstr, hcs, isInstruction])
        simp [fsmIn, this]
      simp only [stateNxt, hu]
      exact accessNxt_ne_iff (by decide) (by decide) (by decide)
    case memRead | amoLrRead | amoOpRead =>
      have hu : (c.fsmIn i).isLoadUnaligned = false := by
        simpa [KianRiscV.memValid, fsmIn] using hv
      simp only [stateNxt, hu]
      exact accessNxt_ne_iff (by decide) (by decide) (by decide)
    case memWrite | amoScWrite | amoOpWrite =>
      have hu : (c.fsmIn i).isStoreUnaligned = false := by
        simpa [KianRiscV.memValid, fsmIn] using hv
      simp only [stateNxt, hu]
      exact accessNxt_ne_iff (by decide) (by decide) (by decide)
    all_goals simp [waitsForBus, waitsForMemory] at hw

/-- **The core holds its requests**: without answer and page fault, and with fetches
aligned, the next cycle presents the same request again, from a state that waits. -/
theorem request_next (p : Params) {i : CoreIn} (hv : c.memValid = true)
    (hr : i.memReady = false) (hf : i.pageFault = false)
    (hal : c.isInstr = true → c.memAddr.extractLsb' 0 2 = 0#2)
    (hstall : i.stall = true → waitsForBus c.state = true) :
    waitsForBus (c.next p i).state = true ∧ (c.next p i).memValid = true ∧
      (c.next p i).memAddr = c.memAddr ∧ (c.next p i).memWstrb = c.memWstrb ∧
      (c.next p i).isInstr = c.isInstr := by
  rcases presents_of_memValid hv with hw | hpf
  · -- the waiting states stay
    have hstay : (c.next p i).state = c.state := by
      by_contra hne
      rcases ((next_state_ne_iff p hw hv hal).1 hne).2 with hf' | hr'
      · exact absurd (hf.symm.trans hf') (by decide)
      · exact absurd (hr.symm.trans hr') (by decide)
    by_cases hcf : c.state = .fetch
    · exact request_next_fetch p hv hr (.inr hcf) (hstay.trans hcf)
    · have hwm : waitsForMemory c.state = true := by
        simpa [waitsForBus, hcf] using hw
      obtain ⟨h1, h2, h3⟩ := next_of_waitsForMemory p hwm hv i
      obtain ⟨h4, h5, h6, h7⟩ := request_congr hwm hstay h1 h2 h3
      exact ⟨by rw [hstay]; exact hw, h6.trans hv, h4, h5, h7⟩
  · -- a write-back state is not stalled and leads to `FETCH`
    have hns : i.stall = false := by
      cases hst : i.stall with
      | false => rfl
      | true => rw [not_waits_of_presentsFetch hpf] at hstall; exact absurd (hstall hst) (by decide)
    have hs : (c.next p i).state = .fetch := by
      rw [next_state _ _ hns, stateNxt_of_presentsFetch hpf]
    exact request_next_fetch p hv hr (.inl hpf) hs

end Request

end Core

end KianRiscV
