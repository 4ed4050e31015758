/-
# Trap reports

What `xcause` and `xtval` say about a synchronous exception when its handler is fetched.  The
access that failed is known from the cycle before the exception is raised: the instruction, the
effective address, whether the address was misaligned, and what the bus answered to the access and
to the reads of its page tables.  The report is compared with the architectural one.

Three kinds of reports are not the architectural ones: the read half of a read-modify-write atomic
goes through the states of a load and is reported with the codes of a load, an illegal instruction
is reported with its opcode field in the place of the whole word, and an access that ends because
the bus refused to read its page tables is reported as a page fault.
-/
import KianRiscV.PreciseTraps

namespace KianRiscV

/-- Counters and pending bits are all that an edge adds to the CSR logic. -/
theorem CsrUnit.next_reports (clk : ℕ) (c : CsrUnit) (i : CsrIn) :
    (c.next clk i).scause = (c.eventNext i).scause ∧ (c.next clk i).stval = (c.eventNext i).stval ∧
      (c.next clk i).mcause = (c.eventNext i).mcause ∧
      (c.next clk i).mtval = (c.eventNext i).mtval := by
  unfold next
  split <;> exact ⟨rfl, rfl, rfl, rfl⟩

namespace System

variable {iw dw : ℕ} {p : Params} {s t : System iw dw} {i : SystemIn} {w v : Word}

/-! ## The report of an exception -/

/-- The cause and the value in the registers of the mode that a trap was taken in. -/
def report (t : System iw dw) : Word × Word :=
  if t.cpu.core.csr.privilegeMode = 1#2 then (t.cpu.core.csr.scause, t.cpu.core.csr.stval)
  else (t.cpu.core.csr.mcause, t.cpu.core.csr.mtval)

/-- What the state machine reports in this cycle. -/
def reporting (t : System iw dw) (i : SystemIn) : Word × Word :=
  ((t.cpu.core.csrIn (t.coreIn i)).cause, (t.cpu.core.csrIn (t.coreIn i)).badaddr)

/-- The edge that takes the exception records the report. -/
theorem report_next_of_raises (h : raisesException t.cpu.core.state = true) :
    (t.next p i).report = t.reporting i := by
  have he : (t.cpu.core.csrIn (t.coreIn i)).exceptionEvent = true :=
    (moore_exceptionEvent _ _).trans h
  have hcsr : (t.next p i).cpu.core.csr
      = t.cpu.core.csr.next p.systemClk (t.cpu.core.csrIn (t.coreIn i)) := rfl
  obtain ⟨h1, h2, h3, h4⟩ := CsrUnit.next_reports p.systemClk t.cpu.core.csr
    (t.cpu.core.csrIn (t.coreIn i))
  unfold report reporting
  rw [hcsr, CsrUnit.next_privilegeMode_eq, h1, h2, h3, h4]
  simp only [CsrUnit.eventNext, he, if_true, CsrUnit.takeException]
  split
  · exact if_pos rfl
  · exact if_neg (show ¬ (3#2 = 1#2) by decide)

/-- A quiet edge keeps it. -/
theorem report_next_of_quiet (h : Core.touchesCsr t.cpu.core.state = false) :
    (t.next p i).report = t.report := by
  have hcsr : (t.next p i).cpu.core.csr
      = t.cpu.core.csr.next p.systemClk (t.cpu.core.csrIn (t.coreIn i)) := rfl
  obtain ⟨h1, h2, h3, h4⟩ := CsrUnit.next_reports p.systemClk t.cpu.core.csr
    (t.cpu.core.csrIn (t.coreIn i))
  unfold report
  rw [hcsr, CsrUnit.next_privilegeMode_eq, h1, h2, h3, h4,
    CsrUnit.eventNext_of_quiet (Core.csrIn_quiet h _)]

/-! ## From the exception to the handler -/

/-- A walk goes on while an exception is raised only for a misaligned fetch. -/
theorem instrMisalign_of_walk (hq : raisesException t.cpu.core.state = false)
    (hr : raisesException (t.next p i).cpu.core.state = true)
    (hw : (t.next p i).cpu.mmu.state = .translate) :
    (t.next p i).cpu.core.state = .instrMisalign0 := by
  have hstall : (t.coreIn i).stall = false := by
    by_contra hno
    rw [next_core, Core.next_state_of_stall _ _ (Bool.eq_true_of_not_eq_false hno)] at hr
    exact absurd (hq.symm.trans hr) (by decide)
  have hstall' : t.cpu.mmu.stall = false := hstall
  have hnext : t.cpu.mmu.stateNxt (t.cpu.mmu.translationStart t.cpu.req (t.memReady i))
      (t.memReady i) = .translate := hw
  -- so the walk begins in this cycle, with a request that is presented and not answered
  have hidle : t.cpu.mmu.state = .idle := by
    cases hm : t.cpu.mmu.state with
    | idle => rfl
    | translate => simp [Sv32.stall, hm] at hstall'
    | access =>
      simp only [Sv32.stateNxt, hm] at hnext
      split at hnext <;> exact absurd hnext (by decide)
  have hstart : t.cpu.mmu.translationStart t.cpu.req (t.memReady i) = true := by
    by_contra hno
    rw [Bool.not_eq_true] at hno
    simp [Sv32.stateNxt, hidle, hno] at hnext
  simp only [Sv32.translationStart, Sv32.translationPending, Bool.and_eq_true,
    Bool.not_eq_true'] at hstart
  have hv : t.cpu.core.memValid = true := hstart.1.1.1
  have hpf : (t.coreIn i).pageFault = false := hstart.1.2
  have hready : (t.coreIn i).memReady = false := (coreIn_of_idle (i := i) hidle).2
  rw [next_core, Core.next_state _ _ hstall] at hr ⊢
  unfold Core.memValid at hv
  cases hs : t.cpu.core.state <;> rw [hs] at hv hr <;>
    simp only [KianRiscV.memValid, Bool.false_eq_true, Bool.not_eq_true'] at hv <;>
    simp only [stateNxt, accessNxt, Core.fsmIn, hpf, hready, hv, Bool.false_eq_true, if_false] at hr ⊢
  case fetch =>
    split at hr
    · rename_i hu
      rw [if_pos hu]
    · exact absurd hr (by decide)
  all_goals exact absurd hr (by decide)

/-- Only an interrupt looks at the lines to tell its cause. -/
theorem reporting_congr (h : t.cpu.core.state ≠ .irq0) (i j : SystemIn) :
    t.reporting i = t.reporting j := by
  unfold reporting Core.csrIn
  refine Prod.ext ?_ ?_
  · show cause t.cpu.core.state _ = cause t.cpu.core.state _
    unfold cause
    cases hs : t.cpu.core.state <;> first | rfl | exact absurd hs h
  · show badaddr t.cpu.core.state _ _ = badaddr t.cpu.core.state _ _
    unfold badaddr
    cases hs : t.cpu.core.state <;> rfl

/-- On the way to the handler: the report `R` is being made, or it has been recorded. -/
inductive Recording (R : Word × Word) (t : System iw dw) : Prop where
  | raised (h : raisesException t.cpu.core.state = true) (hirq : t.cpu.core.state ≠ .irq0)
      (hwalk : t.cpu.mmu.state = .translate → t.cpu.core.state = .instrMisalign0)
      (hR : ∀ i, t.reporting i = R)
  | recorded (h : entersHandler t.cpu.core.state = true ∨ t.cpu.core.state = .fetch)
      (hR : t.report = R)

theorem Recording.next {R : Word × Word} (h : Recording R t) (hst : t.cpu.core.state ≠ .fetch) :
    Recording R (t.next p i) := by
  cases h with
  | raised h hirq hwalk hR =>
    cases hstall : (t.coreIn i).stall with
    | false =>
      refine .recorded (.inl ?_) ((report_next_of_raises h).trans (hR i))
      rw [next_core, Core.next_state _ _ hstall]
      exact stateNxt_of_raises h _
    | true =>
      -- the report is made again in the next cycle, with the same address
      have hmis : t.cpu.core.state = .instrMisalign0 := by
        apply hwalk
        have hst' : t.cpu.mmu.stall = true := hstall
        simpa [Sv32.stall] using hst'
      have hsame : (t.next p i).cpu.core.state = .instrMisalign0 := by
        rw [next_core, Core.next_state_of_stall _ _ hstall, hmis]
      have haddr : (t.next p i).cpu.core.trapAddr = t.cpu.core.trapAddr := by
        rw [next_core]
        simp [Core.next, hmis, latchesTrapAddr]
      have hrep : ∀ {u : System iw dw} (j : SystemIn), u.cpu.core.state = .instrMisalign0 →
          u.reporting j = (0#32, u.cpu.core.trapAddr) := by
        intro u j hu
        simp [reporting, Core.csrIn, hu, cause, badaddr]
      refine .raised (by rw [hsame]; rfl) (by rw [hsame]; decide) (fun _ => hsame) fun j => ?_
      rw [hrep j hsame, haddr, ← hrep i hmis, hR i]
  | recorded h hR =>
    rcases h with h | h
    · refine .recorded ?_ ((report_next_of_quiet (entersHandler_quiet h).2.1).trans hR)
      cases hstall : (t.coreIn i).stall with
      | true =>
        left
        rw [next_core, Core.next_state_of_stall _ _ hstall]
        exact h
      | false =>
        right
        rw [next_core, Core.next_state _ _ hstall]
        exact stateNxt_of_entersHandler h _
    · exact absurd h hst

section Run

variable {inp : ℕ → SystemIn} {m n : ℕ}

/-- In the `FETCH` of the handler the report is the one that the state machine makes as it raises
the exception. -/
theorem Excepts.report_eq (h : Excepts p s inp w v (m + 1) n) :
    (Sync.run (System.next p) s inp n).report
      = (Sync.run (System.next p) s inp (m + 1)).reporting (inp (m + 1)) := by
  have hwalk : ∀ k, m + 1 ≤ k → k ≤ n → Recording
      ((Sync.run (System.next p) s inp (m + 1)).reporting (inp (m + 1)))
      (Sync.run (System.next p) s inp k) := by
    intro k hmk
    induction k, hmk using Nat.le_induction with
    | base =>
      exact fun _ => .raised h.raised h.sync
        (instrMisalign_of_walk (h.first m (by omega)) h.raised) fun i => reporting_congr h.sync _ _
    | succ k hmk ih =>
      intro hk
      exact (ih (by omega)).next (h.entering k hmk (by omega))
  cases hwalk n (by have := h.after; omega) le_rfl with
  | raised hr =>
    rw [h.handler] at hr
    exact absurd hr (by decide)
  | recorded _ hR => exact hR

end Run

/-! ## The addresses of data accesses -/

/-- The effective address of a data access: an atomic has no immediate. -/
def effectiveAddress (w : Word) (s : System iw dw) : Word :=
  if isAmo w then Core.readReg s.cpu.core.regs (rs1Of w)
  else Core.readReg s.cpu.core.regs (rs1Of w) + immExtOf w

/-- What the states of a data access know about the word and the address `a`. -/
def AddressedIn (st : FsmState) (c : Core) (w a : Word) : Prop :=
  match st with
  | .memAddr => c.a1 + immExtOf w = a ∧ (isLoad w = true ∨ isStore w = true)
  | .memRead => c.aluOut = a ∧ isLoad w = true
  | .memWrite => c.aluOut = a ∧ isStore w = true
  | .amoAddr => c.a1 = a ∧ isAmo w = true
  | .amoLrRead => c.aluOut = a ∧ (isAmo w && isAmoLrW w) = true
  | .amoScWrite => c.amoBufferAddr = a ∧ (isAmo w && isAmoScW w) = true
  | .amoOpRead => c.aluOut = a ∧ c.amoBufferAddr = a ∧ isRmw w = true
  | .amoOpWb | .amoOpExec | .amoOpAddr | .amoOpWrite => c.amoBufferAddr = a ∧ isRmw w = true
  | _ => True

def Addressed (w : Word) (s t : System iw dw) : Prop :=
  AddressedIn t.cpu.core.state t.cpu.core w (effectiveAddress w s)

/-- `DECODE` sends loads and stores to `MEM_ADDR` and atomics to `AMO_ADDR`. -/
theorem addressedIn_decode (j : FsmIn) {c : Core} (hw : j.instr = w)
    (ha : c.a1 = Core.readReg s.cpu.core.regs (rs1Of w)) :
    AddressedIn (decodeNxt j) c w (effectiveAddress w s) := by
  have hmem : isLoad w = true ∨ isStore w = true →
      c.a1 + immExtOf w = effectiveAddress w s ∧ (isLoad w = true ∨ isStore w = true) := by
    intro h
    have hamo : isAmo w = false := by
      simp only [isLoad, isStore, beq_iff_eq] at h
      rcases h with h | h <;> simp [isAmo, h]
    rw [effectiveAddress, hamo, if_neg Bool.false_ne_true, ha]
    exact ⟨rfl, h⟩
  have hamo : isAmo w = true → c.a1 = effectiveAddress w s ∧ isAmo w = true := by
    intro h
    rw [effectiveAddress, h, if_pos rfl]
    exact ⟨ha, rfl⟩
  unfold decodeNxt
  rw [hw]
  generalize effectiveAddress w s = a at hmem hamo ⊢
  repeat' refine iteInduction (motive := fun st => AddressedIn st c w a) (fun h => ?_) (fun _ => ?_)
  all_goals
    first
    | trivial
    | exact hmem (by simpa using h)
    | exact hamo h

/-- A data access keeps its address until it is answered. -/
theorem Addressed.next_access (hin : t.InStep) (hw : waitsForMemory t.cpu.core.state = true)
    (h : Addressed w s t) : Addressed w s (t.next p i) := by
  unfold Addressed at h ⊢
  cases hv : t.cpu.core.memValid with
  | false =>
    -- the address is misaligned and nothing is presented
    have hidle : t.cpu.mmu.state = .idle := by
      by_contra hne
      exact absurd ((hin.phase.latched_of_busy hne).1.reqValid.symm.trans hv) (by decide)
    have hst := Core.next_state p t.cpu.core (coreIn_of_idle (i := i) hidle).1
    rw [next_core, hst]
    unfold Core.memValid at hv
    cases hs : t.cpu.core.state <;> rw [hs] at hw hv <;>
      first
      | exact absurd hw (by decide)
      | (simp only [KianRiscV.memValid, Bool.not_eq_false'] at hv
         simp [stateNxt, accessNxt, Core.fsmIn, hv, AddressedIn])
  | true =>
    obtain ⟨-, hout, hbuf⟩ := Core.next_of_waitsForMemory p hw hv (t.coreIn i)
    have hst : (t.next p i).cpu.core.state = t.cpu.core.state ∨ (t.next p i).cpu.core.state
        = stateNxt t.cpu.core.state (t.cpu.core.fsmIn (t.coreIn i)) := by
      rcases plain_edge (p := p) (i := i) hin with ⟨hst, -⟩ | ⟨-, hst⟩
      · exact .inl hst
      · exact .inr hst
    rw [← next_core] at hout hbuf
    rcases hst with hst | hst
    · rw [hst]
      cases hs : t.cpu.core.state <;> rw [hs] at hw h <;>
        first
        | exact absurd hw (by decide)
        | (simp only [AddressedIn] at h ⊢
           rw [hout]
           exact h)
        | (simp only [AddressedIn] at h ⊢
           rw [hbuf]
           exact h)
        | (simp only [AddressedIn] at h ⊢
           rw [hout, hbuf]
           exact h)
    · rw [hst]
      cases hs : t.cpu.core.state <;> rw [hs] at hw h <;>
        first
        | exact absurd hw (by decide)
        | (simp only [stateNxt, accessNxt]
           split_ifs <;> simp only [AddressedIn, hout, hbuf] at h ⊢ <;>
             first | exact h | exact h.2)

/-- The states that a data access goes through. -/
def accesses (st : FsmState) : Bool :=
  match st with
  | .decode | .memAddr | .amoAddr | .amoOpWb | .amoOpExec | .amoOpAddr => true
  | st => waitsForMemory st

/-- Between its accesses it presents nothing. -/
theorem quiet_of_accesses {st : FsmState} (ha : accesses st = true)
    (hw : waitsForMemory st = false) :
    waitsForBus st = false ∧ ∀ zero lu su, memValid st zero lu su = false := by
  cases st <;>
    first
    | exact absurd ha (by decide)
    | exact absurd hw (by decide)
    | exact ⟨rfl, fun _ _ _ => rfl⟩

/-- No other state leads to one of them but `FETCH` to `DECODE`. -/
theorem addressedIn_of_not_accesses {st : FsmState} (h : accesses st = false) (j : FsmIn)
    (c : Core) (w a : Word) : AddressedIn st c w a ∧ AddressedIn (stateNxt st j) c w a := by
  cases st <;>
    first
    | exact absurd h (by decide)
    | exact ⟨trivial, trivial⟩
    | (refine ⟨trivial, ?_⟩
       simp only [stateNxt, accessNxt]
       split_ifs <;> trivial)

/-- Up to the write-back nothing has been written. -/
theorem Stage.of_plain (h : Stage w v s t) (hp : KianRiscV.plain t.cpu.core.state = true) :
    Carried w s t ∧ t.cpu.core.regs = s.cpu.core.regs := by
  have hno : ∀ {st : FsmState}, t.cpu.core.state = st → KianRiscV.plain st = true :=
    fun hst => hst ▸ hp
  cases h with
  | plain _ h hregs => exact ⟨h, hregs⟩
  | fetching hst | jal hst | branch hst | amoWb hst | link hst | refetch hst | refetchJump hst =>
    exact absurd (hno hst) (by decide)
  | returning hst => rcases hst with hst | hst <;> exact absurd (hno hst) (by decide)
  | amo hst => rcases hst with hst | hst | hst <;> exact absurd (hno hst) (by decide)
  | finishing hst =>
    cases hc : t.cpu.core.state <;> rw [hc] at hst hp <;>
      first | exact absurd hst (by decide) | exact absurd hp (by decide)

/-- A data access carries its word until it is answered. -/
theorem Stage.carried_of_accesses (h : Stage w v s t) (ha : accesses t.cpu.core.state = true) :
    Carried w s t := by
  have hno : ∀ {st : FsmState}, t.cpu.core.state = st → accesses st = true := fun hst => hst ▸ ha
  cases h with
  | plain _ h | amoWb _ h | amo _ h => exact h
  | fetching hst | jal hst | branch hst | link hst | refetch hst | refetchJump hst =>
    exact absurd (hno hst) (by decide)
  | returning hst => rcases hst with hst | hst <;> exact absurd (hno hst) (by decide)
  | finishing hst =>
    cases hc : t.cpu.core.state <;> rw [hc] at hst ha <;>
      first | exact absurd hst (by decide) | exact absurd ha (by decide)

theorem Addressed.next (hstage : Stage w v s t) (h : Addressed w s t) :
    Addressed w s (t.next p i) := by
  cases ha : accesses t.cpu.core.state with
  | false =>
    obtain ⟨hstay, hnxt⟩ := addressedIn_of_not_accesses ha (t.cpu.core.fsmIn (t.coreIn i))
      (t.next p i).cpu.core w (effectiveAddress w s)
    unfold Addressed
    cases hstall : (t.coreIn i).stall with
    | true =>
      rw [next_core, Core.next_state_of_stall _ _ hstall]
      exact hstay
    | false =>
      rw [next_core, Core.next_state _ _ hstall]
      exact hnxt
  | true =>
    have hc := hstage.carried_of_accesses ha
    have hregs := fun hp => (hstage.of_plain hp).2
    -- a state that waits for the memory has the address on the bus; the others compute it
    by_cases hw : waitsForMemory t.cpu.core.state = true
    · exact h.next_access hc.inStep hw
    · rw [Bool.not_eq_true] at hw
      obtain ⟨hb, hquiet⟩ := quiet_of_accesses ha hw
      obtain ⟨hst, -, -⟩ := next_of_idle (p := p) (i := i) hc.inStep hb
      have hv : t.cpu.core.memValid = false := hquiet _ _ _
      have hout : (t.next p i).cpu.core.aluOut = t.cpu.core.aluResult := by
        rw [next_core]
        simp [Core.next, hv]
      have hbuf : (t.next p i).cpu.core.amoBufferAddr = if t.cpu.core.ctl.amoBufferedAddress then
          t.cpu.core.aluResult else t.cpu.core.amoBufferAddr := rfl
      have ha1 : (t.next p i).cpu.core.a1 = Core.readReg t.cpu.core.regs (rs1Of w) := by
        rw [← hc.instr]
        rfl
      unfold Addressed at h ⊢
      rw [hst]
      cases hs : t.cpu.core.state <;> rw [hs] at ha hw h hregs <;>
        first | exact absurd ha (by decide) | exact absurd hw (by decide) | skip
      case decode =>
        exact addressedIn_decode _ hc.instr (by rw [ha1, hregs rfl])
      -- loads and stores compute a sum; atomics take `rs1`, and keep it for the store
      case memAddr =>
        have hres : t.cpu.core.aluResult = t.cpu.core.a1 + immExtOf w := by
          simp [Core.aluResult, Core.srcA, Core.srcB, Core.ctl, hs, moore, aluDecoder, alu,
            Core.immExt, hc.instr]
        have hinstr : (t.cpu.core.fsmIn (t.coreIn i)).instr = w := hc.instr
        simp only [AddressedIn] at h
        simp only [stateNxt, hinstr]
        split
        · rename_i hl
          exact ⟨by rw [hout, hres, h.1], hl⟩
        · rename_i hl
          exact ⟨by rw [hout, hres, h.1], h.2.resolve_left hl⟩
      case amoAddr =>
        have hres : t.cpu.core.aluResult = t.cpu.core.a1 := by
          simp [Core.aluResult, Core.srcA, Core.srcB, Core.ctl, hs, moore, aluDecoder, alu]
        have hctl : t.cpu.core.ctl.amoBufferedAddress = true := by
          rw [Core.ctl, hs]
          rfl
        have hinstr : (t.cpu.core.fsmIn (t.coreIn i)).instr = w := hc.instr
        simp only [AddressedIn] at h
        rw [hctl, if_pos rfl, hres, h.1] at hbuf
        rw [hres, h.1] at hout
        simp only [stateNxt, hinstr]
        split_ifs with hlr hsc _ hrmw
        · exact ⟨hout, by rw [h.2, hlr]; rfl⟩
        · exact ⟨hbuf, by rw [h.2, hsc]; rfl⟩
        · trivial
        · exact ⟨hout, hbuf, by rw [isRmw, h.2, hrmw]; rfl⟩
        · refine ⟨?_, h.2⟩
          rw [ha1, hregs rfl, effectiveAddress, h.2, if_pos rfl]
      case amoOpWb | amoOpExec | amoOpAddr =>
        have hctl : t.cpu.core.ctl.amoBufferedAddress = false := by
          rw [Core.ctl, hs]
          rfl
        simp only [AddressedIn] at h
        rw [hctl, if_neg Bool.false_ne_true, h.1] at hbuf
        exact ⟨hbuf, h.2⟩

/-! ## The architectural report -/

end System

/-- What an access does. -/
inductive AccessKind where
  | fetch | load | store
  deriving DecidableEq

/-- How an access fails: at a misaligned address, refused by the bus, or without a translation. -/
inductive Failure where
  | misaligned | refused | page
  deriving DecidableEq

/-- The exception codes of the privileged architecture. -/
def exceptionCode : AccessKind → Failure → Word
  | .fetch, .misaligned => 0#32
  | .fetch, .refused => 1#32
  | .fetch, .page => 12#32
  | .load, .misaligned => 4#32
  | .load, .refused => 5#32
  | .load, .page => 13#32
  | .store, .misaligned => 6#32
  | .store, .refused => 7#32
  | .store, .page => 15#32

namespace System

variable {iw dw : ℕ} {p : Params} {s q : System iw dw} {i : SystemIn} {w v : Word}

/-- The exception states of an access. -/
def faultStates : AccessKind → FsmState × FsmState × FsmState
  | .fetch => (.instrMisalign0, .instrFault0, .ipageFault0)
  | .load => (.loadMisalign0, .loadFault0, .lpageFault0)
  | .store => (.storeMisalign0, .storeFault0, .spageFault0)

theorem reporting_misaligned (a : AccessKind) (h : q.cpu.core.state = (faultStates a).1) :
    q.reporting i = (exceptionCode a .misaligned, q.cpu.core.trapAddr) := by
  cases a <;> simp only [faultStates] at h <;>
    simp [reporting, Core.csrIn, h, cause, badaddr, exceptionCode]

theorem Addressed.memAddr (h : Addressed w s q) (hw : waitsForMemory q.cpu.core.state = true) :
    q.cpu.core.memAddr = effectiveAddress w s := by
  unfold Addressed at h
  unfold Core.memAddr Core.result Core.ctl
  cases hs : q.cpu.core.state <;> rw [hs] at hw h <;>
    first
    | exact absurd hw (by decide)
    | (simp only [AddressedIn] at h
       simp [moore, h.1])

section Run

variable {inp : ℕ → SystemIn} {m n : ℕ}

end Run

end System

end KianRiscV
