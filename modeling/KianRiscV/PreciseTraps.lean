/-
# Which exceptions are precise

One instruction from the `FETCH` of its word to the `FETCH` of the trap handler.  A ghost
invariant follows the instruction through the states of `main_fsm`: up to the write-back
nothing the architecture can see has changed.  Two kinds of instruction write their
register too early.  A read-modify-write atomic writes back the old word before its store
is checked, and a jump writes its link register before the fetch from its target finds the
target misaligned.  The prefetch of such a target is moreover on the bus already, and an
answer in the cycle that raises the exception replaces the address recorded for it.
-/
import KianRiscV.BusIntegrity
import KianRiscV.IntegerRefinement

namespace KianRiscV

/-! ## Kinds of states -/

/-- The states between `FETCH` and the write-back that write neither the register file nor
`PC`. -/
def plain : FsmState → Bool
  | .decode | .memAddr | .memRead | .memWrite | .execRtype | .execItype | .jalr | .lui | .auipc
  | .execMul | .execSystem | .amoAddr | .amoLrRead | .amoScWrite | .amoOpRead | .mret0
  | .sret0 => true
  | _ => false

/-- The states in which an instruction other than a jump writes back. -/
def finishing : FsmState → Bool
  | .memWb | .aluWb | .mulWb | .systemWb | .amoLrWb | .amoScSuccess | .amoScFail => true
  | _ => false

theorem finishing_quiet {st : FsmState} (h : finishing st = true) :
    Core.movesPc st = false ∧ ∀ i, stateNxt st i = .fetch := by
  cases st <;> first | exact absurd h (by decide) | exact ⟨rfl, fun _ => rfl⟩

/-- The exceptions of a store. -/
def raisedByStore (st : FsmState) : Bool :=
  st == .storeMisalign0 || st == .storeFault0 || st == .spageFault0

/-- What the state says about the instruction word. -/
def wordFact (st : FsmState) (w : Word) : Prop :=
  match st with
  | .memAddr | .memRead | .memWrite => isAmo w = false
  | .amoAddr => isAmo w = true
  | .amoScWrite => isAmoRmw w = false
  | .amoOpRead | .amoOpWb => isAmo w = true ∧ isAmoRmw w = true
  | .jal | .jalr => isJal w = true ∨ isJalr w = true
  | .branch | .mret0 | .sret0 => isJal w = false ∧ isJalr w = false
  | _ => True

/-- The states that follow a plain one. -/
inductive PlainNext (st nxt : FsmState) : Prop where
  | fetch (h : nxt = .fetch)
  | irq (h : nxt = .irq0)
  | plain (h : plain nxt = true)
  | jal (h : nxt = .jal)
  | branch (h : nxt = .branch)
  | amoOpWb (h : nxt = .amoOpWb) (hst : st = .amoOpRead)
  | finishing (h : finishing nxt = true)
  | returning (h : nxt = .mret1 ∧ st = .mret0 ∨ nxt = .sret1 ∧ st = .sret0)
  | raised (h : raisesException nxt = true) (hne : nxt ≠ .ipageFault0 ∧ nxt ≠ .instrMisalign0)
      (hs : raisedByStore nxt = true → st = .memWrite ∨ st = .amoScWrite)

theorem decodeNxt_plainNext (i : FsmIn) : PlainNext .decode (decodeNxt i) := by
  unfold decodeNxt
  repeat' refine iteInduction (motive := PlainNext .decode) (fun _ => ?_) (fun _ => ?_)
  all_goals
    first
    | exact .irq rfl
    | exact .plain rfl
    | exact .jal rfl
    | exact .branch rfl
    | exact .fetch rfl
    | exact .raised rfl (by decide) (fun h => absurd h (by decide))

theorem plain_next {st : FsmState} (h : plain st = true) (i : FsmIn) :
    PlainNext st (stateNxt st i) := by
  cases st
  case decode => exact decodeNxt_plainNext i
  all_goals
    first
    | exact absurd h (by decide)
    | exact .plain rfl
    | exact .jal rfl
    | exact .finishing rfl
    | exact .returning (.inl ⟨rfl, rfl⟩)
    | exact .returning (.inr ⟨rfl, rfl⟩)
    | (unfold stateNxt
       simp only [accessNxt]
       split_ifs <;>
         first
         | exact .plain rfl
         | exact .finishing rfl
         | exact .fetch rfl
         | exact .amoOpWb rfl rfl
         | exact .raised rfl (by decide) (fun h => absurd h (by decide))
         | exact .raised rfl (by decide) (fun _ => .inl rfl)
         | exact .raised rfl (by decide) (fun _ => .inr rfl))

/-- A plain state presents no fetch and raises nothing. -/
theorem plain_quiet {st : FsmState} (h : plain st = true) :
    st ≠ .fetch ∧ st ≠ .amoScSuccess ∧ isInstruction st = false ∧ raisesException st = false := by
  cases st <;> first | exact absurd h (by decide) | exact ⟨by decide, by decide, rfl, rfl⟩

/-- An exception presents nothing and writes no register. -/
theorem raises_quiet {st : FsmState} (h : raisesException st = true) :
    waitsForBus st = false ∧ Core.writesBack st = false ∧
      ∀ zero lu su, memValid st zero lu su = false := by
  cases st <;>
    first | exact absurd h (by decide) | exact ⟨rfl, rfl, fun _ _ _ => rfl⟩

/-- Only the page fault of a fetch records `PC`, the others `OldPC`. -/
theorem selectPC_of_raises {st : FsmState} (h : raisesException st = true)
    (hne : st ≠ .ipageFault0) (instr : Word) : (moore st instr).selectPC = false := by
  cases st <;>
    first | exact absurd h (by decide) | exact absurd rfl hne | rfl

/-- Words with different opcodes are told apart. -/
theorem wordFact_decode (i : FsmIn) : wordFact (decodeNxt i) i.instr := by
  have hmem : isLoad i.instr = true ∨ isStore i.instr = true → isAmo i.instr = false := by
    intro h
    simp only [isLoad, isStore, beq_iff_eq] at h
    rcases h with h | h <;> simp [isAmo, h]
  have hbranch : isBranch i.instr = true → isJal i.instr = false ∧ isJalr i.instr = false := by
    intro h
    simp only [isBranch, beq_iff_eq] at h
    simp [isJal, isJalr, h]
  have hret : isMret i.instr = true ∨ isSret i.instr = true →
      isJal i.instr = false ∧ isJalr i.instr = false := by
    intro h
    simp only [isMret, isSret, beq_iff_eq] at h
    rcases h with h | h <;> rw [h] <;> decide
  unfold decodeNxt
  repeat' refine iteInduction (motive := fun st => wordFact st i.instr) (fun h => ?_) (fun _ => ?_)
  all_goals
    first
    | trivial
    | exact hmem (by simpa using h)
    | exact hbranch h
    | exact .inl h
    | exact .inr h
    | exact h
    | exact hret (.inl h)
    | exact hret (.inr h)

/-- A plain state hands its fact about the word to the next. -/
theorem wordFact_next {st : FsmState} (hst : plain st = true) {i : FsmIn}
    (h : wordFact st i.instr) : wordFact (stateNxt st i) i.instr := by
  cases st
  case decode => exact wordFact_decode i
  case jalr => exact h
  case memAddr =>
    simp only [stateNxt]
    split <;> exact h
  -- here the atomics part, and each way keeps what `DECODE` has found and its own `funct5`
  case amoAddr =>
    simp only [stateNxt]
    split
    · trivial
    · split
      · rename_i hl hsc
        have hrmw : isAmoRmw i.instr = false := by
          simp only [isAmoScW, beq_iff_eq] at hsc
          simp [isAmoRmw, isAmoaddW, isAmoswapW, isAmoxorW, isAmoandW, isAmoorW, isAmominW,
            isAmomaxW, isAmominuW, isAmomaxuW, hsc]
        split
        · exact hrmw
        · trivial
      · split
        · rename_i hr
          exact ⟨h, hr⟩
        · exact h
  all_goals
    first
    | exact absurd hst (by decide)
    | trivial
    | (simp only [stateNxt, accessNxt]
       split_ifs <;> trivial)

/-- The states, other than `FETCH`, that keep the register file, `PC`, `OldPC` and the
instruction word. -/
def keeps (st : FsmState) : Bool :=
  plain st || st == .amoOpExec || st == .amoOpAddr || st == .amoOpWrite || raisesException st

theorem keeps_quiet {st : FsmState} (h : keeps st = true) :
    st ≠ .fetch ∧ Core.writesBack st = false ∧ Core.movesPc st = false := by
  cases st <;> first | exact absurd h (by decide) | exact ⟨by decide, rfl, rfl⟩

theorem Core.next_of_keeps (p : Params) {c : Core} (h : keeps c.state = true) (i : CoreIn) :
    (c.next p i).regs = c.regs ∧ (c.next p i).pc = c.pc ∧ (c.next p i).oldPc = c.oldPc ∧
      (c.next p i).instr = c.instr := by
  obtain ⟨hne, hwb, hpc⟩ := keeps_quiet h
  obtain ⟨hi, ho⟩ := Core.next_instr (p := p) (i := i) hne
  exact ⟨Core.next_regs hwb, Core.next_pc (Core.pcWrite_of_not_movesPc hpc), ho, hi⟩

namespace System

variable {iw dw : ℕ} {p : Params} {s t : System iw dw} {i : SystemIn} {w v : Word}

/-! ## Edges of the system -/

theorem InStep.idle (h : t.InStep) (hw : waitsForBus t.cpu.core.state = false) :
    t.cpu.mmu.state = .idle := by
  by_contra hne
  exact absurd ((h.waits hne).symm.trans hw) (by decide)

theorem coreIn_of_idle (h : t.cpu.mmu.state = .idle) :
    (t.coreIn i).stall = false ∧ (t.coreIn i).memReady = false := by
  constructor
  · show t.cpu.mmu.stall = false
    simp [Sv32.stall, h]
  · show t.cpu.mmu.cpuReady _ = false
    simp [Sv32.cpuReady, Sv32.answers, h]

/-- An answer ends the access phase. -/
theorem accessPhase_of_ready
    (h : t.cpu.mmu.Phase true t.mem.content t.mem.held t.cpu.req)
    (hr : (t.coreIn i).memReady = true) :
    t.cpu.mmu.AccessPhase t.mem.content t.mem.held t.cpu.req :=
  h.access_of_cpuReady (fun hr => (Memory.of_ready hr).2) hr

/-- A read leaves the memory as it is, and so does a refused access. -/
theorem content_next_of_read
    (h : t.cpu.mmu.Phase true t.mem.content t.mem.held t.cpu.req)
    (hw : t.cpu.core.memWstrb = 0#4) : (t.next p i).mem.content = t.mem.content := by
  cases hr : (t.coreIn i).memReady with
  | false => exact content_next hr
  | true =>
    have hacc := accessPhase_of_ready h hr
    apply Memory.next_content_of_read
    show t.cpu.mmu.busReq.wstrb = 0#4
    rw [hacc.busReq]
    exact hw

theorem content_next_of_fault (h : (t.coreIn i).accessFault = true) :
    (t.next p i).mem.content = t.mem.content := by
  have hf : i.mem.accessFault = true := by
    have h' : (i.mem.accessFault && t.memReady i) = true := h
    exact (Bool.and_eq_true_iff.1 h').1
  simp [next, Memory.next, hf]

/-- The memory changes only with a store that is done. -/
theorem content_next_of_inStep (h : t.InStep) :
    (t.next p i).mem.content = t.mem.content ∨ (t.next p i).cpu.core.state = .fetch ∨
      (t.next p i).cpu.core.state = .amoScSuccess := by
  cases hr : (t.coreIn i).memReady with
  | false => exact .inl (content_next hr)
  | true =>
    cases hf : (t.coreIn i).accessFault with
    | true => exact .inl (content_next_of_fault hf)
    | false =>
      by_cases hw : t.cpu.core.memWstrb = 0#4
      · exact .inl (content_next_of_read h.phase hw)
      · right
        have hacc := accessPhase_of_ready h.phase hr
        -- a write that is answered without a fault: its state goes on
        have hstall : (t.coreIn i).stall = false := by
          show t.cpu.mmu.stall = false
          simp [Sv32.stall, hacc.state]
        have hpf : (t.coreIn i).pageFault = false := hacc.pageFault
        have hv : t.cpu.core.memValid = true := hacc.reqValid
        have hstore : Core.storesData t.cpu.core.state = true := by
          by_contra hno
          exact hw (Core.memWstrb_eq_zero (Bool.eq_false_of_not_eq_true hno))
        have hst' : (t.next p i).cpu.core.state
            = stateNxt t.cpu.core.state (t.cpu.core.fsmIn (t.coreIn i)) :=
          Core.next_state p _ hstall
        rw [hst']
        unfold Core.memValid at hv
        cases hs : t.cpu.core.state <;> rw [hs] at hstore hv
        case memWrite | amoScWrite | amoOpWrite =>
          have hu : t.cpu.core.storeUnaligned = false := by
            simpa [KianRiscV.memValid] using hv
          simp [stateNxt, accessNxt, Core.fsmIn, hu, hpf, hr, hf]
        all_goals exact absurd hstore (by decide)

/-- Whatever is on the bus is a read. -/
def ReadsOnly (t : System iw dw) : Prop :=
  t.cpu.mmu.state = .idle ∨ t.cpu.mmu.cpuWstrbQ = 0#4

theorem ReadsOnly.next (h : t.ReadsOnly)
    (hw : t.cpu.core.memValid = true → t.cpu.core.memWstrb = 0#4) : (t.next p i).ReadsOnly := by
  unfold ReadsOnly
  cases hs : t.cpu.mmu.translationStart t.cpu.req (t.memReady i) with
  | true =>
    right
    have hv : t.cpu.req.valid = true := by
      simp only [Sv32.translationStart, Sv32.translationPending, Bool.and_eq_true] at hs
      exact hs.1.1.1
    show (if t.cpu.mmu.translationStart t.cpu.req (t.memReady i) then t.cpu.req.wstrb
      else t.cpu.mmu.cpuWstrbQ) = 0#4
    rw [hs, if_pos rfl]
    exact hw hv
  | false =>
    rcases h with h | h
    · left
      show t.cpu.mmu.stateNxt (t.cpu.mmu.translationStart t.cpu.req (t.memReady i))
        (t.memReady i) = .idle
      simp [Sv32.stateNxt, h, hs]
    · right
      show (if t.cpu.mmu.translationStart t.cpu.req (t.memReady i) then t.cpu.req.wstrb
        else t.cpu.mmu.cpuWstrbQ) = 0#4
      rw [hs, if_neg Bool.false_ne_true]
      exact h

theorem ReadsOnly.busReq_wstrb (h : t.ReadsOnly) : t.busReq.wstrb = 0#4 := by
  unfold busReq Sv32.busReq
  rcases h with h | h
  · rw [h]
    rfl
  · simp only [h]
    cases t.cpu.mmu.state with
    | idle => rfl
    | translate =>
      simp only
      split <;> rfl
    | access => rfl

theorem ReadsOnly.content (h : t.ReadsOnly) : (t.next p i).mem.content = t.mem.content :=
  Memory.next_content_of_read h.busReq_wstrb

/-! ## The stages of an instruction -/

theorem aligned_add_four {pc : Word} (h : pc.extractLsb' 0 2 = 0#2) :
    (pc + 4#32).extractLsb' 0 2 = 0#2 := by
  have h' := congrArg BitVec.toNat h
  apply BitVec.eq_of_toNat_eq
  simp only [BitVec.extractLsb'_toNat, Nat.shiftRight_zero, BitVec.toNat_add, BitVec.toNat_ofNat]
    at h' ⊢
  omega

/-- The word is a jump. -/
def isJump (w : Word) : Bool := isJal w || isJalr w

/-- The word is a read-modify-write atomic. -/
def isRmw (w : Word) : Bool := isAmo w && isAmoRmw w

/-- What an instruction carries along until its write-back. -/
structure Carried (w : Word) (s t : System iw dw) : Prop where
  inStep : t.InStep
  content : t.mem.content = s.mem.content
  oldPc : t.cpu.core.oldPc = s.cpu.core.pc
  instr : t.cpu.core.instr = w
  select : t.cpu.core.csr.exceptionSelect = false

/-- The registers with the link address, or with the old word of an atomic, written. -/
def written (w value : Word) (s : System iw dw) : BitVec 5 → Word :=
  Core.writeReg s.cpu.core.regs true (rdOf w) value

/-- Where the instruction fetched in `s` has come to in `t`; `v` is the word an atomic
reads. -/
inductive Stage (w v : Word) (s t : System iw dw) : Prop where
  /-- the word is being fetched -/
  | fetching (hst : t.cpu.core.state = .fetch) (hin : t.InStep)
      (hsel : t.cpu.core.csr.exceptionSelect = false) (hregs : t.cpu.core.regs = s.cpu.core.regs)
      (hpc : t.cpu.core.pc = s.cpu.core.pc) (hmem : t.mem.content = s.mem.content)
  /-- nothing has been written -/
  | plain (hst : plain t.cpu.core.state = true) (h : Carried w s t)
      (hregs : t.cpu.core.regs = s.cpu.core.regs) (hpc : t.cpu.core.pc = s.cpu.core.pc + 4#32)
      (hfact : wordFact t.cpu.core.state w)
  /-- `PC` is about to be written -/
  | jal (hst : t.cpu.core.state = .jal) (h : Carried w s t)
      (hregs : t.cpu.core.regs = s.cpu.core.regs) (hjump : isJump w = true)
  | branch (hst : t.cpu.core.state = .branch) (h : Carried w s t)
      (hregs : t.cpu.core.regs = s.cpu.core.regs) (hpc : t.cpu.core.pc = s.cpu.core.pc + 4#32)
      (hjump : isJump w = false)
  | returning (hst : t.cpu.core.state = .mret1 ∨ t.cpu.core.state = .sret1) (hin : t.InStep)
      (hregs : t.cpu.core.regs = s.cpu.core.regs) (hmem : t.mem.content = s.mem.content)
      (hold : t.cpu.core.oldPc = s.cpu.core.pc) (hjump : isJump w = false)
  /-- the old word of an atomic is about to be written, and has been written -/
  | amoWb (hst : t.cpu.core.state = .amoOpWb) (h : Carried w s t)
      (hregs : t.cpu.core.regs = s.cpu.core.regs) (hpc : t.cpu.core.pc = s.cpu.core.pc + 4#32)
      (hrmw : isRmw w = true) (hdata : t.cpu.core.dataLatched = v)
  | amo (hst : t.cpu.core.state = .amoOpExec ∨ t.cpu.core.state = .amoOpAddr ∨
        t.cpu.core.state = .amoOpWrite)
      (h : Carried w s t) (hregs : t.cpu.core.regs = written w v s)
      (hpc : t.cpu.core.pc = s.cpu.core.pc + 4#32) (hrmw : isRmw w = true)
  /-- the link address is about to be written -/
  | link (hst : t.cpu.core.state = .aluWb) (h : Carried w s t)
      (hregs : t.cpu.core.regs = s.cpu.core.regs)
      (hlink : t.cpu.core.aluOut = s.cpu.core.pc + 4#32) (hjump : isJump w = true)
  /-- no exception can come any more -/
  | finishing (hst : finishing t.cpu.core.state = true)
      (hpc : t.cpu.core.pc = s.cpu.core.pc + 4#32)
  /-- the fetch from a misaligned target -/
  | refetch (hst : t.cpu.core.state = .fetch) (hidle : t.cpu.mmu.state = .idle)
      (hregs : t.cpu.core.regs = s.cpu.core.regs) (hmem : t.mem.content = s.mem.content)
      (hold : t.cpu.core.oldPc = s.cpu.core.pc) (hjump : isJump w = false)
      (hmis : t.cpu.core.pc.extractLsb' 0 2 ≠ 0#2)
  | refetchJump (hst : t.cpu.core.state = .fetch)
      (hphase : t.cpu.mmu.Phase true t.mem.content t.mem.held t.cpu.req)
      (hregs : t.cpu.core.regs = written w (s.cpu.core.pc + 4#32) s)
      (hmem : t.mem.content = s.mem.content) (hold : t.cpu.core.oldPc = s.cpu.core.pc)
      (hjump : isJump w = true) (hmis : t.cpu.core.pc.extractLsb' 0 2 ≠ 0#2)

/-- The address the next edge records for the exception. -/
def epcSource (t : System iw dw) : Word :=
  if t.cpu.core.ctl.selectPC then t.cpu.core.pc else t.cpu.core.oldPc

/-- How the instruction comes to raise its exception; `answered` says whether the cycle
before answers a memory request. -/
inductive Raised (w v : Word) (s t : System iw dw) (answered : Bool) : Prop where
  | clean (hregs : t.cpu.core.regs = s.cpu.core.regs) (hepc : t.epcSource = s.cpu.core.pc)
      (hamo : ¬ (isRmw w = true ∧ raisedByStore t.cpu.core.state = true))
      (hjump : ¬ (isJump w = true ∧ t.cpu.core.state = .instrMisalign0))
  | amo (hrmw : isRmw w = true) (hst : raisedByStore t.cpu.core.state = true)
      (hregs : t.cpu.core.regs = written w v s) (hepc : t.epcSource = s.cpu.core.pc)
  | jump (hjump : isJump w = true) (hst : t.cpu.core.state = .instrMisalign0)
      (hregs : t.cpu.core.regs = written w (s.cpu.core.pc + 4#32) s)
      (hepc : t.epcSource = s.cpu.core.pc ↔ answered = false)

/-- The exception is raised: only reads are on the bus, and the memory is as before. -/
structure RaisedAt (w v : Word) (s t : System iw dw) (answered : Bool) : Prop where
  state : raisesException t.cpu.core.state = true
  reads : t.ReadsOnly
  content : t.mem.content = s.mem.content
  how : Raised w v s t answered

/-- The edge belongs to the instruction: it does not reach the `FETCH` of a next one and
takes no interrupt, and `w` and `v` are the words fetched and read. -/
structure Going (p : Params) (w v : Word) (t : System iw dw) (i : SystemIn) : Prop where
  fetch : (t.next p i).cpu.core.state = .fetch →
    t.cpu.core.state = .fetch ∨ (t.next p i).cpu.core.pc.extractLsb' 0 2 ≠ 0#2
  irq : (t.next p i).cpu.core.state ≠ .irq0
  word : (t.next p i).cpu.core.state = .decode → (t.next p i).cpu.core.instr = w
  data : t.cpu.core.state = .amoOpRead → (t.coreIn i).memReady = true →
    (t.coreIn i).memRdata = v

/-! ## One edge of an instruction -/

theorem next_core : (t.next p i).cpu.core = t.cpu.core.next p (t.coreIn i) := rfl

/-- Up to its store the instruction leaves the memory alone. -/
theorem Carried.content_next (h : Carried w s t) (hf : (t.next p i).cpu.core.state ≠ .fetch)
    (hsc : (t.next p i).cpu.core.state ≠ .amoScSuccess) :
    (t.next p i).mem.content = s.mem.content := by
  rcases content_next_of_inStep (p := p) (i := i) h.inStep with hm | hm | hm
  · exact hm.trans h.content
  · exact absurd hm hf
  · exact absurd hm hsc

/-- `FETCH` of the word. -/
theorem next_fetching (hg : Going p w v t i) (hst : t.cpu.core.state = .fetch) (hin : t.InStep)
    (hsel : t.cpu.core.csr.exceptionSelect = false)
    (hregs : t.cpu.core.regs = s.cpu.core.regs) (hpc : t.cpu.core.pc = s.cpu.core.pc)
    (hmem : t.mem.content = s.mem.content) (hal : s.cpu.core.pc.extractLsb' 0 2 = 0#2) :
    Stage w v s (t.next p i) ∨
      RaisedAt w v s (t.next p i) ((t.coreIn i).memReady) := by
  obtain ⟨haddr, hwstrb, -⟩ := Core.memAddr_of_presentsFetch (c := t.cpu.core) (.inr hst)
  have hin' : (t.next p i).InStep := by
    apply hin.next
    intro _ _
    rw [haddr, hpc]
    exact hal
  have hmem' : (t.next p i).mem.content = s.mem.content :=
    (content_next_of_read hin.phase hwstrb).trans hmem
  have hregs' : (t.next p i).cpu.core.regs = s.cpu.core.regs := by
    rw [next_core, Core.next_regs (by rw [hst]; rfl), hregs]
  have hsel' : (t.next p i).cpu.core.csr.exceptionSelect = false :=
    Core.next_select p (by rw [hst]; decide) _
  have hpc' : (t.coreIn i).memReady = false → (t.next p i).cpu.core.pc = s.cpu.core.pc := by
    intro hr
    rw [next_core, Core.next_pc (by simp [Core.pcWrite, Core.ctl, hst, moore, pcUpdate, hr]), hpc]
  have hidle : waitsForBus (t.next p i).cpu.core.state = false → (t.next p i).ReadsOnly :=
    fun h => .inl (hin'.idle h)
  cases hstall : (t.coreIn i).stall with
  | true =>
    -- the walk is not done, so there is no answer
    have hr : (t.coreIn i).memReady = false := by
      by_contra hr
      have hacc := accessPhase_of_ready hin.phase (Bool.eq_true_of_not_eq_false hr)
      have hst' : t.cpu.mmu.stall = true := hstall
      rw [Sv32.stall, hacc.state] at hst'
      exact absurd hst' (by decide)
    refine .inl (.fetching ?_ hin' hsel' hregs' (hpc' hr) hmem')
    rw [next_core, Core.next_state_of_stall _ _ hstall, hst]
  | false =>
    have hnext : (t.next p i).cpu.core.state
        = accessNxt false .instrMisalign0 .instrFault0 .ipageFault0 .decode .fetch
            (t.cpu.core.fsmIn (t.coreIn i)) := by
      have hu : (t.cpu.core.fsmIn (t.coreIn i)).isInstructionUnaligned = false := by
        simp [Core.fsmIn, haddr, hpc, hal]
      rw [next_core, Core.next_state _ _ hstall, hst]
      simp only [stateNxt, hu]
    cases hpf : (t.coreIn i).pageFault with
    | true =>
      have hr : (t.coreIn i).memReady = false := by
        by_contra hr
        have hacc := accessPhase_of_ready hin.phase (Bool.eq_true_of_not_eq_false hr)
        have hpf' : t.cpu.mmu.pageFault = true := hpf
        exact absurd (hacc.pageFault.symm.trans hpf') (by decide)
      have hs : (t.next p i).cpu.core.state = .ipageFault0 := by
        rw [hnext]
        simp [accessNxt, Core.fsmIn, hpf]
      refine .inr ⟨by rw [hs]; rfl, hidle (by rw [hs]; rfl), hmem',
        .clean hregs' ?_ (by rw [hs]; simp [raisedByStore]) (by rw [hs]; simp)⟩
      simp [epcSource, Core.ctl, hs, moore, hpc' hr]
    | false =>
      cases hr : (t.coreIn i).memReady with
      | false =>
        refine .inl (.fetching ?_ hin' hsel' hregs' (hpc' hr) hmem')
        rw [hnext]
        simp [accessNxt, Core.fsmIn, hpf, hr]
      | true =>
        obtain ⟨hpc4, hold', -⟩ := Core.next_fetched p hst hr hsel
        have hold : (t.next p i).cpu.core.oldPc = s.cpu.core.pc := hold'.trans hpc
        cases hf : (t.coreIn i).accessFault with
        | true =>
          have hs : (t.next p i).cpu.core.state = .instrFault0 := by
            rw [hnext]
            simp [accessNxt, Core.fsmIn, hpf, hr, hf]
          refine .inr ⟨by rw [hs]; rfl, hidle (by rw [hs]; rfl), hmem',
            .clean hregs' ?_ (by rw [hs]; simp [raisedByStore]) (by rw [hs]; simp)⟩
          simp [epcSource, Core.ctl, hs, moore, hold]
        | false =>
          have hs : (t.next p i).cpu.core.state = .decode := by
            rw [hnext]
            simp [accessNxt, Core.fsmIn, hpf, hr, hf]
          refine .inl (.plain (by rw [hs]; rfl) ⟨hin', hmem', hold, hg.word hs, hsel'⟩ hregs' ?_
            (by rw [hs]; trivial))
          rw [← hpc]
          exact hpc4

theorem loadDecoder_of_isRmw (h : isRmw w = true) : loadDecoder w = .lw := by
  simp only [isRmw, isAmo, Bool.and_eq_true, beq_iff_eq] at h
  unfold loadDecoder
  rw [h.1.2]
  split
  · rfl
  · rfl

/-- The edge out of a plain state that is not stalled there. -/
theorem plain_edge (h : t.InStep) :
    ((t.next p i).cpu.core.state = t.cpu.core.state ∧ (t.coreIn i).stall = true ∧
        t.cpu.core.state ≠ .mret0 ∧ t.cpu.core.state ≠ .sret0) ∨
      ((t.coreIn i).stall = false ∧ (t.next p i).cpu.core.state
        = stateNxt t.cpu.core.state (t.cpu.core.fsmIn (t.coreIn i))) := by
  cases hs : (t.coreIn i).stall with
  | false => exact .inr ⟨rfl, Core.next_state p _ hs⟩
  | true =>
    refine .inl ⟨Core.next_state_of_stall p _ hs, rfl, ?_, ?_⟩ <;>
    · intro hm
      have hidle := h.idle (by rw [hm]; rfl)
      exact absurd ((coreIn_of_idle (i := i) hidle).1.symm.trans hs) (by decide)

/-- An edge out of a plain state. -/
theorem next_plain (hg : Going p w v t i) (hst : plain t.cpu.core.state = true)
    (h : Carried w s t) (hregs : t.cpu.core.regs = s.cpu.core.regs)
    (hpc : t.cpu.core.pc = s.cpu.core.pc + 4#32) (hfact : wordFact t.cpu.core.state w)
    (hal : s.cpu.core.pc.extractLsb' 0 2 = 0#2) :
    Stage w v s (t.next p i) ∨
      RaisedAt w v s (t.next p i) ((t.coreIn i).memReady) := by
  have hkeeps : keeps t.cpu.core.state = true := by
    unfold keeps
    rw [hst]
    rfl
  obtain ⟨hr, hp, ho, hi⟩ := Core.next_of_keeps p hkeeps (t.coreIn i)
  rw [← next_core] at hr hp ho hi
  obtain ⟨hne, hnsc, hins, hraise⟩ := plain_quiet hst
  have hin' : (t.next p i).InStep :=
    h.inStep.next fun _ hi => absurd (hins.symm.trans hi) (by decide)
  have hpc' : (t.next p i).cpu.core.pc = s.cpu.core.pc + 4#32 := hp.trans hpc
  have hregs' : (t.next p i).cpu.core.regs = s.cpu.core.regs := hr.trans hregs
  have hold' : (t.next p i).cpu.core.oldPc = s.cpu.core.pc := ho.trans h.oldPc
  have hinstr' : (t.next p i).cpu.core.instr = w := hi.trans h.instr
  have hmem' := h.content_next (p := p) (i := i)
  have hcarry : t.cpu.core.state ≠ .mret0 → t.cpu.core.state ≠ .sret0 →
      (t.next p i).cpu.core.state ≠ .fetch → (t.next p i).cpu.core.state ≠ .amoScSuccess →
      Carried w s (t.next p i) := by
    intro hm hs h1 h2
    exact ⟨hin', hmem' h1 h2, hold', hinstr', Core.next_select p ⟨hraise, hm, hs⟩ _⟩
  rcases plain_edge (p := p) (i := i) h.inStep with ⟨hsame, -, hm, hsr⟩ | ⟨hstall, hnext⟩
  · -- stalled
    refine .inl (.plain (by rw [hsame]; exact hst) (hcarry hm hsr ?_ ?_) hregs' hpc'
      (by rw [hsame]; exact hfact))
    · rw [hsame]
      exact hne
    · rw [hsame]
      exact hnsc
  · have hfact' : wordFact (t.next p i).cpu.core.state w := by
      rw [hnext, ← h.instr]
      refine wordFact_next hst (i := t.cpu.core.fsmIn (t.coreIn i)) ?_
      show wordFact t.cpu.core.state t.cpu.core.instr
      rw [h.instr]
      exact hfact
    have hnot : (t.next p i).cpu.core.state ≠ .mret1 → (t.next p i).cpu.core.state ≠ .sret1 →
        t.cpu.core.state ≠ .mret0 ∧ t.cpu.core.state ≠ .sret0 := by
      intro h1 h2
      rw [hnext] at h1 h2
      constructor
      · intro hm
        rw [hm] at h1
        exact h1 rfl
      · intro hs
        rw [hs] at h2
        exact h2 rfl
    have hplain := plain_next hst (t.cpu.core.fsmIn (t.coreIn i))
    rw [← hnext] at hplain
    cases hplain with
    | fetch hf =>
      rcases hg.fetch hf with hs | hmis
      · exact absurd hs hne
      · rw [hpc'] at hmis
        exact absurd (aligned_add_four hal) hmis
    | irq hq => exact absurd hq hg.irq
    | plain hpl =>
      have hx : ∀ st, plain st = false → (t.next p i).cpu.core.state ≠ st := by
        intro st hno hs
        rw [hs, hno] at hpl
        exact absurd hpl (by decide)
      obtain ⟨hm, hs⟩ := hnot (hx _ rfl) (hx _ rfl)
      exact .inl (.plain hpl (hcarry hm hs (hx _ rfl) (hx _ rfl)) hregs' hpc' hfact')
    | jal hj =>
      rw [hj] at hfact'
      obtain ⟨hm, hs⟩ := hnot (by rw [hj]; decide) (by rw [hj]; decide)
      exact .inl (.jal hj (hcarry hm hs (by rw [hj]; decide) (by rw [hj]; decide)) hregs'
        (by
          have hjump : isJal w = true ∨ isJalr w = true := hfact'
          simpa [isJump] using hjump))
    | branch hb =>
      rw [hb] at hfact'
      obtain ⟨hm, hs⟩ := hnot (by rw [hb]; decide) (by rw [hb]; decide)
      refine .inl (.branch hb (hcarry hm hs (by rw [hb]; decide) (by rw [hb]; decide)) hregs' hpc' ?_)
      simp [isJump, hfact'.1, hfact'.2]
    | amoOpWb ha hread =>
      rw [ha] at hfact'
      have hrmw : isRmw w = true := by simp [isRmw, hfact'.1, hfact'.2]
      obtain ⟨hm, hs⟩ := hnot (by rw [ha]; decide) (by rw [ha]; decide)
      refine .inl (.amoWb ha (hcarry hm hs (by rw [ha]; decide) (by rw [ha]; decide)) hregs' hpc'
        hrmw ?_)
      -- `AMO_OP_READ` is left for the write-back only with an answer
      have hready : (t.coreIn i).memReady = true := by
        by_contra hno
        rw [hnext, hread] at ha
        have hno' : (t.cpu.core.fsmIn (t.coreIn i)).memReady = false :=
          Bool.eq_false_of_not_eq_true hno
        simp only [stateNxt, accessNxt, hno', Bool.false_eq_true, if_false] at ha
        split_ifs at ha
      rw [next_core]
      show loadAlignment _ (loadDecoder t.cpu.core.instr) (t.coreIn i).memRdata = v
      rw [h.instr, loadDecoder_of_isRmw hrmw]
      exact hg.data hread hready
    | finishing hf => exact .inl (.finishing hf hpc')
    | returning hret =>
      have hx : (t.next p i).cpu.core.state ≠ .fetch ∧
          (t.next p i).cpu.core.state ≠ .amoScSuccess := by
        rcases hret with ⟨hn, -⟩ | ⟨hn, -⟩ <;> rw [hn] <;> decide
      refine .inl (.returning (hret.imp And.left And.left) hin' hregs' (hmem' hx.1 hx.2) hold' ?_)
      rcases hret with ⟨-, hm⟩ | ⟨-, hm⟩ <;>
      · rw [hm] at hfact
        simp [isJump, hfact.1, hfact.2]
    | raised hx hne' hs =>
      have hb : ∀ st, raisesException st = false → (t.next p i).cpu.core.state ≠ st := by
        intro st hno hs
        rw [hs, hno] at hx
        exact absurd hx (by decide)
      refine .inr ⟨hx, .inl (hin'.idle (raises_quiet hx).1), hmem' (hb _ rfl) (hb _ rfl),
        .clean hregs' ?_ ?_ (fun hj => hne'.2 hj.2)⟩
      · rw [epcSource, Core.ctl, selectPC_of_raises hx hne'.1 _, if_neg Bool.false_ne_true, hold']
      · rintro ⟨hrmw, hstore⟩
        simp only [isRmw, Bool.and_eq_true] at hrmw
        rcases hs hstore with hm | hm <;> rw [hm] at hfact
        · exact absurd (hrmw.1.symm.trans hfact) (by decide)
        · exact absurd (hrmw.2.symm.trans hfact) (by decide)

/-- Edges out of states that do not wait on the bus. -/
theorem next_of_idle (hin : t.InStep) (hb : waitsForBus t.cpu.core.state = false) :
    (t.next p i).cpu.core.state
        = stateNxt t.cpu.core.state (t.cpu.core.fsmIn (t.coreIn i)) ∧
      (t.next p i).mem.content = t.mem.content ∧
      (t.cpu.core.memValid = false → (t.next p i).cpu.mmu.state = .idle) := by
  have hidle := hin.idle hb
  obtain ⟨hstall, hr⟩ := coreIn_of_idle (i := i) hidle
  refine ⟨Core.next_state p _ hstall, content_next hr, fun hv => ?_⟩
  have hs : t.cpu.mmu.translationStart t.cpu.req (t.memReady i) = false := by
    have hv' : t.cpu.req.valid = false := hv
    simp [Sv32.translationStart, Sv32.translationPending, hv']
  show t.cpu.mmu.stateNxt (t.cpu.mmu.translationStart t.cpu.req (t.memReady i))
    (t.memReady i) = .idle
  simp [Sv32.stateNxt, hidle, hs]

theorem next_inStep_of_not_isInstr (hin : t.InStep) (h : t.cpu.core.isInstr = false) :
    (t.next p i).InStep :=
  hin.next fun _ hi => absurd (h.symm.trans hi) (by decide)

/-- The jump writes `PC`. -/
theorem next_jal (hst : t.cpu.core.state = .jal) (h : Carried w s t)
    (hregs : t.cpu.core.regs = s.cpu.core.regs) (hjump : isJump w = true) :
    Stage w v s (t.next p i) := by
  obtain ⟨hnext, hmem, -⟩ := next_of_idle (p := p) (i := i) h.inStep (by rw [hst]; rfl)
  rw [hst] at hnext
  obtain ⟨hi, ho⟩ := Core.next_instr (p := p) (i := t.coreIn i) (c := t.cpu.core)
    (by rw [hst]; decide)
  refine .link hnext ⟨?_, hmem.trans h.content, ho.trans h.oldPc, hi.trans h.instr, ?_⟩ ?_ ?_ hjump
  · exact next_inStep_of_not_isInstr h.inStep (by simp [Core.isInstr, hst, isInstruction])
  · exact Core.next_select p (by rw [hst]; decide) _
  · rw [next_core, Core.next_regs (by rw [hst]; rfl), hregs]
  · have hv : t.cpu.core.memValid = false := by
      unfold Core.memValid
      rw [hst]
      rfl
    have hres : t.cpu.core.aluResult = t.cpu.core.oldPc + 4#32 := by
      simp [Core.aluResult, Core.srcA, Core.srcB, Core.ctl, hst, moore, aluDecoder, alu]
    rw [next_core]
    simp [Core.next, hv, hres, h.oldPc]

/-- From a branch or a return only a misaligned target can raise an exception. -/
theorem next_refetch (hg : Going p w v t i) (hne : t.cpu.core.state ≠ .fetch) (hin : t.InStep)
    (hb : waitsForBus t.cpu.core.state = false)
    (hnext : stateNxt t.cpu.core.state (t.cpu.core.fsmIn (t.coreIn i)) = .fetch)
    (hwb : Core.writesBack t.cpu.core.state = false)
    (hv : (t.next p i).cpu.core.pc.extractLsb' 0 2 ≠ 0#2 → t.cpu.core.memValid = false)
    (hregs : t.cpu.core.regs = s.cpu.core.regs) (hmem : t.mem.content = s.mem.content)
    (hold : t.cpu.core.oldPc = s.cpu.core.pc) (hjump : isJump w = false) :
    Stage w v s (t.next p i) := by
  obtain ⟨hstate, hmem', hidle⟩ := next_of_idle (p := p) (i := i) hin hb
  rw [hnext] at hstate
  have hmis : (t.next p i).cpu.core.pc.extractLsb' 0 2 ≠ 0#2 := by
    rcases hg.fetch hstate with hs | hmis
    · exact absurd hs hne
    · exact hmis
  refine .refetch hstate (hidle (hv hmis)) ?_ (hmem'.trans hmem) ?_ hjump hmis
  · rw [next_core, Core.next_regs hwb, hregs]
  · rw [next_core, (Core.next_instr hne).2, hold]

theorem next_branch (hg : Going p w v t i) (hst : t.cpu.core.state = .branch)
    (h : Carried w s t) (hregs : t.cpu.core.regs = s.cpu.core.regs)
    (hpc : t.cpu.core.pc = s.cpu.core.pc + 4#32) (hjump : isJump w = false)
    (hal : s.cpu.core.pc.extractLsb' 0 2 = 0#2) : Stage w v s (t.next p i) := by
  refine next_refetch hg (by rw [hst]; decide) h.inStep (by rw [hst]; rfl) (by rw [hst]; rfl)
    (by rw [hst]; rfl) (fun hmis => ?_) hregs h.content h.oldPc hjump
  -- a branch that is not taken keeps `PC`, which is aligned
  have hv : t.cpu.core.memValid = t.cpu.core.zero := by
    unfold Core.memValid
    rw [hst]
    rfl
  rw [hv]
  by_contra hz
  have hpw : t.cpu.core.pcWrite (t.coreIn i) = false := by
    simp [Core.pcWrite, hst, pcUpdate, Bool.eq_true_of_not_eq_false hz]
  rw [next_core, Core.next_pc hpw, hpc] at hmis
  exact hmis (aligned_add_four hal)

theorem next_returning (hg : Going p w v t i)
    (hst : t.cpu.core.state = .mret1 ∨ t.cpu.core.state = .sret1) (hin : t.InStep)
    (hregs : t.cpu.core.regs = s.cpu.core.regs) (hmem : t.mem.content = s.mem.content)
    (hold : t.cpu.core.oldPc = s.cpu.core.pc) (hjump : isJump w = false) :
    Stage w v s (t.next p i) := by
  have hv : t.cpu.core.memValid = false := by
    unfold Core.memValid
    rcases hst with hst | hst <;> rw [hst] <;> rfl
  refine next_refetch hg ?_ hin ?_ ?_ ?_ (fun _ => hv) hregs hmem hold hjump <;>
    rcases hst with hst | hst <;> rw [hst] <;> first | rfl | decide

/-- The atomic writes back the word it has read. -/
theorem next_amoWb (hst : t.cpu.core.state = .amoOpWb) (h : Carried w s t)
    (hregs : t.cpu.core.regs = s.cpu.core.regs) (hpc : t.cpu.core.pc = s.cpu.core.pc + 4#32)
    (hrmw : isRmw w = true) (hdata : t.cpu.core.dataLatched = v) : Stage w v s (t.next p i) := by
  obtain ⟨hnext, hmem, -⟩ := next_of_idle (p := p) (i := i) h.inStep (by rw [hst]; rfl)
  rw [hst] at hnext
  obtain ⟨hi, ho⟩ := Core.next_instr (p := p) (i := t.coreIn i) (c := t.cpu.core)
    (by rw [hst]; decide)
  refine .amo (.inl hnext) ⟨?_, hmem.trans h.content, ho.trans h.oldPc, hi.trans h.instr, ?_⟩
    ?_ ?_ hrmw
  · exact next_inStep_of_not_isInstr h.inStep (by simp [Core.isInstr, hst, isInstruction])
  · exact Core.next_select p (by rw [hst]; decide) _
  · have hres : t.cpu.core.result = v := by
      rw [← hdata]
      simp [Core.result, Core.ctl, hst, moore]
    have hwr : t.cpu.core.ctl.regWrite = true := by simp [Core.ctl, hst, moore]
    rw [next_core, written, ← hregs, ← h.instr, ← hres, ← hwr]
    rfl
  · rw [next_core, Core.next_pc (Core.pcWrite_of_not_movesPc (by rw [hst]; rfl)), hpc]

/-- The second half of an atomic. -/
theorem next_amo (hg : Going p w v t i)
    (hst : t.cpu.core.state = .amoOpExec ∨ t.cpu.core.state = .amoOpAddr ∨
      t.cpu.core.state = .amoOpWrite)
    (h : Carried w s t) (hregs : t.cpu.core.regs = written w v s)
    (hpc : t.cpu.core.pc = s.cpu.core.pc + 4#32) (hrmw : isRmw w = true)
    (hal : s.cpu.core.pc.extractLsb' 0 2 = 0#2) :
    Stage w v s (t.next p i) ∨
      RaisedAt w v s (t.next p i) ((t.coreIn i).memReady) := by
  have hkeeps : keeps t.cpu.core.state = true := by
    rcases hst with hs | hs | hs <;> rw [hs] <;> rfl
  obtain ⟨hr, hp, ho, hi⟩ := Core.next_of_keeps p hkeeps (t.coreIn i)
  rw [← next_core] at hr hp ho hi
  have hin' : (t.next p i).InStep := by
    apply next_inStep_of_not_isInstr h.inStep
    rcases hst with hs | hs | hs <;> simp [Core.isInstr, hs, isInstruction]
  have hsel' : (t.next p i).cpu.core.csr.exceptionSelect = false := by
    refine Core.next_select p ?_ _
    rcases hst with hs | hs | hs <;> rw [hs] <;> decide
  have hmem' := h.content_next (p := p) (i := i)
  -- the atomic goes on
  have go : ((t.next p i).cpu.core.state = .amoOpExec ∨
      (t.next p i).cpu.core.state = .amoOpAddr ∨ (t.next p i).cpu.core.state = .amoOpWrite) →
      Stage w v s (t.next p i) := by
    intro hs
    refine .amo hs ⟨hin', hmem' ?_ ?_, ho.trans h.oldPc, hi.trans h.instr, hsel'⟩
      (hr.trans hregs) (hp.trans hpc) hrmw <;>
      rcases hs with hs | hs | hs <;> rw [hs] <;> decide
  cases hstall : (t.coreIn i).stall with
  | true =>
    refine .inl (go ?_)
    rw [next_core, Core.next_state_of_stall _ _ hstall]
    exact hst
  | false =>
    have hnext : (t.next p i).cpu.core.state
        = stateNxt t.cpu.core.state (t.cpu.core.fsmIn (t.coreIn i)) :=
      Core.next_state p _ hstall
    rcases hst with hs | hs | hs <;> rw [hs] at hnext
    · exact .inl (go (.inr (.inl hnext)))
    · exact .inl (go (.inr (.inr hnext)))
    · -- the store is done, waits, or is refused
      have hcases : (t.next p i).cpu.core.state = .fetch ∨
          (t.next p i).cpu.core.state = .amoOpWrite ∨
          raisedByStore (t.next p i).cpu.core.state = true := by
        rw [hnext]
        simp only [stateNxt, accessNxt]
        split_ifs <;> simp [raisedByStore]
      rcases hcases with hf | hw | hx
      · rcases hg.fetch hf with hfe | hmis
        · exact absurd (hs.symm.trans hfe) (by decide)
        · rw [hp, hpc] at hmis
          exact absurd (aligned_add_four hal) hmis
      · exact .inl (go (.inr (.inr hw)))
      · have hstates : (t.next p i).cpu.core.state = .storeMisalign0 ∨
            (t.next p i).cpu.core.state = .storeFault0 ∨
            (t.next p i).cpu.core.state = .spageFault0 := by
          simpa [raisedByStore, or_assoc] using hx
        refine .inr ⟨?_, .inl (hin'.idle ?_), hmem' ?_ ?_, .amo hrmw hx (hr.trans hregs) ?_⟩
        · rcases hstates with h | h | h <;> rw [h] <;> rfl
        · rcases hstates with h | h | h <;> rw [h] <;> rfl
        · rcases hstates with h | h | h <;> rw [h] <;> decide
        · rcases hstates with h | h | h <;> rw [h] <;> decide
        · rw [← h.oldPc, ← ho]
          rcases hstates with h | h | h <;> simp [epcSource, Core.ctl, h, moore]

/-- A fetch that stays presented is the same request. -/
theorem holds_of_fetch (hc : presentsFetch t.cpu.core.state = true ∨ t.cpu.core.state = .fetch)
    (hn : (t.next p i).cpu.core.state = .fetch) :
    t.cpu.mmu.Holds (t.memReady i) (t.cpu.core.tlbFlush (t.coreIn i)) t.cpu.req
      (t.next p i).cpu.req := by
  intro hv hr _
  obtain ⟨-, h1, h2, h3, h4⟩ := Core.request_next_fetch p (i := t.coreIn i) hv hr hc hn
  obtain ⟨h5, h6, h7, -⟩ :=
    Core.next_csr_of_quiet p (Core.touchesCsr_of_memValid hv) (t.coreIn i)
  exact ⟨⟨h1.trans hv.symm, h3, h2, h4, h7, h6, h5⟩, Core.tlbFlush_of_memValid hv _⟩

/-- The jump writes its link register while the fetch from its target is on its way. -/
theorem next_link (hg : Going p w v t i) (hst : t.cpu.core.state = .aluWb) (h : Carried w s t)
    (hregs : t.cpu.core.regs = s.cpu.core.regs)
    (hlink : t.cpu.core.aluOut = s.cpu.core.pc + 4#32) (hjump : isJump w = true) :
    Stage w v s (t.next p i) := by
  obtain ⟨hnext, hmem, -⟩ := next_of_idle (p := p) (i := i) h.inStep (by rw [hst]; rfl)
  rw [hst] at hnext
  have hmis : (t.next p i).cpu.core.pc.extractLsb' 0 2 ≠ 0#2 := by
    rcases hg.fetch hnext with hs | hmis
    · exact absurd (hst.symm.trans hs) (by decide)
    · exact hmis
  refine .refetchJump hnext (phase_next h.inStep.phase (holds_of_fetch (.inl (by rw [hst]; rfl)) hnext))
    ?_ (hmem.trans h.content) ?_ hjump hmis
  · have hres : t.cpu.core.result = s.cpu.core.pc + 4#32 := by
      rw [← hlink]
      simp [Core.result, Core.ctl, hst, moore]
    have hwr : t.cpu.core.ctl.regWrite = true := by simp [Core.ctl, hst, moore]
    rw [next_core, written, ← hregs, ← h.instr, ← hres, ← hwr]
    rfl
  · rw [next_core, (Core.next_instr (by rw [hst]; decide)).2, h.oldPc]

theorem next_finishing (hg : Going p w v t i) (hst : finishing t.cpu.core.state = true)
    (hpc : t.cpu.core.pc = s.cpu.core.pc + 4#32)
    (hal : s.cpu.core.pc.extractLsb' 0 2 = 0#2) : Stage w v s (t.next p i) := by
  have hpc' : (t.next p i).cpu.core.pc = s.cpu.core.pc + 4#32 := by
    rw [next_core, Core.next_pc (Core.pcWrite_of_not_movesPc (finishing_quiet hst).1), hpc]
  cases hstall : (t.coreIn i).stall with
  | true =>
    refine .finishing ?_ hpc'
    rw [next_core, Core.next_state_of_stall _ _ hstall]
    exact hst
  | false =>
    have hf : (t.next p i).cpu.core.state = .fetch := by
      rw [next_core, Core.next_state _ _ hstall]
      exact (finishing_quiet hst).2 _
    rcases hg.fetch hf with hfe | hmis
    · rw [hfe] at hst
      exact absurd hst (by decide)
    · rw [hpc'] at hmis
      exact absurd (aligned_add_four hal) hmis

/-! ## The fetch from a misaligned target -/

theorem next_of_misaligned (hst : t.cpu.core.state = .fetch)
    (hmis : t.cpu.core.pc.extractLsb' 0 2 ≠ 0#2) (hstall : (t.coreIn i).stall = false) :
    (t.next p i).cpu.core.state = .instrMisalign0 ∧
      (t.next p i).cpu.core.regs = t.cpu.core.regs ∧
      (t.next p i).cpu.core.oldPc
        = if (t.coreIn i).memReady then t.cpu.core.pc else t.cpu.core.oldPc := by
  obtain ⟨haddr, -, -⟩ := Core.memAddr_of_presentsFetch (c := t.cpu.core) (.inr hst)
  refine ⟨?_, Core.next_regs (by rw [hst]; rfl), ?_⟩
  · have hu : (t.cpu.core.fsmIn (t.coreIn i)).isInstructionUnaligned = true := by
      simpa [Core.fsmIn, haddr] using hmis
    rw [next_core, Core.next_state _ _ hstall, hst]
    simp [stateNxt, accessNxt, hu]
  · rw [next_core]
    simp [Core.next, storeInstr, hst]

theorem raise_refetch (hst : t.cpu.core.state = .fetch) (hidle : t.cpu.mmu.state = .idle)
    (hregs : t.cpu.core.regs = s.cpu.core.regs) (hmem : t.mem.content = s.mem.content)
    (hold : t.cpu.core.oldPc = s.cpu.core.pc) (hjump : isJump w = false)
    (hmis : t.cpu.core.pc.extractLsb' 0 2 ≠ 0#2) :
    RaisedAt w v s (t.next p i) ((t.coreIn i).memReady) := by
  obtain ⟨hstall, hr⟩ := coreIn_of_idle (i := i) hidle
  obtain ⟨hs, hregs', hold'⟩ := next_of_misaligned (p := p) hst hmis hstall
  rw [hr, if_neg Bool.false_ne_true] at hold'
  obtain ⟨-, hw, -⟩ := Core.memAddr_of_presentsFetch (c := t.cpu.core) (.inr hst)
  refine ⟨by rw [hs]; rfl, ReadsOnly.next (.inl hidle) fun _ => hw, (content_next hr).trans hmem,
    .clean (hregs'.trans hregs) ?_ (by rw [hs]; simp [raisedByStore]) (by simp [hjump])⟩
  simp [epcSource, Core.ctl, hs, moore, hold', hold]

theorem next_refetchJump (hst : t.cpu.core.state = .fetch)
    (hphase : t.cpu.mmu.Phase true t.mem.content t.mem.held t.cpu.req)
    (hregs : t.cpu.core.regs = written w (s.cpu.core.pc + 4#32) s)
    (hmem : t.mem.content = s.mem.content) (hold : t.cpu.core.oldPc = s.cpu.core.pc)
    (hjump : isJump w = true) (hmis : t.cpu.core.pc.extractLsb' 0 2 ≠ 0#2)
    (hal : s.cpu.core.pc.extractLsb' 0 2 = 0#2) :
    Stage w v s (t.next p i) ∨
      RaisedAt w v s (t.next p i) ((t.coreIn i).memReady) := by
  obtain ⟨-, hw, -⟩ := Core.memAddr_of_presentsFetch (c := t.cpu.core) (.inr hst)
  have hmem' : (t.next p i).mem.content = s.mem.content :=
    (content_next_of_read hphase hw).trans hmem
  -- stalled, the fetch stays where it is; otherwise it raises the exception, answered or not
  cases hstall : (t.coreIn i).stall with
  | true =>
    have hr : (t.coreIn i).memReady = false := by
      by_contra hr
      have hacc := accessPhase_of_ready hphase (Bool.eq_true_of_not_eq_false hr)
      have hst' : t.cpu.mmu.stall = true := hstall
      rw [Sv32.stall, hacc.state] at hst'
      exact absurd hst' (by decide)
    have hs : (t.next p i).cpu.core.state = .fetch := by
      rw [next_core, Core.next_state_of_stall _ _ hstall, hst]
    have hpw : t.cpu.core.pcWrite (t.coreIn i) = false := by
      simp [Core.pcWrite, Core.ctl, hst, moore, pcUpdate, hr]
    refine .inl (.refetchJump hs (phase_next hphase (holds_of_fetch (.inr hst) hs)) ?_ hmem' ?_ hjump
      ?_)
    · rw [next_core, Core.next_regs (by rw [hst]; rfl), hregs]
    · rw [next_core]
      simp [Core.next, storeInstr, hr, hold]
    · rw [next_core, Core.next_pc hpw]
      exact hmis
  | false =>
    obtain ⟨hs, hregs', hold'⟩ := next_of_misaligned (p := p) hst hmis hstall
    have hreads : t.ReadsOnly := by
      by_cases hidle : t.cpu.mmu.state = .idle
      · exact .inl hidle
      · obtain ⟨hl, -⟩ := hphase.latched_of_busy hidle
        exact .inr (hl.wstrb.trans hw)
    refine .inr ⟨by rw [hs]; rfl, hreads.next fun _ => hw, hmem',
      .jump hjump hs (hregs'.trans hregs) ?_⟩
    have hepc : (t.next p i).epcSource = (t.next p i).cpu.core.oldPc := by
      simp [epcSource, Core.ctl, hs, moore]
    rw [hepc, hold', hold]
    cases (t.coreIn i).memReady with
    | false => simp
    | true =>
      simp only [if_true, Bool.true_eq_false, iff_false]
      intro hpc
      rw [hpc] at hmis
      exact hmis hal

/-- **One edge of an instruction.** -/
theorem Stage.next (h : Stage w v s t) (hg : Going p w v t i)
    (hal : s.cpu.core.pc.extractLsb' 0 2 = 0#2) :
    Stage w v s (t.next p i) ∨
      RaisedAt w v s (t.next p i) ((t.coreIn i).memReady) := by
  cases h with
  | fetching hst hin hsel hregs hpc hmem => exact next_fetching hg hst hin hsel hregs hpc hmem hal
  | plain hst h hregs hpc hfact => exact next_plain hg hst h hregs hpc hfact hal
  | jal hst h hregs hjump => exact .inl (next_jal hst h hregs hjump)
  | branch hst h hregs hpc hjump => exact .inl (next_branch hg hst h hregs hpc hjump hal)
  | returning hst hin hregs hmem hold hjump =>
    exact .inl (next_returning hg hst hin hregs hmem hold hjump)
  | amoWb hst h hregs hpc hrmw hdata => exact .inl (next_amoWb hst h hregs hpc hrmw hdata)
  | amo hst h hregs hpc hrmw => exact next_amo hg hst h hregs hpc hrmw hal
  | link hst h hregs hlink hjump => exact .inl (next_link hg hst h hregs hlink hjump)
  | finishing hst hpc => exact .inl (next_finishing hg hst hpc hal)
  | refetch hst hidle hregs hmem hold hjump hmis =>
    exact .inr (raise_refetch hst hidle hregs hmem hold hjump hmis)
  | refetchJump hst hphase hregs hmem hold hjump hmis =>
    exact next_refetchJump hst hphase hregs hmem hold hjump hmis hal

/-! ## The way into the handler -/

/-- The second states of the exceptions, which write `PC`. -/
def entersHandler : FsmState → Bool
  | .ipageFault1 | .csrFault1 | .ecall1 | .irq1 | .ebreak1 | .illegal1 | .loadMisalign1
  | .storeMisalign1 | .loadFault1 | .storeFault1 | .lpageFault1 | .spageFault1 | .instrMisalign1
  | .instrFault1 => true
  | _ => false

theorem entersHandler_quiet {st : FsmState} (h : entersHandler st = true) :
    waitsForBus st = false ∧ Core.touchesCsr st = false ∧ Core.writesBack st = false ∧
      ∀ zero lu su, memValid st zero lu su = false := by
  cases st <;>
    first | exact absurd h (by decide) | exact ⟨rfl, rfl, rfl, fun _ _ _ => rfl⟩

theorem stateNxt_of_raises {st : FsmState} (h : raisesException st = true) (j : FsmIn) :
    entersHandler (stateNxt st j) = true := by
  cases st <;> first | rfl | exact absurd h (by decide)

theorem stateNxt_of_entersHandler {st : FsmState} (h : entersHandler st = true) (j : FsmIn) :
    stateNxt st j = .fetch := by
  cases st <;> first | rfl | exact absurd h (by decide)

/-- The address recorded for the exception, in the register of the mode it is taken in. -/
def epc (t : System iw dw) : Word :=
  if t.cpu.core.csr.privilegeMode = 1#2 then t.cpu.core.csr.sepc else t.cpu.core.csr.mepc

/-- On the way from the exception `r` to the handler: registers and memory are kept, and
`r.epcSource` is recorded. -/
structure Entering (r t : System iw dw) : Prop where
  reads : t.ReadsOnly
  regs : t.cpu.core.regs = r.cpu.core.regs
  content : t.mem.content = r.mem.content
  recorded : (raisesException t.cpu.core.state = true ∧ t.epcSource = r.epcSource) ∨
    ((entersHandler t.cpu.core.state = true ∨ t.cpu.core.state = .fetch) ∧ t.epc = r.epcSource)

/-- The edge that takes the exception records the address. -/
theorem epc_next_of_raises (h : raisesException t.cpu.core.state = true) :
    (t.next p i).epc = t.epcSource := by
  have he : (t.cpu.core.csrIn (t.coreIn i)).exceptionEvent = true :=
    (moore_exceptionEvent _ _).trans h
  have hpc : (t.cpu.core.csrIn (t.coreIn i)).pc = t.epcSource := rfl
  have hcsr : (t.next p i).cpu.core.csr
      = t.cpu.core.csr.next p.systemClk (t.cpu.core.csrIn (t.coreIn i)) := rfl
  unfold epc
  rw [hcsr, CsrUnit.next_privilegeMode_eq, CsrUnit.next_sepc_eq, CsrUnit.next_mepc_eq]
  simp only [CsrUnit.eventNext, he, if_true, CsrUnit.takeException, hpc]
  split
  · exact if_pos rfl
  · exact if_neg (show ¬ (3#2 = 1#2) by decide)

/-- A quiet edge keeps it. -/
theorem epc_next_of_quiet (h : Core.touchesCsr t.cpu.core.state = false) :
    (t.next p i).epc = t.epc := by
  have hcsr : (t.next p i).cpu.core.csr
      = t.cpu.core.csr.next p.systemClk (t.cpu.core.csrIn (t.coreIn i)) := rfl
  unfold epc
  rw [hcsr, CsrUnit.next_privilegeMode_eq, CsrUnit.next_sepc_eq, CsrUnit.next_mepc_eq,
    CsrUnit.eventNext_of_quiet (Core.csrIn_quiet h _)]

theorem Entering.next {r : System iw dw} (h : Entering r t) (hst : t.cpu.core.state ≠ .fetch) :
    Entering r (t.next p i) := by
  -- neither state presents a request or writes a register
  have hquiet : t.cpu.core.memValid = false ∧ Core.writesBack t.cpu.core.state = false := by
    unfold Core.memValid
    rcases h.recorded with ⟨hs, -⟩ | ⟨hs | hs, -⟩
    · exact ⟨(raises_quiet hs).2.2 _ _ _, (raises_quiet hs).2.1⟩
    · exact ⟨(entersHandler_quiet hs).2.2.2 _ _ _, (entersHandler_quiet hs).2.2.1⟩
    · exact absurd hs hst
  obtain ⟨hv, hwb⟩ := hquiet
  refine ⟨h.reads.next fun hno => absurd (hv.symm.trans hno) (by decide), ?_, ?_, ?_⟩
  · rw [next_core, Core.next_regs hwb, h.regs]
  · rw [h.reads.content, h.content]
  rcases h.recorded with ⟨hs, hepc⟩ | ⟨hs | hs, hepc⟩
  · cases hstall : (t.coreIn i).stall with
    | true =>
      -- a stalled exception is taken once more in the next cycle
      have hsame : (t.next p i).cpu.core.state = t.cpu.core.state :=
        Core.next_state_of_stall p _ hstall
      have hkeeps : keeps t.cpu.core.state = true := by simp [keeps, hs]
      obtain ⟨-, hp, ho, hi⟩ := Core.next_of_keeps p hkeeps (t.coreIn i)
      rw [← next_core] at hp ho hi
      refine .inl ⟨by rw [hsame]; exact hs, ?_⟩
      rw [← hepc, epcSource, epcSource, Core.ctl, Core.ctl, hsame, hp, ho, hi]
    | false =>
      refine .inr ⟨.inl ?_, (epc_next_of_raises hs).trans hepc⟩
      rw [next_core, Core.next_state _ _ hstall]
      exact stateNxt_of_raises hs _
  · refine .inr ⟨?_, (epc_next_of_quiet (entersHandler_quiet hs).2.1).trans hepc⟩
    cases hstall : (t.coreIn i).stall with
    | true =>
      left
      rw [next_core, Core.next_state_of_stall _ _ hstall]
      exact hs
    | false =>
      right
      rw [next_core, Core.next_state _ _ hstall]
      exact stateNxt_of_entersHandler hs _
  · exact absurd hs hst

/-! ## Runs -/

/-- An instruction begins: its fetch is presented, and nothing else is on the bus. -/
structure Begins (s : System iw dw) : Prop where
  state : s.cpu.core.state = .fetch
  inStep : s.InStep
  select : s.cpu.core.csr.exceptionSelect = false
  aligned : s.cpu.core.pc.extractLsb' 0 2 = 0#2

section Run

variable {inp : ℕ → SystemIn} {m n : ℕ}

/-- Every fetch of a run from reset, up to the first from a misaligned address, begins an
instruction. -/
theorem begins_of_reset (hs : s.IsReset p)
    (hal : ∀ k, k ≤ n → (Sync.run (System.next p) s inp k).FetchAligned)
    (hf : (Sync.run (System.next p) s inp n).cpu.core.state = .fetch) :
    (Sync.run (System.next p) s inp n).Begins := by
  obtain ⟨haddr, -, hins⟩ :=
    Core.memAddr_of_presentsFetch (c := (Sync.run (System.next p) s inp n).cpu.core) (.inr hf)
  have hok : (Sync.run (System.next p) s inp n).cpu.core.UnitsOk :=
    Sync.run_invariant (P := fun t : System iw dw => t.cpu.core.UnitsOk) hs.1.1.unitsOk
      (fun _ hi => hi.next _) n
  refine ⟨hf, inStep_run hs n fun k hk => hal k (by omega), (hok.settled hf).1, ?_⟩
  rw [← haddr]
  refine hal n le_rfl ?_ hins
  unfold Core.memValid
  rw [hf]
  rfl

/-- The instruction that begins in `s` raises a synchronous exception in cycle `m` of the
run, and the state machine is back in `FETCH` in cycle `n`.  `w` is the word fetched and `v`
the word the read half of an atomic reads.  A fetch on the way to the exception is still the
first one, or the one from a misaligned target. -/
structure Excepts (p : Params) (s : System iw dw) (inp : ℕ → SystemIn) (w v : Word)
    (m n : ℕ) : Prop where
  raised : raisesException (Sync.run (System.next p) s inp m).cpu.core.state = true
  sync : (Sync.run (System.next p) s inp m).cpu.core.state ≠ .irq0
  first : ∀ k, k < m →
    raisesException (Sync.run (System.next p) s inp k).cpu.core.state = false
  fetch : ∀ k, k < m → (Sync.run (System.next p) s inp k).cpu.core.state = .fetch →
    (∀ l, l ≤ k → (Sync.run (System.next p) s inp l).cpu.core.state = .fetch) ∨
      (Sync.run (System.next p) s inp k).cpu.core.pc.extractLsb' 0 2 ≠ 0#2
  word : ∀ k, k < m → (Sync.run (System.next p) s inp k).cpu.core.state = .decode →
    (Sync.run (System.next p) s inp k).cpu.core.instr = w
  data : ∀ k, k < m → (Sync.run (System.next p) s inp k).cpu.core.state = .amoOpRead →
    ((Sync.run (System.next p) s inp k).coreIn (inp k)).memReady = true →
      ((Sync.run (System.next p) s inp k).coreIn (inp k)).memRdata = v
  after : m < n
  handler : (Sync.run (System.next p) s inp n).cpu.core.state = .fetch
  entering : ∀ k, m ≤ k → k < n → (Sync.run (System.next p) s inp k).cpu.core.state ≠ .fetch

theorem Excepts.going (h : Excepts p s inp w v m n) {k : ℕ} (hk : k < m) :
    Going p w v (Sync.run (System.next p) s inp k) (inp k) := by
  have hlt : ∀ st, raisesException st = false →
      (Sync.run (System.next p) s inp (k + 1)).cpu.core.state = st → k + 1 < m := by
    intro st hst hs
    apply lt_of_le_of_ne hk
    intro hm
    have hr := h.raised
    rw [← hm, hs, hst] at hr
    exact absurd hr (by decide)
  have hirq : (Sync.run (System.next p) s inp (k + 1)).cpu.core.state ≠ .irq0 := by
    intro hs
    rcases Nat.lt_or_ge (k + 1) m with hm | hm
    · have hr := h.first _ hm
      rw [hs] at hr
      exact absurd hr (by decide)
    · obtain rfl : m = k + 1 := by omega
      exact h.sync hs
  refine ⟨fun hs => ?_, hirq, fun hs => h.word _ (hlt _ rfl hs) hs, h.data k hk⟩
  rcases h.fetch _ (hlt _ rfl hs) hs with hall | hmis
  · exact .inl (hall k (by omega))
  · exact .inr hmis

theorem Excepts.pos (h : Excepts p s inp w v m n) (hs : s.Begins) : 0 < m := by
  apply Nat.pos_of_ne_zero
  intro hm
  have hr := h.raised
  rw [hm, Sync.run_zero, hs.state] at hr
  exact absurd hr (by decide)

/-- Up to the exception the instruction goes through its stages. -/
theorem Excepts.stage (h : Excepts p s inp w v m n) (hs : s.Begins) :
    ∀ k, k < m → Stage w v s (Sync.run (System.next p) s inp k) := by
  intro k
  induction k with
  | zero => exact fun _ => .fetching hs.state hs.inStep hs.select rfl rfl rfl
  | succ k ih =>
    intro hk
    rcases (ih (by omega)).next (h.going (by omega)) hs.aligned with hst | hr
    · exact hst
    · exact absurd (hr.state.symm.trans (h.first _ hk)) (by decide)

/-- No stage is an exception. -/
theorem Stage.not_raises (h : Stage w v s t) : raisesException t.cpu.core.state = false := by
  cases h with
  | fetching hst | jal hst | branch hst | amoWb hst | link hst | refetch hst | refetchJump hst =>
    rw [hst]
    rfl
  | plain hst | finishing hst =>
    cases hc : t.cpu.core.state <;> rw [hc] at hst <;>
      first | rfl | exact absurd hst (by decide)
  | returning hst => rcases hst with hst | hst <;> rw [hst] <;> rfl
  | amo hst => rcases hst with hst | hst | hst <;> rw [hst] <;> rfl

theorem Excepts.raisedAt (h : Excepts p s inp w v (m + 1) n) (hs : s.Begins) :
    RaisedAt w v s (Sync.run (System.next p) s inp (m + 1))
      ((Sync.run (System.next p) s inp m).coreIn (inp m)).memReady := by
  rcases (h.stage hs m (by omega)).next (h.going (by omega)) hs.aligned with hst | hr
  · exact absurd (hst.not_raises.symm.trans h.raised) (by decide)
  · exact hr

/-- From the exception to the handler. -/
theorem Excepts.enters (h : Excepts p s inp w v m n)
    (hr : (Sync.run (System.next p) s inp m).ReadsOnly) :
    ∀ k, m ≤ k → k ≤ n →
      Entering (Sync.run (System.next p) s inp m) (Sync.run (System.next p) s inp k) := by
  intro k hmk
  induction k, hmk using Nat.le_induction with
  | base => exact fun _ => ⟨hr, rfl, rfl, .inl ⟨h.raised, rfl⟩⟩
  | succ k hmk ih =>
    intro hk
    exact (ih (by omega)).next (h.entering k hmk (by omega))

/-- The handler finds the recorded address. -/
theorem Excepts.epc_eq (h : Excepts p s inp w v m n)
    (hr : (Sync.run (System.next p) s inp m).ReadsOnly) :
    (Sync.run (System.next p) s inp n).epc = (Sync.run (System.next p) s inp m).epcSource := by
  rcases (h.enters hr n (by have := h.after; omega) le_rfl).recorded with ⟨hno, -⟩ | ⟨-, hepc⟩
  · rw [h.handler] at hno
    exact absurd hno (by decide)
  · exact hepc

/-! ## Precision -/

/-- Registers and memory are as before the instruction, and its address is recorded. -/
def Precise (s t : System iw dw) : Prop :=
  (∀ r, Core.readReg t.cpu.core.regs r = Core.readReg s.cpu.core.regs r) ∧
    t.mem.content = s.mem.content ∧ t.epc = s.cpu.core.pc

/-- An atomic has written its register when its store is refused. -/
def AmoTorn (w v : Word) (s r : System iw dw) : Prop :=
  isRmw w = true ∧ raisedByStore r.cpu.core.state = true ∧ rdOf w ≠ 0#5 ∧
    Core.readReg s.cpu.core.regs (rdOf w) ≠ v

/-- A jump to a misaligned target has written its link register, or the memory answers the
fetch from the target while it traps. -/
def JumpTorn (w : Word) (s r : System iw dw) (answered : Bool) : Prop :=
  isJump w = true ∧ r.cpu.core.state = .instrMisalign0 ∧
    ((rdOf w ≠ 0#5 ∧ Core.readReg s.cpu.core.regs (rdOf w) ≠ s.cpu.core.pc + 4#32) ∨
      answered = true)

theorem readReg_written (value : Word) :
    (∀ r, Core.readReg (written w value s) r = Core.readReg s.cpu.core.regs r) ↔
      rdOf w = 0#5 ∨ Core.readReg s.cpu.core.regs (rdOf w) = value := by
  constructor
  · intro h
    by_cases hz : rdOf w = 0#5
    · exact .inl hz
    · right
      have hd := h (rdOf w)
      simpa [Core.readReg, written, Core.writeReg, hz] using hd.symm
  · intro h r
    by_cases hr : r = rdOf w
    · subst hr
      rcases h with h | h
      · simp [Core.readReg, h]
      · by_cases hz : rdOf w = 0#5
        · simp [Core.readReg, hz]
        · rw [← h]
          simp [Core.readReg, written, Core.writeReg, hz]
    · simp [Core.readReg, written, Core.writeReg, hr]

/-- A read-modify-write atomic is not a jump. -/
theorem isJump_of_isRmw (h : isRmw w = true) : isJump w = false := by
  simp only [isRmw, isAmo, Bool.and_eq_true, beq_iff_eq] at h
  simp [isJump, isJal, isJalr, h.1.1]

/-- What is torn of the instruction decides whether it is precise. -/
theorem Raised.precise_iff_torn {r : System iw dw} {answered : Bool}
    (h : Raised w v s r answered) (hreg : t.cpu.core.regs = r.cpu.core.regs)
    (hmem : t.mem.content = s.mem.content) (hepc : t.epc = r.epcSource) :
    Precise s t ↔ ¬ AmoTorn w v s r ∧ ¬ JumpTorn w s r answered := by
  unfold Precise AmoTorn JumpTorn
  rw [hreg, hmem, hepc]
  cases h with
  | clean hregs he hamo hjump =>
    rw [hregs, he]
    simp only [implies_true, and_self, true_iff]
    exact ⟨fun h => hamo ⟨h.1, h.2.1⟩, fun h => hjump ⟨h.1, h.2.1⟩⟩
  | amo hrmw hst hregs he =>
    rw [hregs, he, readReg_written, isJump_of_isRmw hrmw, hrmw, hst]
    simp only [and_true, true_and, Bool.false_eq_true, false_and, not_false_eq_true]
    tauto
  | jump hjump hst hregs he =>
    have hrmw : isRmw w = false := by
      by_contra hno
      have := isJump_of_isRmw (Bool.eq_true_of_not_eq_false hno)
      exact absurd (this.symm.trans hjump) (by decide)
    rw [hregs, he, readReg_written, hrmw, hjump, hst]
    simp only [true_and, Bool.false_eq_true, false_and, not_false_eq_true]
    cases answered with
    | false => simp only [and_true, Bool.false_eq_true, or_false]; tauto
    | true => simp

/-- **Which exceptions are precise.**  When the state machine is back in `FETCH` after an
exception, registers and memory are as before the instruction and its address is recorded
if and only if neither an atomic nor a jump was torn. -/
theorem precise_iff (hs : s.Begins) (h : Excepts p s inp w v m n) :
    Precise s (Sync.run (System.next p) s inp n) ↔
      ¬ AmoTorn w v s (Sync.run (System.next p) s inp m) ∧
        ¬ JumpTorn w s (Sync.run (System.next p) s inp m)
          ((Sync.run (System.next p) s inp (m - 1)).coreIn (inp (m - 1))).memReady := by
  obtain ⟨l, rfl⟩ : ∃ l, m = l + 1 := ⟨m - 1, by have := h.pos hs; omega⟩
  have hr := h.raisedAt hs
  have he := h.enters hr.reads n (by have := h.after; omega) le_rfl
  exact hr.how.precise_iff_torn he.regs (he.content.trans hr.content) (h.epc_eq hr.reads)

end Run

/-! ## Concrete runs -/

/-- The build of the concrete runs with another reset vector. -/
def ramParams : Params := { sampleParams with resetAddr := 0x80000000#32 }

/-- A memory full of `ecall`. -/
def ecalls : BitVec 32 → Word := fun _ => 0x00000073#32

theorem begins_reset (p : Params) (content : BitVec 32 → Word)
    (h : p.resetAddr.extractLsb' 0 2 = 0#2) : (System.reset iw dw p content).Begins :=
  ⟨rfl, (System.reset_isReset iw dw p content).inStep, rfl, h⟩

/-- `ecall` in machine mode is precise. -/
theorem precise_iff_ecall :
    (System.reset 4 3 ramParams ecalls).Begins ∧
      Excepts ramParams (System.reset 4 3 ramParams ecalls) promptInput 0x00000073#32 0#32 5 7 ∧
      Precise (System.reset 4 3 ramParams ecalls)
        (Sync.run (System.next ramParams) (System.reset 4 3 ramParams ecalls) promptInput 7) := by
  have hb : (System.reset 4 3 ramParams ecalls).Begins := begins_reset _ _ rfl
  have he : Excepts ramParams (System.reset 4 3 ramParams ecalls) promptInput 0x00000073#32 0#32
      5 7 := by
    constructor <;> decide +kernel
  refine ⟨hb, he, (precise_iff hb he).2 ⟨fun h => ?_, fun h => ?_⟩⟩
  · exact absurd h.1 (by decide)
  · exact absurd h.1 (by decide)

/-- `amoadd.w x1, x0, (x0)` at address 0. -/
def atomicAtZero : BitVec 32 → Word := fun a => [0x000020af#32].getD a.toNat 0#32

/-- Memory that refuses the store of the atomic. -/
def refusedStore : ℕ → SystemIn := fun n => ⟨⟨true, n == 16⟩, false, false, false, false⟩

/-- A jump to a misaligned target leaves its link address behind, and an atomic whose store
is refused the word it has read. -/
theorem jump_and_atomic_not_precise :
    ((System.reset 4 3 sampleParams misalignedJump).Begins ∧
      Excepts sampleParams (System.reset 4 3 sampleParams misalignedJump) promptInput
        0x00a000ef#32 0#32 10 12 ∧
      ¬ Precise (System.reset 4 3 sampleParams misalignedJump)
        (Sync.run (System.next sampleParams) (System.reset 4 3 sampleParams misalignedJump)
          promptInput 12)) ∧
    ((System.reset 4 3 sampleParams atomicAtZero).Begins ∧
      Excepts sampleParams (System.reset 4 3 sampleParams atomicAtZero) refusedStore
        0x000020af#32 0x000020af#32 17 19 ∧
      ¬ Precise (System.reset 4 3 sampleParams atomicAtZero)
        (Sync.run (System.next sampleParams) (System.reset 4 3 sampleParams atomicAtZero)
          refusedStore 19)) := by
  refine ⟨⟨begins_reset _ _ rfl, ?_, fun h => ?_⟩, ⟨begins_reset _ _ rfl, ?_, fun h => ?_⟩⟩
  · constructor <;> decide +kernel
  · have hr := h.1 1#5
    revert hr
    decide +kernel
  · constructor <;> decide +kernel
  · have hr := h.1 1#5
    revert hr
    decide +kernel

end System

end KianRiscV
