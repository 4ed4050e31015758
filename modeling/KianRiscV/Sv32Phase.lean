/-
# The phases of a translation

`sv32`, its translators and the walker only loosely handshake.  This module names the
joint states they pass through while a client holds a request, from `STATE_IDLE`
through the lookups and reads of the walk and the permission check to the access
itself, and shows that every clock edge leads from one phase to another.  The bus side
is any memory that answers a request it has already seen unanswered in the previous
cycle; `held` is that request.
-/
import KianRiscV.Translation

namespace KianRiscV

namespace Translator

/-- At rest: `S0` with no result standing. -/
structure Quiet (t : Translator) : Prop where
  state : t.state = .s0
  ready : t.ready = false
  pageFault : t.pageFault = false

variable {t : Translator} {machine : Bool} {address pte : Word} {fault : Bool}

/-- A translator without request and without walk result stays at rest. -/
theorem Quiet.next (h : t.Quiet) : (t.next machine false false address pte fault).Quiet := by
  constructor <;> simp [Translator.next, h.state]

/-- So does one that waits for the walker. -/
theorem Quiet.next_waiting (h : t.Quiet) (hm : machine = false) (valid : Bool) :
    (t.next machine valid false address pte fault).Quiet := by
  constructor <;> simp [Translator.next, h.state, hm]

/-- A result stands for one cycle. -/
theorem next_of_ready (hs : t.state = .s0) (hr : t.ready = true) (valid : Bool) :
    (t.next machine valid false address pte fault).Quiet ∧
      (t.next machine valid false address pte fault).physicalAddress = t.physicalAddress := by
  refine ⟨⟨?_, ?_, ?_⟩, ?_⟩ <;> simp [Translator.next, hs, hr]

end Translator

namespace Sv32

variable {iw dw : ℕ}

/-! ## The translator in use -/

/-- The translator of the latched request. -/
def sel (m : Sv32 iw dw) : Translator :=
  if m.isInstrQ then m.instrTranslator else m.dataTranslator

/-- The other translator. -/
def other (m : Sv32 iw dw) : Translator :=
  if m.isInstrQ then m.dataTranslator else m.instrTranslator

/-- The `*_translate_valid` of the translator in use, and that of the other. -/
def selValid (m : Sv32 iw dw) : Bool :=
  if m.isInstrQ then m.instrTranslateValid else m.dataTranslateValid

def otherValid (m : Sv32 iw dw) : Bool :=
  if m.isInstrQ then m.dataTranslateValid else m.instrTranslateValid

/-- The request register holds the request `r`. -/
structure Latched (m : Sv32 iw dw) (r : CpuReq) : Prop where
  reqValid : r.valid = true
  validQ : m.cpuValidQ = true
  wstrb : m.cpuWstrbQ = r.wstrb
  addr : m.cpuAddrQ = r.addr
  satp : m.satpQ = r.satp
  mstatus : m.mstatusQ = r.mstatus
  priv : m.privModeQ = r.privilegeMode
  isInstr : m.isInstrQ = r.isInstruction

/-- `STATE_TRANSLATE` working on the request `r`. -/
structure Translating (m : Sv32 iw dw) (r : CpuReq) : Prop extends Latched m r where
  state : m.state = .translate
  pageFault : m.pageFault = false
  selValid : m.selValid = true
  otherValid : m.otherValid = false
  other : m.other.Quiet

section Wires

variable {m : Sv32 iw dw} {r : CpuReq}

theorem translationDone_eq (h : m.other.Quiet) : m.translationDone = m.sel.ready := by
  have := h.ready
  unfold translationDone sel
  unfold other at this
  cases hi : m.isInstrQ <;> simp_all

theorem anyPageFault_eq (h : m.other.Quiet) : m.anyPageFault = m.sel.pageFault := by
  have := h.pageFault
  unfold anyPageFault sel
  unfold other at this
  cases hi : m.isInstrQ <;> simp_all

theorem selectedPhysAddr_eq : m.selectedPhysAddr = m.sel.physicalAddress := by
  unfold selectedPhysAddr sel
  cases m.isInstrQ <;> rfl

theorem Latched.ptwValid (h : m.Latched r) :
    m.ptwValid = m.sel.walkValid r.machine m.selValid := by
  unfold Sv32.ptwValid sel selValid instrMachine dataMachine CpuReq.machine
  rw [h.priv, h.mstatus, h.isInstr]
  cases r.isInstruction <;> rfl

/-- A request that stays the same stays latched. -/
theorem Latched.same {r' : CpuReq} (h : m.Latched r) (hs : r.SameAs r') : m.Latched r' :=
  ⟨hs.valid.trans h.reqValid, h.validQ, h.wstrb.trans hs.wstrb.symm, h.addr.trans hs.addr.symm,
    h.satp.trans hs.satp.symm, h.mstatus.trans hs.mstatus.symm,
    h.priv.trans hs.privilegeMode.symm, h.isInstr.trans hs.isInstruction.symm⟩

theorem Translating.same {r' : CpuReq} (h : m.Translating r) (hs : r.SameAs r') :
    m.Translating r' :=
  { h.toLatched.same hs with
    state := h.state
    pageFault := h.pageFault
    selValid := h.selValid
    otherValid := h.otherValid
    other := h.other }

end Wires

/-! ## One clock edge with the request held -/

section Edge

variable {m : Sv32 iw dw} {r : CpuReq} (flush rdy : Bool) (rdata : Word)

/-- Whether or not the request register is loaded again, it holds the request. -/
theorem Latched.next (h : m.Latched r) : (m.next r flush rdy rdata).Latched r := by
  constructor
  · exact h.reqValid
  all_goals simp only [Sv32.next]; split
  · exact h.reqValid
  · exact h.validQ
  · rfl
  · exact h.wstrb
  · rfl
  · exact h.addr
  · rfl
  · exact h.satp
  · rfl
  · exact h.mstatus
  · rfl
  · exact h.priv
  · rfl
  · exact h.isInstr

theorem Latched.sel_next (h : m.Latched r) :
    (m.next r flush rdy rdata).sel
      = m.sel.next r.machine m.selValid m.ptw.ready r.addr (r.seenPte m.ptw.pte)
          (r.faults m.ptw.pte) := by
  have hi : (m.next r flush rdy rdata).isInstrQ = r.isInstruction := (h.next flush rdy rdata).isInstr
  unfold sel
  rw [hi, h.isInstr]
  cases hr : r.isInstruction with
  | true =>
    simp [Sv32.next, instrMachine, h.priv, h.isInstr, hr, h.addr, selValid, CpuReq.machine,
      CpuReq.seenPte, CpuReq.faults]
  | false =>
    simp [Sv32.next, dataMachine, h.priv, h.mstatus, h.isInstr, hr, h.addr, selValid, isWrite,
      h.wstrb, CpuReq.machine, CpuReq.seenPte, CpuReq.faults]

theorem Latched.other_next (h : m.Latched r) (ho : m.other.Quiet) (hv : m.otherValid = false) :
    (m.next r flush rdy rdata).other.Quiet := by
  have hi : (m.next r flush rdy rdata).isInstrQ = r.isInstruction := (h.next flush rdy rdata).isInstr
  unfold other otherValid at *
  rw [hi]
  rw [h.isInstr] at ho hv
  cases hr : r.isInstruction with
  | true =>
    rw [hr] at ho hv
    simp only [if_true] at ho hv ⊢
    simp only [Sv32.next, hv, h.isInstr, hr]
    exact ho.next
  | false =>
    rw [hr] at ho hv
    simp only [Bool.false_eq_true, if_false] at ho hv ⊢
    simp only [Sv32.next, hv, h.isInstr, hr]
    exact ho.next

/-- An edge of `STATE_TRANSLATE` before the result: the request stays in work, and
`translation_pending` sees it unless a read was answered. -/
theorem Translating.next (h : m.Translating r) (hd : m.sel.ready = false)
    (hf : m.sel.pageFault = false) :
    (m.next r flush rdy rdata).Translating r ∧
      (m.next r flush rdy rdata).translationPendingQ = !rdy := by
  have hdone : m.translationDone = false := (translationDone_eq h.other).trans hd
  have hfault : m.anyPageFault = false := (anyPageFault_eq h.other).trans hf
  have hi : (m.next r flush rdy rdata).isInstrQ = r.isInstruction := (h.toLatched.next flush rdy rdata).isInstr
  have hsv := h.selValid
  have hov := h.otherValid
  simp only [Sv32.selValid, Sv32.otherValid, h.isInstr] at hsv hov
  refine ⟨{ h.toLatched.next flush rdy rdata with
    state := ?_
    pageFault := hfault
    selValid := ?_
    otherValid := ?_
    other := h.toLatched.other_next flush rdy rdata h.other h.otherValid }, ?_⟩
  · simp [Sv32.next, stateNxt, h.state, hdone, hfault]
  · simp only [Sv32.selValid, hi]
    cases hr : r.isInstruction <;> rw [hr] at hsv <;> simp [Sv32.next, hr, hdone] <;> simp_all
  · simp only [Sv32.otherValid, hi]
    cases hr : r.isInstruction <;> rw [hr] at hov <;> simp [Sv32.next, hr, hdone] <;> simp_all
  · simp [Sv32.next, translationPending, h.reqValid, h.pageFault]

/-- The inputs of the walker in `STATE_TRANSLATE`. -/
theorem Translating.walkIn (h : m.Translating r) :
    m.walkIn flush rdy rdata =
      { address := r.addr, satp := r.satp, isInstruction := r.isInstruction, tlbFlush := flush
        valid := m.sel.walkValid r.machine true, memReady := rdy, memRdata := rdata } := by
  simp only [Sv32.walkIn, h.addr, h.satp, h.isInstr, h.ptwValid, h.selValid, h.state, beq_self_eq_true,
    Bool.true_and, if_true]

theorem next_ptw : (m.next r flush rdy rdata).ptw = m.ptw.next (m.walkIn flush rdy rdata) := rfl

/-- The bus before the result carries the read of the walker. -/
theorem Translating.busReq (h : m.Translating r) (hd : m.sel.ready = false) :
    m.busReq = ⟨m.ptw.memValid r.satp r.addr r.isInstruction, (m.ptw.memAddr r.addr).setWidth 34,
      0, 0⟩ := by
  have hdone : m.translationDone = false := (translationDone_eq h.other).trans hd
  simp [Sv32.busReq, h.state, hdone, h.satp, h.addr, h.isInstr]

end Edge

/-! ## The phases -/

section Phases

/-- The entry in the walker is that of the request; with `af` a refused read may also
have left a zero. -/
def PteOk (af : Bool) (rd : BitVec 32 → Word) (m : Sv32 iw dw) (r : CpuReq) : Prop :=
  mmuPte m.ptw rd r.satp r.addr r.isInstruction = some m.ptw.pte ∨ (af = true ∧ m.ptw.pte = 0#32)

/-- The result of the translator in use is that of the request. -/
def ResultOk (af : Bool) (rd : BitVec 32 → Word) (m : Sv32 iw dw) (r : CpuReq) : Prop :=
  r.outcome m.ptw rd
      = some (if m.sel.pageFault then .pageFault else .physical m.sel.physicalAddress) ∨
    (af = true ∧ m.sel.pageFault = true)

/-- Where on the path of the request the walker is: at level 1 in the root table, after
a miss at level 0 in the table below, or past it on the all-ones level. -/
def PathAt (rd : BitVec 32 → Word) (w : TableWalk iw dw) (r : CpuReq) : Prop :=
  (w.level = 1#2 ∧ w.base = satpBase r.satp) ∨
    (w.level = 0#2 ∧ w.tlbHit r.satp r.addr r.isInstruction = false ∧
      pteLinks (pathPte1 rd r.satp r.addr) = true ∧
      w.base = pointerBase (pathPte1 rd r.satp r.addr)) ∨
    (w.level = 3#2 ∧ w.tlbHit r.satp r.addr r.isInstruction = false ∧
      pteLinks (pathPte1 rd r.satp r.addr) = true ∧
      pteLinks (pathPte0 rd r.satp r.addr) = true)

/-- No request in work.  A page fault stands for the one cycle after it was found. -/
structure IdlePhase (af : Bool) (rd : BitVec 32 → Word) (held : Option BusReq)
    (m : Sv32 iw dw) (r : CpuReq) : Prop where
  state : m.state = .idle
  instr : m.instrTranslator.Quiet
  data : m.dataTranslator.Quiet
  instrValid : m.instrTranslateValid = false
  dataValid : m.dataTranslateValid = false
  walk : m.ptw.state = .s0
  walkReady : m.ptw.ready = false
  held : held = none
  pending : m.translationPendingQ = true → m.pageFault = true
  fault : m.pageFault = true → m.Latched r ∧ m.faultAddress = r.addr ∧
    (r.outcome m.ptw rd = some .pageFault ∨ af = true)

/-- The request is latched and not yet taken up. -/
structure RequestPhase (m : Sv32 iw dw) (r : CpuReq) : Prop extends Translating m r where
  sel : m.sel.Quiet
  walk : m.ptw.state = .s0
  walkReady : m.ptw.ready = false
  pending : m.translationPendingQ = true

/-- The walker looks into the TLB, with the read of the level already on the bus. -/
structure LookupPhase (rd : BitVec 32 → Word) (held : Option BusReq) (m : Sv32 iw dw)
    (r : CpuReq) : Prop extends Translating m r where
  sel : m.sel.Quiet
  walk : m.ptw.state = .s1
  walkReady : m.ptw.ready = false
  held : held = none
  machine : r.machine = false
  mode : satpModeOf r.satp = true
  path : PathAt rd m.ptw r

/-- The walker waits for the entry of its level. -/
structure ReadPhase (rd : BitVec 32 → Word) (held : Option BusReq) (m : Sv32 iw dw)
    (r : CpuReq) : Prop extends Translating m r where
  sel : m.sel.Quiet
  walk : m.ptw.state = .s2
  walkReady : m.ptw.ready = false
  held : held = some m.busReq
  machine : r.machine = false
  mode : satpModeOf r.satp = true
  path : PathAt rd m.ptw r
  level : m.ptw.level ≠ 3#2
  miss : m.ptw.tlbHit r.satp r.addr r.isInstruction = false

/-- The walker has its entry. -/
structure AnsweredPhase (af : Bool) (rd : BitVec 32 → Word) (m : Sv32 iw dw) (r : CpuReq) :
    Prop extends Translating m r where
  sel : m.sel.Quiet
  walk : m.ptw.state = .s0
  walkReady : m.ptw.ready = true
  machine : r.machine = false
  pte : PteOk af rd m r

/-- The translator checks the entry. -/
structure CheckPhase (af : Bool) (rd : BitVec 32 → Word) (m : Sv32 iw dw) (r : CpuReq) :
    Prop extends Translating m r where
  selState : m.sel.state = .s1
  selReady : m.sel.ready = false
  selFault : m.sel.pageFault = false
  walk : m.ptw.state = .s0
  walkReady : m.ptw.ready = false
  pending : m.translationPendingQ = true
  machine : r.machine = false
  pte : PteOk af rd m r

/-- The result stands; without a page fault the access is already on the bus. -/
structure DonePhase (af : Bool) (rd : BitVec 32 → Word) (held : Option BusReq)
    (m : Sv32 iw dw) (r : CpuReq) : Prop extends Translating m r where
  selState : m.sel.state = .s0
  selReady : m.sel.ready = true
  walk : m.ptw.state = .s0
  walkReady : m.ptw.ready = false
  pending : m.translationPendingQ = true
  held : held = none
  result : ResultOk af rd m r

/-- The access waits for its answer. -/
structure AccessPhase (rd : BitVec 32 → Word) (held : Option BusReq) (m : Sv32 iw dw)
    (r : CpuReq) : Prop extends Latched m r where
  state : m.state = .access
  pageFault : m.pageFault = false
  sel : m.sel.Quiet
  other : m.other.Quiet
  selValid : m.selValid = false
  otherValid : m.otherValid = false
  walk : m.ptw.state = .s0
  walkReady : m.ptw.ready = false
  pending : m.translationPendingQ = true
  held : held = some m.busReq
  result : r.outcome m.ptw rd = some (.physical m.sel.physicalAddress)

/-- The joint state of `sv32` and its submodules, in some phase of the request `r`. -/
inductive Phase (af : Bool) (rd : BitVec 32 → Word) (held : Option BusReq) (m : Sv32 iw dw)
    (r : CpuReq) : Prop where
  | idle (h : m.IdlePhase af rd held r)
  | request (h : m.RequestPhase r)
  | lookup (h : m.LookupPhase rd held r)
  | read (h : m.ReadPhase rd held r)
  | answered (h : m.AnsweredPhase af rd r)
  | check (h : m.CheckPhase af rd r)
  | done (h : m.DonePhase af rd held r)
  | access (h : m.AccessPhase rd held r)

end Phases

end Sv32

end KianRiscV
