/-
# What CSR instructions below machine mode can change

A CSR instruction executed in user or supervisor mode is followed from its `DECODE` to the
next `FETCH`.  If it is not refused it stays within the supervisor registers and the masks
of the aliased ones, in user mode it changes nothing, and if it is refused it changes
registers only by the trap it takes.
-/
import KianRiscV.StatusRegisters

namespace KianRiscV

namespace CsrUnit

/-! ## Frames -/

/-- Only the counters and the pending bits driven by the lines have changed. -/
structure LinesOnly (i : CsrIn) (c c' : CsrUnit) : Prop where
  mip : c'.mip = c.mipNext i.irq3 i.irq7 i.irq9 i.irq11
  rest : c' = { c with
    mip := c'.mip
    exceptionSelect := c'.exceptionSelect
    instrCounter := c'.instrCounter
    timerCounter := c'.timerCounter
    cycleCounter := c'.cycleCounter
    tickCnt := c'.tickCnt }

/-- The machine registers, and the machine bits of the registers with a supervisor view,
are as before. -/
structure Confined (i : CsrIn) (c c' : CsrUnit) : Prop where
  privilegeMode : c'.privilegeMode = c.privilegeMode
  mstatus : c'.mstatus &&& ~~~sstatusMask = c.mstatus &&& ~~~sstatusMask
  mie : c'.mie &&& ~~~sipMask = c.mie &&& ~~~sipMask
  mip : c'.mip &&& ~~~sipMask = c.mip &&& ~~~sipMask ∨
    c'.mip &&& ~~~sipMask = c.mipNext i.irq3 i.irq7 i.irq9 i.irq11 &&& ~~~sipMask
  medeleg : c'.medeleg = c.medeleg
  mideleg : c'.mideleg = c.mideleg
  mtvec : c'.mtvec = c.mtvec
  mepc : c'.mepc = c.mepc
  mcause : c'.mcause = c.mcause
  mtval : c'.mtval = c.mtval
  mscratch : c'.mscratch = c.mscratch
  menvcfg : c'.menvcfg = c.menvcfg
  menvcfgh : c'.menvcfgh = c.menvcfgh
  mcounteren : c'.mcounteren = c.mcounteren
  mcountinhibit : c'.mcountinhibit = c.mcountinhibit
  mtimecmp : c'.mtimecmp = c.mtimecmp
  mtimecmph : c'.mtimecmph = c.mtimecmph

/-- The bits outside the mask survive a masked write. -/
theorem masked_and_not (m w k : Word) :
    ((m &&& ~~~k) ||| (w &&& k)) &&& ~~~k = m &&& ~~~k := by
  apply BitVec.eq_of_getLsbD_eq
  intro n hn
  simp only [BitVec.getLsbD_and, BitVec.getLsbD_or, BitVec.getLsbD_not, hn, decide_true,
    Bool.true_and]
  cases k.getLsbD n <;> simp

variable {c : CsrUnit} {i : CsrIn}

/-- An edge without trap, return and write. -/
theorem linesOnly_next (h : (c.eventNext i) = { c with exceptionSelect := false })
    (hw : c.writesMip i = false) (clk : ℕ) : LinesOnly i c (c.next clk i) := by
  refine ⟨next_mip clk c i hw, ?_⟩
  unfold next
  rw [hw, h]
  rfl

theorem linesOnly_of_quiet (h : IsQuiet i) (clk : ℕ) : LinesOnly i c (c.next clk i) := by
  refine linesOnly_next (eventNext_of_quiet h c) ?_ clk
  simp [writesMip, writes, h.2.2.2]

/-- The edge of a CSR instruction that writes nothing. -/
theorem linesOnly_of_not_writes (he : i.exceptionEvent = false) (hm : i.mret = false)
    (hs : i.sret = false) (hw : c.writes i = false) (clk : ℕ) :
    LinesOnly i c (c.next clk i) := by
  exact linesOnly_next (eventNext_of_not_writes he hm hs hw) (by simp [writesMip, hw]) clk

/-- The edge of a trap, against the registers after its entry. -/
theorem linesOnly_of_exception (he : i.exceptionEvent = true) (clk : ℕ) :
    LinesOnly i (c.takeException i.cause i.pc i.badaddr) (c.next clk i) := by
  have hw : c.writesMip i = false := by simp [writesMip, writes, he]
  have hev : c.eventNext i = c.takeException i.cause i.pc i.badaddr := by
    simp only [eventNext, he, if_true]
    unfold takeException delegated
    split <;> rfl
  constructor
  · rw [next_mip clk c i hw]
    unfold takeException
    split <;> rfl
  · unfold next
    rw [hw, hev]
    rfl

/-! ## Writes below machine mode -/

/-- A write whose address is not one of machine level. -/
theorem write_confined {a : BitVec 12} (ha : a.extractLsb' 8 2 ≠ 3#2) (w : Word) :
    Confined i c (c.write a w) := by
  have same : ∀ c' : CsrUnit, c' = { c with
      sscratch := c'.sscratch
      stvec := c'.stvec
      sepc := c'.sepc
      scause := c'.scause
      stval := c'.stval
      satp := c'.satp
      stimecmp := c'.stimecmp
      stimecmph := c'.stimecmph
      scounteren := c'.scounteren } → Confined i c c' := by
    intro c' hc
    rw [hc]
    constructor
    case mip => exact .inl rfl
    all_goals rfl
  unfold write
  repeat' refine iteInduction (motive := Confined i c) (fun h => ?_) (fun _ => ?_)
  all_goals
    first
    | exact same _ rfl
    | exact absurd (by rw [h]; rfl) ha
    | (constructor
       case mstatus => exact masked_and_not _ _ _
       case mip => exact .inl rfl
       all_goals rfl)
    | (constructor
       case mie => exact masked_and_not _ _ _
       case mip => exact .inl rfl
       all_goals rfl)
    | (constructor
       case mip => exact .inl (masked_and_not _ _ _)
       all_goals rfl)

/-- The registers of user level are the read-only counters. -/
theorem readOnly_of_user {a : BitVec 12} (hu : a.extractLsb' 8 2 = 0#2)
    (hr : (c.read a).isSome = true) : a.extractLsb' 10 2 = 0b11#2 := by
  let P : Option Word → Prop := fun r => r.isSome = true → a.extractLsb' 10 2 = 0b11#2
  have hP : P (c.read a) := by
    unfold read
    repeat' refine iteInduction (motive := P) (fun h => ?_) (fun _ => ?_)
    all_goals
      first
      | exact fun _ => by rw [h]; rfl
      | exact absurd hu (by rw [h]; decide)
      | exact fun hn => absurd hn (by decide)
  exact hP hr

/-- Below machine mode no register of machine level is written. -/
theorem confined_next (hp : c.privilegeMode = 0#2 ∨ c.privilegeMode = 1#2)
    (he : i.exceptionEvent = false) (hm : i.mret = false) (hs : i.sret = false) (clk : ℕ) :
    Confined i c (c.next clk i) := by
  cases hw : c.writes i with
  | false =>
    obtain ⟨hmip, hrest⟩ := linesOnly_of_not_writes he hm hs hw clk
    rw [hrest]
    constructor
    case mip => exact .inr (by rw [← hmip])
    all_goals rfl
  | true =>
    have ha : i.csrAddr.extractLsb' 8 2 ≠ 3#2 := by
      intro ha
      have h3 := privilegeMode_of_writes hw ha
      rcases hp with hp | hp <;> rw [hp] at h3 <;> exact absurd h3 (by decide)
    have hc : Confined i c (c.eventNext i) := by
      rw [eventNext_of_writes hw]
      obtain ⟨h1, h2, h3, h4, h5, h6, h7, h8, h9, h10, h11, h12, h13, h14, h15, h16, h17⟩ :=
        write_confined (i := i) (c := { c with exceptionSelect := false }) ha (c.wdataNxt i)
      exact ⟨h1, h2, h3, h4, h5, h6, h7, h8, h9, h10, h11, h12, h13, h14, h15, h16, h17⟩
    unfold next
    split
    · exact ⟨hc.1, hc.2, hc.3, hc.4, hc.5, hc.6, hc.7, hc.8, hc.9, hc.10, hc.11, hc.12, hc.13,
        hc.14, hc.15, hc.16, hc.17⟩
    · exact ⟨hc.1, hc.2, hc.3, .inr rfl, hc.5, hc.6, hc.7, hc.8, hc.9, hc.10, hc.11, hc.12,
        hc.13, hc.14, hc.15, hc.16, hc.17⟩

/-- In user mode no register is written at all. -/
theorem not_writes_of_user (hp : c.privilegeMode = 0#2) : c.writes i = false := by
  by_contra hno
  obtain ⟨hwe, hf⟩ := not_fault_of_writes (Bool.eq_true_of_not_eq_false hno)
  unfold csrAccessFault at hf
  simp only [hp, hwe, Bool.true_and, Bool.or_eq_false_iff, Option.isNone_eq_false_iff] at hf
  obtain ⟨⟨hlt, hro⟩, hex⟩ := hf
  have hu : i.csrAddr.extractLsb' 8 2 = 0#2 := by
    revert hlt
    generalize i.csrAddr.extractLsb' 8 2 = l
    revert l
    decide
  rw [readOnly_of_user hu hex] at hro
  exact absurd hro (by decide)

/-- The supervisor views. -/
theorem rdata_views (c : CsrUnit) :
    c.rdata 0x100#12 = c.mstatus &&& sstatusMask ∧ c.rdata 0x104#12 = c.mie &&& sipMask ∧
      c.rdata 0x144#12 = c.mip &&& sipMask :=
  ⟨rfl, rfl, rfl⟩

end CsrUnit

/-! ## CSR instructions in a run -/

theorem decodeNxt_of_isCsr {i : FsmIn} (hp : i.irq.pending = false) (h : isCsr i.instr = true) :
    decodeNxt i = .execSystem := by
  have hop : opOf i.instr = 0b1110011#7 := by
    simp only [isCsr, Bool.and_eq_true, beq_iff_eq] at h
    exact h.1
  simp [decodeNxt, hp, h, isLoad, isStore, isRtype, isItype, isJal, isJalr, isBranch, isLui,
    isAuipc, hop]

section Run

variable {iw dw : ℕ} {p : Params} {s : Cpu iw dw} {inp : ℕ → CpuIn}

/-- The inputs of `csr_unit` in cycle `n`. -/
def csrInAt (p : Params) (s : Cpu iw dw) (inp : ℕ → CpuIn) (n : ℕ) : CsrIn :=
  (coreAt p s inp n).csrIn (coreInAt p s inp n)

theorem csr_succ (n : ℕ) :
    (coreAt p s inp (n + 1)).csr
      = (coreAt p s inp n).csr.next p.systemClk (csrInAt p s inp n) := rfl

theorem linesOnly_succ (n : ℕ) (h : Core.touchesCsr (coreAt p s inp n).state = false) :
    CsrUnit.LinesOnly (csrInAt p s inp n) (coreAt p s inp n).csr (coreAt p s inp (n + 1)).csr :=
  CsrUnit.linesOnly_of_quiet (Core.csrIn_quiet h _) _

/-- What the CSR instruction decoded in cycle `n` does until the next `FETCH`. -/
structure CsrConfined (p : Params) (s : Cpu iw dw) (inp : ℕ → CpuIn) (n : ℕ) : Prop where
  decoded : (coreAt p s inp (n + 1)).state = .execSystem ∧
    CsrUnit.LinesOnly (csrInAt p s inp n) (coreAt p s inp n).csr (coreAt p s inp (n + 1)).csr
  /-- it is not refused -/
  done : (coreAt p s inp (n + 1)).csrAccessFault = false →
    (coreAt p s inp (n + 2)).state = .systemWb ∧ (coreAt p s inp (n + 3)).state = .fetch ∧
      CsrUnit.Confined (csrInAt p s inp (n + 1)) (coreAt p s inp (n + 1)).csr
        (coreAt p s inp (n + 2)).csr ∧
      CsrUnit.LinesOnly (csrInAt p s inp (n + 2)) (coreAt p s inp (n + 2)).csr
        (coreAt p s inp (n + 3)).csr
  user : (coreAt p s inp n).csr.privilegeMode = 0#2 →
    CsrUnit.LinesOnly (csrInAt p s inp (n + 1)) (coreAt p s inp (n + 1)).csr
      (coreAt p s inp (n + 2)).csr
  /-- it is refused -/
  refused : (coreAt p s inp (n + 1)).csrAccessFault = true →
    (coreAt p s inp (n + 2)).state = .csrFault0 ∧ (coreAt p s inp (n + 3)).state = .csrFault1 ∧
      (coreAt p s inp (n + 4)).state = .fetch ∧
      CsrUnit.LinesOnly (csrInAt p s inp (n + 1)) (coreAt p s inp (n + 1)).csr
        (coreAt p s inp (n + 2)).csr ∧
      CsrUnit.LinesOnly (csrInAt p s inp (n + 2))
        ((coreAt p s inp (n + 2)).csr.takeException 2#32 (coreAt p s inp (n + 2)).oldPc
          (csrInAt p s inp (n + 2)).badaddr)
        (coreAt p s inp (n + 3)).csr ∧
      CsrUnit.LinesOnly (csrInAt p s inp (n + 3)) (coreAt p s inp (n + 3)).csr
        (coreAt p s inp (n + 4)).csr
  /-- what it reads -/
  reads : (coreAt p s inp (n + 2)).csrDataOut
    = (coreAt p s inp (n + 1)).csr.rdata (coreAt p s inp (n + 1)).csrAddr
  views : ∀ c : CsrUnit, c.rdata 0x100#12 = c.mstatus &&& sstatusMask ∧
    c.rdata 0x104#12 = c.mie &&& sipMask ∧ c.rdata 0x144#12 = c.mip &&& sipMask

/-- **CSR instructions below machine mode.**  In a run from reset, a CSR instruction that is
executed in user or supervisor mode leaves the machine registers alone if it is not refused,
in user mode every register, and takes the illegal-instruction trap if it is refused. -/
theorem csr_instruction_confined (hs : s.IsReset p) (n : ℕ)
    (hd : (coreAt p s inp n).state = .decode)
    (hp : ((coreAt p s inp n).fsmIn (coreInAt p s inp n)).irq.pending = false)
    (hc : isCsr (coreAt p s inp n).instr = true)
    (hm : (coreAt p s inp n).csr.privilegeMode = 0#2 ∨
      (coreAt p s inp n).csr.privilegeMode = 1#2) :
    CsrConfined p s inp n := by
  have h1 : (coreAt p s inp (n + 1)).state = .execSystem := by
    rw [state_succ_afterDecode hs (by rw [hd]; rfl), hd]
    exact decodeNxt_of_isCsr hp hc
  have hl0 : CsrUnit.LinesOnly (csrInAt p s inp n) (coreAt p s inp n).csr
      (coreAt p s inp (n + 1)).csr := linesOnly_succ n (by rw [hd]; rfl)
  have hmode : (coreAt p s inp (n + 1)).csr.privilegeMode
      = (coreAt p s inp n).csr.privilegeMode := by
    rw [hl0.rest]
  have h2 : (coreAt p s inp (n + 2)).state
      = if (coreAt p s inp (n + 1)).csrAccessFault then .csrFault0 else .systemWb := by
    rw [state_succ_afterDecode hs (by rw [h1]; rfl), h1]
    rfl
  -- `EXEC_SYSTEM` is neither a trap nor a return
  have he : (csrInAt p s inp (n + 1)).exceptionEvent = false :=
    (moore_exceptionEvent _ _).trans (by rw [h1]; rfl)
  have hr : (csrInAt p s inp (n + 1)).mret = false := (moore_mret _ _).trans (by rw [h1]; rfl)
  have hsr : (csrInAt p s inp (n + 1)).sret = false := (moore_sret _ _).trans (by rw [h1]; rfl)
  refine ⟨⟨h1, hl0⟩, fun hf => ?_, fun hu => ?_, fun hf => ?_, rfl, CsrUnit.rdata_views⟩
  · rw [hf, if_neg Bool.false_ne_true] at h2
    have h3 : (coreAt p s inp (n + 3)).state = .fetch := by
      rw [state_succ_afterDecode hs (by rw [h2]; rfl), h2]
      rfl
    exact ⟨h2, h3, CsrUnit.confined_next (by rw [hmode]; exact hm) he hr hsr _,
      linesOnly_succ (n + 2) (by rw [h2]; rfl)⟩
  · exact CsrUnit.linesOnly_of_not_writes he hr hsr
      (CsrUnit.not_writes_of_user (by rw [hmode]; exact hu)) _
  · rw [hf, if_pos rfl] at h2
    have h3 : (coreAt p s inp (n + 3)).state = .csrFault1 := by
      rw [state_succ_afterDecode hs (by rw [h2]; rfl), h2]
      rfl
    have h4 : (coreAt p s inp (n + 4)).state = .fetch := by
      rw [state_succ_afterDecode hs (by rw [h3]; rfl), h3]
      rfl
    have hw : (coreAt p s inp (n + 1)).csr.writes (csrInAt p s inp (n + 1)) = false := by
      have hf' : (coreAt p s inp (n + 1)).csr.csrAccessFault (csrInAt p s inp (n + 1)).csrAddr
          (csrInAt p s inp (n + 1)).we = true := hf
      simp [CsrUnit.writes, hf']
    have hx : (csrInAt p s inp (n + 2)).exceptionEvent = true :=
      (moore_exceptionEvent _ _).trans (by rw [h2]; rfl)
    have hcause : (csrInAt p s inp (n + 2)).cause = 2#32 := by
      show cause (coreAt p s inp (n + 2)).state _ = 2#32
      rw [h2]
      rfl
    have hpc : (csrInAt p s inp (n + 2)).pc = (coreAt p s inp (n + 2)).oldPc := by
      show (if (moore (coreAt p s inp (n + 2)).state _).selectPC then _ else _) = _
      rw [h2]
      rfl
    refine ⟨h2, h3, h4, CsrUnit.linesOnly_of_not_writes he hr hsr hw _, ?_,
      linesOnly_succ (n + 3) (by rw [h3]; rfl)⟩
    rw [← hcause, ← hpc]
    exact CsrUnit.linesOnly_of_exception hx _

end Run

/-- `lui x1, 2; addi x1, x1, -0x700; csrrw x0, mstatus, x1; csrrwi x0, sepc, 20; sret;
csrrw x0, sscratch, x1`: the last instruction is executed in supervisor mode. -/
def sscratchProgram : BitVec 32 → Word := fun a =>
  [0x000020b7#32, 0x90008093#32, 0x30009073#32, 0x141a5073#32, 0x10200073#32,
    0x14009073#32].getD a.toNat 0#32

theorem csr_instruction_confined_sscratch :
    (coreAt sampleParams (System.reset 4 3 sampleParams sscratchProgram).cpu
        ((System.reset 4 3 sampleParams sscratchProgram).busAt sampleParams promptInput) 37).instr
      = 0x14009073#32 ∧
    CsrConfined sampleParams (System.reset 4 3 sampleParams sscratchProgram).cpu
      ((System.reset 4 3 sampleParams sscratchProgram).busAt sampleParams promptInput) 37 := by
  refine ⟨by rw [coreAt_busAt]; decide +kernel, csr_instruction_confined
    (System.reset_isReset 4 3 sampleParams sscratchProgram).1 37 ?_ ?_ ?_ (.inr ?_)⟩
  · rw [coreAt_busAt]
    decide +kernel
  · rw [coreAt_busAt, coreInAt_busAt]
    decide +kernel
  · rw [coreAt_busAt]
    decide +kernel
  · rw [coreAt_busAt]
    decide +kernel

end KianRiscV
