/-
# One clock edge of the control and status registers

What an edge of `csr_unit` does to the registers the rest of the processor reads:
a trap, a return or a CSR write changes them as its branch says, and every other
edge leaves them alone.
-/
import KianRiscV.CsrUnit

namespace KianRiscV

/-- The privilege mode `SRET` returns to: `SPP`, zero extended. -/
def sppOf (mstatus : Word) : BitVec 2 := (BitVec.ofBool (bitOf mstatus 8)).setWidth 2

namespace CsrUnit

/-- An edge without trap, return or CSR write. -/
def IsQuiet (i : CsrIn) : Prop :=
  i.exceptionEvent = false ∧ i.mret = false ∧ i.sret = false ∧ i.we = false

theorem eventNext_of_quiet {i : CsrIn} (h : IsQuiet i) (c : CsrUnit) :
    c.eventNext i = { c with exceptionSelect := false } := by
  obtain ⟨he, hm, hs, hw⟩ := h
  simp [eventNext, he, hm, hs, hw]

theorem not_fault_of_writes {c : CsrUnit} {i : CsrIn} (h : c.writes i = true) :
    i.we = true ∧ c.csrAccessFault i.csrAddr i.we = false := by
  unfold writes at h
  simp only [Bool.and_eq_true, Bool.not_eq_true'] at h
  exact ⟨h.1.2, h.2⟩

/-- The CSR instruction of an edge writes nothing with a trap or a return. -/
theorem not_event_of_writes {c : CsrUnit} {i : CsrIn} (h : c.writes i = true) :
    i.exceptionEvent = false ∧ i.mret = false ∧ i.sret = false := by
  unfold writes at h
  simp only [Bool.and_eq_true, Bool.not_eq_true'] at h
  exact ⟨h.1.1.1.1, h.1.1.1.2, h.1.1.2⟩

/-- An edge that writes a register. -/
theorem eventNext_of_writes {c : CsrUnit} {i : CsrIn} (h : c.writes i = true) :
    c.eventNext i = { c with exceptionSelect := false }.write i.csrAddr (c.wdataNxt i) := by
  obtain ⟨he, hm, hs⟩ := not_event_of_writes h
  obtain ⟨hwe, hf⟩ := not_fault_of_writes h
  have hfault : ∀ b, { c with exceptionSelect := b }.csrAccessFault = c.csrAccessFault :=
    fun _ => rfl
  unfold eventNext
  dsimp only
  rw [he, hm, hs, hfault, hf, hwe]
  rfl

/-- An edge with a CSR instruction that writes nothing. -/
theorem eventNext_of_not_writes {c : CsrUnit} {i : CsrIn} (he : i.exceptionEvent = false)
    (hm : i.mret = false) (hs : i.sret = false) (h : c.writes i = false) :
    c.eventNext i = { c with exceptionSelect := false } := by
  have hwe : (i.we && !c.csrAccessFault i.csrAddr i.we) = false := by
    simpa [writes, he, hm, hs] using h
  have hfault : ∀ b, { c with exceptionSelect := b }.csrAccessFault = c.csrAccessFault :=
    fun _ => rfl
  unfold eventNext
  dsimp only
  rw [he, hm, hs, hfault, hwe]
  rfl

/-! ## Registers that the counters and `mip` do not touch -/

section

variable (clk : ℕ) (c : CsrUnit) (i : CsrIn)

theorem next_privilegeMode_eq : (c.next clk i).privilegeMode = (c.eventNext i).privilegeMode := by
  unfold next; split <;> rfl

theorem next_mstatus_eq : (c.next clk i).mstatus = (c.eventNext i).mstatus := by
  unfold next; split <;> rfl

theorem next_satp_eq : (c.next clk i).satp = (c.eventNext i).satp := by
  unfold next; split <;> rfl

theorem next_mepc_eq : (c.next clk i).mepc = (c.eventNext i).mepc := by
  unfold next; split <;> rfl

theorem next_sepc_eq : (c.next clk i).sepc = (c.eventNext i).sepc := by
  unfold next; split <;> rfl

theorem next_exceptionSelect_eq :
    (c.next clk i).exceptionSelect = (c.eventNext i).exceptionSelect := by
  unfold next; split <;> rfl

theorem next_exceptionNextPc_eq :
    (c.next clk i).exceptionNextPc = (c.eventNext i).exceptionNextPc := by
  unfold next; split <;> rfl

end

/-! ## Branches of the event logic -/

theorem write_privilegeMode (c : CsrUnit) (a : BitVec 12) (w : Word) :
    (c.write a w).privilegeMode = c.privilegeMode := by
  simp only [write, apply_ite CsrUnit.privilegeMode, ite_self]

theorem write_exceptionSelect (c : CsrUnit) (a : BitVec 12) (w : Word) :
    (c.write a w).exceptionSelect = c.exceptionSelect := by
  simp only [write, apply_ite CsrUnit.exceptionSelect, ite_self]

/-- A CSR write reaches `satp` only through its own address. -/
theorem write_satp (c : CsrUnit) (a : BitVec 12) (w : Word) :
    (c.write a w).satp = if a = 0x180#12 then w else c.satp := by
  simp only [write, apply_ite CsrUnit.satp, ite_self]
  by_cases ha : a = 0x180#12
  · subst ha
    simp
  · simp only [if_neg ha, ite_self]

theorem takeException_privilegeMode (c : CsrUnit) (cause pc badaddr : Word) :
    (c.takeException cause pc badaddr).privilegeMode
      = if c.delegated cause then 1#2 else 3#2 := by
  unfold takeException; split <;> rfl

/-- The privilege mode after an edge. -/
theorem next_privilegeMode (clk : ℕ) (c : CsrUnit) (i : CsrIn) :
    (c.next clk i).privilegeMode =
      if i.exceptionEvent then (if c.delegated i.cause then 1#2 else 3#2)
      else if i.mret then mppOf c.mstatus
      else if i.sret then sppOf c.mstatus
      else c.privilegeMode := by
  rw [next_privilegeMode_eq]
  unfold eventNext
  dsimp only
  split
  · rw [takeException_privilegeMode]; rfl
  · split
    · rfl
    · split
      · rfl
      · split
        · rw [write_privilegeMode]
        · rfl

/-- A trap or a return, and nothing else, redirects `pc` in the next cycle. -/
theorem next_exceptionSelect (clk : ℕ) (c : CsrUnit) (i : CsrIn) :
    (c.next clk i).exceptionSelect = (i.exceptionEvent || i.mret || i.sret) := by
  rw [next_exceptionSelect_eq]
  unfold eventNext
  dsimp only
  cases i.exceptionEvent with
  | true =>
    simp only [if_true, Bool.true_or]
    unfold takeException
    split <;> rfl
  | false =>
    cases i.mret with
    | true => rfl
    | false =>
      cases i.sret with
      | true => rfl
      | false =>
        simp only [Bool.false_eq_true, if_false]
        split
        · rw [write_exceptionSelect]
          rfl
        · rfl

/-- `satp` changes only by a CSR instruction that addresses it. -/
theorem next_satp (clk : ℕ) (c : CsrUnit) (i : CsrIn) :
    (c.next clk i).satp
      = if c.writes i ∧ i.csrAddr = 0x180#12 then c.wdataNxt i else c.satp := by
  rw [next_satp_eq]
  cases hw : c.writes i with
  | true =>
    rw [eventNext_of_writes hw, write_satp]
    simp
  | false =>
    simp only [Bool.false_eq_true, false_and, if_false]
    cases he : i.exceptionEvent with
    | true =>
      simp only [eventNext, he, if_true]
      unfold takeException
      split <;> rfl
    | false =>
      cases hm : i.mret with
      | true => simp [eventNext, he, hm, takeMret]
      | false =>
        cases hs : i.sret with
        | true => simp [eventNext, he, hm, hs, takeSret]
        | false => rw [eventNext_of_not_writes he hm hs hw]

/-- An edge without `tlb_flush` keeps the mode of `satp`. -/
theorem satpMode_next {c : CsrUnit} {i : CsrIn} (h : c.tlbFlush i = false) (clk : ℕ) :
    satpModeOf (c.next clk i).satp = satpModeOf c.satp := by
  rw [next_satp]
  split
  · rename_i hw
    rw [tlbFlush, hw.1, hw.2] at h
    have hmode : satpModeOf c.satp = satpModeOf (c.wdataNxt i) := by simpa using h
    exact hmode.symm
  · rfl

/-- A quiet edge keeps the registers that govern translation. -/
theorem next_of_quiet {i : CsrIn} (h : IsQuiet i) (clk : ℕ) (c : CsrUnit) :
    (c.next clk i).privilegeMode = c.privilegeMode ∧ (c.next clk i).mstatus = c.mstatus ∧
      (c.next clk i).satp = c.satp ∧ (c.next clk i).exceptionSelect = false := by
  rw [next_privilegeMode_eq, next_mstatus_eq, next_satp_eq, next_exceptionSelect_eq,
    eventNext_of_quiet h]
  exact ⟨rfl, rfl, rfl, rfl⟩

end CsrUnit

end KianRiscV
