/-
# Returns undo traps

A trap pushes the interrupt enable and the privilege mode onto the stack of its level in `mstatus`
and saves `pc`; a return pops them.  The four expressions of `csr_unit` are first described bit by
bit.  From these descriptions follows what a trap and the matching return do together, with any
number of quiet cycles between them, and what a machine trap and its return inside a supervisor
trap do to the outer one.

The results are about any sequence of inputs of `csr_unit`; for runs of the processor the state
machine adds that the return moves `pc`.
-/
import KianRiscV.CsrConfinement

namespace KianRiscV

namespace CsrUnit

/-! ## The stacks bit by bit -/

section Stacks

variable (c : CsrUnit) {k : ℕ}

theorem bitOf_mStackMask (hk : k < 32) : bitOf mStackMask k = decide (k ∈ [3, 7, 11, 12]) := by
  revert k
  decide

theorem bitOf_sStackMask (hk : k < 32) : bitOf sStackMask k = decide (k ∈ [1, 5, 8]) := by
  revert k
  decide

/-- `SET_MSTATUS_MPP`, outside of `MPP`. -/
theorem bitOf_setMpp (m : BitVec 2) (hk : k ∉ [11, 12]) :
    bitOf (m.setWidth 32 <<< 11) k = false := by
  simp only [List.mem_cons, List.not_mem_nil, or_false, not_or] at hk
  unfold bitOf
  rw [BitVec.getLsbD_shiftLeft, BitVec.getLsbD_setWidth]
  by_cases h : k < 11
  · simp [h]
  · rw [BitVec.getLsbD_of_ge m _ (by omega)]
    simp

/-- A machine trap: `MPIE` takes `MIE`, `MIE` is cleared, and only the stack changes. -/
theorem takeException_machine {cause : Word} (hd : c.delegated cause = false) (pc badaddr : Word)
    (hk : k < 32) (hmpp : k ∉ [11, 12]) :
    bitOf (c.takeException cause pc badaddr).mstatus k =
      if k = 7 then bitOf c.mstatus 3 else if k = 3 then false else bitOf c.mstatus k := by
  have hp := bitOf_setMpp c.privilegeMode hmpp
  simp only [List.mem_cons, List.not_mem_nil, or_false, not_or] at hmpp
  simp only [takeException, hd, Bool.false_eq_true, if_false, bitOf_or, bitOf_and, bitOf_not _ hk,
    bitOf_setBit _ hk, bitOf_mStackMask hk, hp, List.mem_cons, List.not_mem_nil, hmpp, or_false]
  by_cases h7 : k = 7
  · simp [h7]
  · by_cases h3 : k = 3
    · simp [h3]
    · simp [h7, h3]

/-- A delegated trap does the same on the supervisor stack, with `SPP` for the mode. -/
theorem takeException_supervisor {cause : Word} (hd : c.delegated cause = true)
    (pc badaddr : Word) (hk : k < 32) :
    bitOf (c.takeException cause pc badaddr).mstatus k =
      if k = 5 then bitOf c.mstatus 1 else if k = 1 then false
      else if k = 8 then isSupervisor c.privilegeMode else bitOf c.mstatus k := by
  simp only [takeException, hd, if_true, bitOf_or, bitOf_and, bitOf_not _ hk, bitOf_setBit _ hk,
    bitOf_sStackMask hk, List.mem_cons, List.not_mem_nil, or_false]
  by_cases h5 : k = 5
  · simp [h5]
  · by_cases h1 : k = 1
    · simp [h1]
    · by_cases h8 : k = 8
      · simp [h8]
      · simp [h5, h1, h8]

/-- `MRET`, outside of `MPP` and `MPRV`. -/
theorem takeMret_bit (hk : k < 32) (hmpp : k ∉ [11, 12, 17]) :
    bitOf c.takeMret.mstatus k =
      if k = 3 then bitOf c.mstatus 7 else if k = 7 then true else bitOf c.mstatus k := by
  simp only [List.mem_cons, List.not_mem_nil, or_false, not_or] at hmpp
  simp only [takeMret, bitOf_or, bitOf_and, bitOf_not _ hk, bitOf_setBit _ hk, bitOf_mStackMask hk,
    List.mem_cons, List.not_mem_nil, hmpp, or_false]
  by_cases h3 : k = 3
  · simp [h3]
  · by_cases h7 : k = 7
    · simp [h7]
    · simp [h3, h7]

/-- `SRET`, outside of `MPRV`. -/
theorem takeSret_bit (hk : k < 32) (hmprv : k ≠ 17) :
    bitOf c.takeSret.mstatus k =
      if k = 1 then bitOf c.mstatus 5 else if k = 5 then true
      else if k = 8 then false else bitOf c.mstatus k := by
  simp only [takeSret, bitOf_or, bitOf_and, bitOf_not _ hk, bitOf_setBit _ hk, bitOf_sStackMask hk,
    List.mem_cons, List.not_mem_nil, hmprv, or_false]
  by_cases h1 : k = 1
  · simp [h1]
  · by_cases h5 : k = 5
    · simp [h5]
    · by_cases h8 : k = 8
      · simp [h8]
      · simp [h1, h5, h8]

end Stacks

/-! ## The edges of traps and returns -/

section Edges

variable (clk : ℕ) {c : CsrUnit} {i : CsrIn}

theorem next_of_machineTrap (he : i.exceptionEvent = true) (hd : c.delegated i.cause = false) :
    (c.next clk i).mstatus = (c.takeException i.cause i.pc i.badaddr).mstatus ∧
      (c.next clk i).privilegeMode = 3#2 ∧ (c.next clk i).mepc = i.pc ∧
      (c.next clk i).sepc = c.sepc := by
  have hd' : { c with exceptionSelect := false }.delegated i.cause = false := hd
  refine ⟨by rw [next_mstatus, he, if_pos rfl], by rw [next_privilegeMode, he, hd]; rfl, ?_, ?_⟩
  · rw [next_mepc_eq]
    simp [eventNext, he, takeException, hd']
  · rw [next_sepc_eq]
    simp [eventNext, he, takeException, hd']

theorem next_of_supervisorTrap (he : i.exceptionEvent = true) (hd : c.delegated i.cause = true) :
    (c.next clk i).mstatus = (c.takeException i.cause i.pc i.badaddr).mstatus ∧
      (c.next clk i).privilegeMode = 1#2 ∧ (c.next clk i).sepc = i.pc := by
  have hd' : { c with exceptionSelect := false }.delegated i.cause = true := hd
  refine ⟨by rw [next_mstatus, he, if_pos rfl], by rw [next_privilegeMode, he, hd]; rfl, ?_⟩
  rw [next_sepc_eq]
  simp [eventNext, he, takeException, hd']

theorem next_of_mret (he : i.exceptionEvent = false) (hm : i.mret = true) :
    (c.next clk i).mstatus = c.takeMret.mstatus ∧
      (c.next clk i).privilegeMode = mppOf c.mstatus ∧ (c.next clk i).sepc = c.sepc ∧
      (c.next clk i).exceptionNextPc = c.mepc := by
  refine ⟨by rw [next_mstatus, he, hm]; rfl, by rw [next_privilegeMode, he, hm]; rfl, ?_, ?_⟩
  · rw [next_sepc_eq]
    simp [eventNext, he, hm, takeMret]
  · rw [next_exceptionNextPc_eq]
    simp [eventNext, he, hm, takeMret]

theorem next_of_sret (he : i.exceptionEvent = false) (hm : i.mret = false) (hs : i.sret = true) :
    (c.next clk i).mstatus = c.takeSret.mstatus ∧
      (c.next clk i).privilegeMode = sppOf c.mstatus ∧
      (c.next clk i).exceptionNextPc = c.sepc := by
  refine ⟨by rw [next_mstatus, he, hm, hs]; rfl, by rw [next_privilegeMode, he, hm, hs]; rfl, ?_⟩
  rw [next_exceptionNextPc_eq]
  simp [eventNext, he, hm, hs, takeSret]

end Edges

/-- The registers that a return reads are the same. -/
structure SameStacks (c c' : CsrUnit) : Prop where
  privilegeMode : c'.privilegeMode = c.privilegeMode
  mstatus : c'.mstatus = c.mstatus
  mepc : c'.mepc = c.mepc
  sepc : c'.sepc = c.sepc

theorem SameStacks.trans {c c' c'' : CsrUnit} (h : c.SameStacks c') (h' : c'.SameStacks c'') :
    c.SameStacks c'' :=
  ⟨h'.privilegeMode.trans h.privilegeMode, h'.mstatus.trans h.mstatus, h'.mepc.trans h.mepc,
    h'.sepc.trans h.sepc⟩

theorem sameStacks_next {i : CsrIn} (h : IsQuiet i) (clk : ℕ) (c : CsrUnit) :
    c.SameStacks (c.next clk i) := by
  obtain ⟨hp, hm, -⟩ := next_of_quiet h clk c
  refine ⟨hp, hm, ?_, ?_⟩
  · rw [next_mepc_eq, eventNext_of_quiet h]
  · rw [next_sepc_eq, eventNext_of_quiet h]

/-! ## A trap and its return -/

/-- Privilege mode and `mstatus` are back, but for some bits. -/
structure Undone (c c' : CsrUnit) (exempt : List ℕ) : Prop where
  privilegeMode : c'.privilegeMode = c.privilegeMode
  bits : ∀ k, k < 32 → k ∉ exempt → bitOf c'.mstatus k = bitOf c.mstatus k

/-- After `MRET` has undone a machine trap: `MIE` is among the bits that are back, `MPIE` is set,
`MPP` is user mode. -/
structure MachineUndone (c c' : CsrUnit) : Prop extends Undone c c' [7, 11, 12, 17] where
  mpie : bitOf c'.mstatus 7 = true
  mpp : mppOf c'.mstatus = 0#2

/-- After `SRET` has undone a supervisor trap: `SIE` is among the bits that are back, `SPIE` is
set, `SPP` is user mode. -/
structure SupervisorUndone (c c' : CsrUnit) (inner : List ℕ) : Prop
    extends Undone c c' ([5, 8, 17] ++ inner) where
  spie : bitOf c'.mstatus 5 = true
  spp : bitOf c'.mstatus 8 = false

section Runs

variable {clk : ℕ} {C : ℕ → CsrUnit} {I : ℕ → CsrIn}

/-- Cycle `n` takes a trap to machine mode, or to supervisor mode. -/
def MachineTrap (C : ℕ → CsrUnit) (I : ℕ → CsrIn) (n : ℕ) : Prop :=
  (I n).exceptionEvent = true ∧ (C n).delegated (I n).cause = false

def SupervisorTrap (C : ℕ → CsrUnit) (I : ℕ → CsrIn) (n : ℕ) : Prop :=
  (I n).exceptionEvent = true ∧ (C n).delegated (I n).cause = true

/-- Cycle `m` returns with `MRET`, or with `SRET`. -/
def Mret (I : ℕ → CsrIn) (m : ℕ) : Prop := (I m).exceptionEvent = false ∧ (I m).mret = true

def Sret (I : ℕ → CsrIn) (m : ℕ) : Prop :=
  (I m).exceptionEvent = false ∧ (I m).mret = false ∧ (I m).sret = true

/-- No trap, return or CSR instruction strictly between two cycles. -/
def QuietBetween (I : ℕ → CsrIn) (n m : ℕ) : Prop := ∀ k, n < k → k < m → IsQuiet (I k)

theorem sameStacks_of_quiet (hC : ∀ n, C (n + 1) = (C n).next clk (I n)) {n m : ℕ} (hnm : n < m)
    (hq : QuietBetween I n m) : (C (n + 1)).SameStacks (C m) := by
  obtain ⟨d, rfl⟩ := Nat.exists_eq_add_of_lt hnm
  clear hnm
  induction d with
  | zero => exact ⟨rfl, rfl, rfl, rfl⟩
  | succ d ih =>
    have hprev := ih fun k hk hk' => hq k hk (by omega)
    have hedge := sameStacks_next (hq (n + d + 1) (by omega) (by omega)) clk (C (n + d + 1))
    rw [← hC] at hedge
    exact hprev.trans hedge

/-- A machine trap and its return. -/
theorem machineUndone (hC : ∀ n, C (n + 1) = (C n).next clk (I n)) {n m : ℕ} (hnm : n < m)
    (ht : MachineTrap C I n) (hq : QuietBetween I n m) (hr : Mret I m) :
    (C n).MachineUndone (C (m + 1)) ∧ (C (m + 1)).exceptionNextPc = (I n).pc ∧
      (C (m + 1)).sepc = (C n).sepc := by
  obtain ⟨hst, -, hmepc, hsepc⟩ := next_of_machineTrap clk ht.1 ht.2
  obtain ⟨hst', hpr', hsepc', hpc'⟩ := next_of_mret clk (c := C m) hr.1 hr.2
  have hsame := sameStacks_of_quiet hC hnm hq
  rw [← hC] at hst hmepc hsepc hst' hpr' hsepc' hpc'
  have hmpp : mppOf (C m).mstatus = (C n).privilegeMode := by
    rw [hsame.mstatus, hst, takeException_mpp, ht.2]
    rfl
  refine ⟨⟨⟨hpr'.trans hmpp, fun k hk hex => ?_⟩, ?_, ?_⟩, ?_, ?_⟩
  · have h7 : k ≠ 7 := fun h => hex (by simp [h])
    have hex' : k ∉ [11, 12, 17] := fun h => hex (by simp at h ⊢; omega)
    have hex'' : k ∉ [11, 12] := fun h => hex' (by simp at h ⊢; omega)
    rw [hst', takeMret_bit _ hk hex', hsame.mstatus, hst]
    by_cases h3 : k = 3
    · rw [if_pos h3, takeException_machine _ ht.2 _ _ (by decide) (by decide), if_pos rfl, h3]
    · rw [if_neg h3, if_neg h7, takeException_machine _ ht.2 _ _ hk hex'', if_neg h7, if_neg h3]
  · rw [hst', takeMret_bit _ (by decide) (by decide)]
    rfl
  · rw [hst', takeMret_mpp]
  · rw [hpc', hsame.mepc, hmepc]
  · rw [hsepc', hsame.sepc, hsepc]

/-- A supervisor trap and its return.  What happens in between may change the bits `inner`, which
are not those of the supervisor stack. -/
theorem supervisorUndone (hC : ∀ n, C (n + 1) = (C n).next clk (I n)) {n m : ℕ} {inner : List ℕ}
    (ht : SupervisorTrap C I n) (hin : 1 ∉ inner ∧ 5 ∉ inner ∧ 8 ∉ inner)
    (hbits : ∀ k, k < 32 → k ∉ inner → bitOf (C m).mstatus k = bitOf (C (n + 1)).mstatus k)
    (hsepc : (C m).sepc = (C (n + 1)).sepc) (hr : Sret I m) :
    (C n).SupervisorUndone (C (m + 1)) inner ∧ (C (m + 1)).exceptionNextPc = (I n).pc := by
  obtain ⟨hst, -, hpc⟩ := next_of_supervisorTrap clk ht.1 ht.2
  obtain ⟨hst', hpr', hpc'⟩ := next_of_sret clk (c := C m) hr.1 hr.2.1 hr.2.2
  rw [← hC] at hst hpc hst' hpr' hpc'
  -- `SPP` holds the mode of the trap, and nothing in between has changed it
  have hspp : bitOf (C m).mstatus 8 = isSupervisor (C n).privilegeMode := by
    rw [hbits 8 (by decide) hin.2.2, hst, takeException_supervisor _ ht.2 _ _ (by decide)]
    rfl
  have hmode : isUser (C n).privilegeMode = true ∨ isSupervisor (C n).privilegeMode = true := by
    have hd := ht.2
    unfold delegated at hd
    simp only [Bool.and_eq_true, Bool.or_eq_true] at hd
    exact hd.1
  refine ⟨⟨⟨?_, fun k hk hex => ?_⟩, ?_, ?_⟩, ?_⟩
  · rw [hpr', sppOf, hspp]
    revert hmode
    generalize (C n).privilegeMode = q
    revert q
    decide
  · have hex' : k ≠ 5 ∧ k ≠ 8 ∧ k ≠ 17 := by
      refine ⟨?_, ?_, ?_⟩ <;> rintro rfl <;> exact hex (by simp)
    have hkin : k ∉ inner := fun h => hex (List.mem_append_right _ h)
    rw [hst', takeSret_bit _ hk hex'.2.2]
    -- `SIE` comes back through `SPIE`; every other bit of the stack is excepted
    by_cases h1 : k = 1
    · rw [if_pos h1, hbits 5 (by decide) hin.2.1, hst,
        takeException_supervisor _ ht.2 _ _ (by decide), if_pos rfl, h1]
    · rw [if_neg h1, if_neg hex'.1, if_neg hex'.2.1, hbits k hk hkin, hst,
        takeException_supervisor _ ht.2 _ _ hk, if_neg hex'.1, if_neg h1, if_neg hex'.2.1]
  · rw [hst', takeSret_bit _ (by decide) (by decide)]
    rfl
  · rw [hst', takeSret_bit _ (by decide) (by decide)]
    rfl
  · rw [hpc', hsepc, hpc]

/-- Returns undo traps: a machine trap, a supervisor trap, and a supervisor trap with a machine
trap inside.  `pcAfter m` is the `pc` that the return of cycle `m` sets. -/
structure ReturnsUndoTraps (C : ℕ → CsrUnit) (I : ℕ → CsrIn) (pcAfter : ℕ → Word) : Prop where
  machine : ∀ n m, n < m → MachineTrap C I n → QuietBetween I n m → Mret I m →
    (C n).MachineUndone (C (m + 1)) ∧ pcAfter m = (I n).pc
  supervisor : ∀ n m, n < m → SupervisorTrap C I n → QuietBetween I n m → Sret I m →
    (C n).SupervisorUndone (C (m + 1)) [] ∧ pcAfter m = (I n).pc
  nested : ∀ n n' m' m, n < n' → n' < m' → m' < m → SupervisorTrap C I n →
    QuietBetween I n n' → MachineTrap C I n' → QuietBetween I n' m' → Mret I m' →
    QuietBetween I m' m → Sret I m →
    ((C n').MachineUndone (C (m' + 1)) ∧ pcAfter m' = (I n').pc) ∧
      (C n).SupervisorUndone (C (m + 1)) [7, 11, 12, 17] ∧ pcAfter m = (I n).pc ∧
      bitOf (C (m + 1)).mstatus 7 = true ∧ mppOf (C (m + 1)).mstatus = 0#2

/-- `csr_unit` under any inputs, from any state. -/
theorem returnsUndoTraps (hC : ∀ n, C (n + 1) = (C n).next clk (I n)) :
    ReturnsUndoTraps C I fun m => (C (m + 1)).exceptionNextPc where
  machine n m hnm ht hq hr := by
    obtain ⟨hu, hpc, -⟩ := machineUndone hC hnm ht hq hr
    exact ⟨hu, hpc⟩
  supervisor n m hnm ht hq hr := by
    have hsame := sameStacks_of_quiet hC hnm hq
    exact supervisorUndone hC ht (by simp) (fun k _ _ => by rw [hsame.mstatus]) hsame.sepc hr
  nested n n' m' m hn hm' hm ht hq ht' hq' hr' hq'' hr := by
    have hsame := sameStacks_of_quiet hC hn hq
    have hsame' := sameStacks_of_quiet hC hm hq''
    obtain ⟨hu, hpc, hsepc⟩ := machineUndone hC hm' ht' hq' hr'
    obtain ⟨hst, -, -⟩ := next_of_sret clk (c := C m) hr.1 hr.2.1 hr.2.2
    rw [← hC] at hst
    have hbits : ∀ k, k < 32 → k ∉ [7, 11, 12, 17] →
        bitOf (C m).mstatus k = bitOf (C (n + 1)).mstatus k := by
      intro k hk hex
      rw [hsame'.mstatus, hu.bits k hk hex, hsame.mstatus]
    have hsepc' : (C m).sepc = (C (n + 1)).sepc := by
      rw [hsame'.sepc, hsepc, hsame.sepc]
    obtain ⟨hs, hpc'⟩ := supervisorUndone hC ht (by decide) hbits hsepc' hr
    refine ⟨⟨hu, hpc⟩, hs, hpc', ?_, ?_⟩
    · rw [hst, takeSret_bit _ (by decide) (by decide), hsame'.mstatus]
      exact hu.mpie
    · rw [hst, takeSret_mpp, hsame'.mstatus]
      exact hu.mpp

end Runs

end CsrUnit

/-! ## Runs of the processor -/

section Run

variable {iw dw : ℕ} {p : Params} {s : Cpu iw dw} {inp : ℕ → CpuIn}

/-- The second state of a return moves `pc`. -/
theorem pc_after_return (hs : s.IsReset p) {m : ℕ}
    (hr : CsrUnit.Mret (csrInAt p s inp) m ∨ CsrUnit.Sret (csrInAt p s inp) m) :
    (coreAt p s inp (m + 2)).pc = (coreAt p s inp (m + 1)).csr.exceptionNextPc := by
  have hev : ((csrInAt p s inp m).exceptionEvent || (csrInAt p s inp m).mret ||
      (csrInAt p s inp m).sret) = true := by
    rcases hr with ⟨-, h⟩ | ⟨-, -, h⟩ <;> simp [h]
  have hsel : (coreAt p s inp (m + 1)).csr.exceptionSelect = true :=
    (CsrUnit.next_exceptionSelect _ _ _).trans hev
  have hupd : ∀ b, pcUpdate (coreAt p s inp (m + 1)).state b = true := by
    intro b
    rcases hr with ⟨-, h⟩ | ⟨-, -, h⟩
    · have hst : (coreAt p s inp m).state = .mret0 := by
        simpa using (moore_mret _ _).symm.trans h
      rw [state_succ_aroundReturn hs (by rw [hst]; rfl), hst]
      rfl
    · have hst : (coreAt p s inp m).state = .sret0 := by
        simpa using (moore_sret _ _).symm.trans h
      rw [state_succ_aroundReturn hs (by rw [hst]; rfl), hst]
      rfl
  have hw : (coreAt p s inp (m + 1)).pcWrite (coreInAt p s inp (m + 1)) = true := by
    rw [Core.pcWrite, hupd, Bool.or_true]
  rw [coreAt_succ]
  simp [Core.next, hw, hsel]

/-- **Trap entry and return are inverse**, in every run of the processor and for `csr_unit` under
any inputs. -/
theorem trap_return_inverse (hs : s.IsReset p) (inp : ℕ → CpuIn) :
    CsrUnit.ReturnsUndoTraps (fun n => (coreAt p s inp n).csr) (csrInAt p s inp)
        (fun m => (coreAt p s inp (m + 2)).pc) ∧
      ∀ (clk : ℕ) (C : ℕ → CsrUnit) (I : ℕ → CsrIn), (∀ n, C (n + 1) = (C n).next clk (I n)) →
        CsrUnit.ReturnsUndoTraps C I fun m => (C (m + 1)).exceptionNextPc := by
  refine ⟨?_, fun clk C I hC => CsrUnit.returnsUndoTraps hC⟩
  have h := CsrUnit.returnsUndoTraps (C := fun n => (coreAt p s inp n).csr) (I := csrInAt p s inp)
    fun _ => rfl
  refine ⟨fun n m hnm ht hq hr => ?_, fun n m hnm ht hq hr => ?_,
    fun n n' m' m hn hm' hm ht hq ht' hq' hr' hq'' hr => ?_⟩
  · rw [pc_after_return hs (.inl hr)]
    exact h.machine n m hnm ht hq hr
  · rw [pc_after_return hs (.inr hr)]
    exact h.supervisor n m hnm ht hq hr
  · rw [pc_after_return hs (.inl hr'), pc_after_return hs (.inr hr)]
    exact h.nested n n' m' m hn hm' hm ht hq ht' hq' hr' hq'' hr

end Run

/-- `csrrwi x0, mtvec, 16; ecall`, with `mret` at the trap vector. -/
def ecallProgram : BitVec 32 → Word := fun a =>
  [0x30585073#32, 0x00000073#32, 0#32, 0#32, 0x30200073#32].getD a.toNat 0#32

/-- The processor of `ecallProgram` in cycle `n`, and what it sees. -/
def ecallCpu : Cpu 4 3 := (System.reset 4 3 sampleParams ecallProgram).cpu

def ecallBus : ℕ → CpuIn := (System.reset 4 3 sampleParams ecallProgram).busAt sampleParams promptInput

/-- The `ecall` at address 4 traps in cycle 11, and the `mret` of cycle 18 goes back to it. -/
theorem trap_return_inverse_ecall :
    CsrUnit.MachineTrap (fun n => (coreAt sampleParams ecallCpu ecallBus n).csr)
        (csrInAt sampleParams ecallCpu ecallBus) 11 ∧
      (coreAt sampleParams ecallCpu ecallBus 11).csr.MachineUndone
        (coreAt sampleParams ecallCpu ecallBus 19).csr ∧
      (coreAt sampleParams ecallCpu ecallBus 20).pc = 4#32 := by
  have hreset := (System.reset_isReset 4 3 sampleParams ecallProgram).1
  have htrap : CsrUnit.MachineTrap (fun n => (coreAt sampleParams ecallCpu ecallBus n).csr)
      (csrInAt sampleParams ecallCpu ecallBus) 11 := ⟨by decide +kernel, by decide +kernel⟩
  have hquiet : CsrUnit.QuietBetween (csrInAt sampleParams ecallCpu ecallBus) 11 18 := by
    intro k hk hk'
    unfold CsrUnit.IsQuiet
    obtain rfl | rfl | rfl | rfl | rfl | rfl :
      k = 12 ∨ k = 13 ∨ k = 14 ∨ k = 15 ∨ k = 16 ∨ k = 17 := by omega
    all_goals decide +kernel
  have hpc : (csrInAt sampleParams ecallCpu ecallBus 11).pc = 4#32 := by decide +kernel
  obtain ⟨hundone, hafter⟩ := (trap_return_inverse hreset ecallBus).1.machine 11 18 (by decide)
    htrap hquiet ⟨by decide +kernel, by decide +kernel⟩
  exact ⟨htrap, hundone, hafter.trans hpc⟩

end KianRiscV
