/-
# Trap vectors

`calculate_exception_pc` joins the base of `xtvec` and the cause with a bitwise or, and it does so
in vectored mode for every cause.  The address it yields is compared with the rule of the
privileged architecture, for every value of `xtvec` and every cause, and then for every trap that a
run of the processor takes.
-/
import KianRiscV.PreciseTraps
import KianRiscV.TrapReturn

namespace KianRiscV

/-! ## Joining with a bitwise or -/

/-- The bits that two words have in common are what a bitwise or loses. -/
theorem add_eq_or_add_and {w : ℕ} (x y : BitVec w) : x + y = (x ||| y) + (x &&& y) := by
  have hx : x = (x &&& ~~~y) + (x &&& y) := by
    rw [BitVec.add_eq_or_of_and_eq_zero]
    · ext k hk
      cases hxk : x[k] <;> cases hyk : y[k] <;> simp [hxk, hyk]
    · ext k hk
      cases hxk : x[k] <;> cases hyk : y[k] <;> simp [hxk, hyk]
  have hor : x ||| y = (x &&& ~~~y) + y := by
    rw [BitVec.add_eq_or_of_and_eq_zero]
    · ext k hk
      cases hxk : x[k] <;> cases hyk : y[k] <;> simp [hxk, hyk]
    · ext k hk
      cases hyk : y[k] <;> simp [hyk]
  calc x + y = (x &&& ~~~y) + (x &&& y) + y := by rw [← hx]
    _ = (x &&& ~~~y) + y + (x &&& y) := by rw [BitVec.add_assoc, BitVec.add_comm _ y,
      ← BitVec.add_assoc]
    _ = (x ||| y) + (x &&& y) := by rw [← hor]

theorem or_eq_add_iff {w : ℕ} (x y : BitVec w) : x ||| y = x + y ↔ x &&& y = 0#w := by
  rw [add_eq_or_add_and]
  constructor
  · intro h
    exact (BitVec.add_right_eq_self).1 h.symm
  · intro h
    rw [h, BitVec.add_zero]

theorem or_eq_left_iff {w : ℕ} (x y : BitVec w) : x ||| y = x ↔ y &&& ~~~x = 0#w := by
  constructor
  · intro h
    rw [← h]
    ext k hk
    cases hxk : x[k] <;> cases hyk : y[k] <;> simp [hxk, hyk]
  · intro h
    ext k hk
    have hk' := congrArg (fun z => z[k]) h
    cases hxk : x[k] <;> cases hyk : y[k] <;> simp [hxk, hyk] at hk' ⊢

/-! ## The rule -/

/-- `{xtvec[31:2], 2'b0}`. -/
def tvecBase (tvec : Word) : Word := tvec &&& ~~~3#32

/-- `xtvec[1:0]`. -/
def tvecMode (tvec : Word) : BitVec 2 := tvec.extractLsb' 0 2

/-- Four times the code of a cause, which is the cause without its interrupt flag. -/
def vectorOffset (cause : Word) : Word := 4#32 * (cause &&& 0x7FFFFFFF#32)

/-- The privileged architecture on where a trap through `tvec` continues: at the base in direct
mode and for an exception, at the entry of the code for an interrupt in vectored mode. -/
structure VectorRule (tvec cause pc : Word) : Prop where
  base : tvecMode tvec = 0b00#2 ∨ cause.getLsbD 31 = false → pc = tvecBase tvec
  vectored : tvecMode tvec = 0b01#2 → cause.getLsbD 31 = true →
    pc = tvecBase tvec + vectorOffset cause

/-- In vectored mode, the offset of an interrupt has no bit in common with `tvec`, and that of an
exception only such bits. -/
def VectorFits (tvec cause : Word) : Prop :=
  tvecMode tvec = 0b01#2 →
    if cause.getLsbD 31 then tvec &&& vectorOffset cause = 0#32
    else vectorOffset cause &&& ~~~tvec = 0#32

instance (tvec cause : Word) : Decidable (VectorFits tvec cause) :=
  inferInstanceAs (Decidable (_ → _))

theorem vectorOffset_eq (cause : Word) : vectorOffset cause = cause <<< 2 := by
  have hmask : cause.toNat &&& (0x7FFFFFFF#32).toNat = cause.toNat % 2 ^ 31 :=
    Nat.and_two_pow_sub_one_eq_mod cause.toNat 31
  apply BitVec.eq_of_toNat_eq
  rw [vectorOffset, BitVec.toNat_mul, BitVec.toNat_and, BitVec.toNat_shiftLeft, Nat.shiftLeft_eq,
    hmask, BitVec.toNat_ofNat]
  omega

/-- The offset has its two low bits clear, so that the mode bits do not matter. -/
theorem getLsbD_vectorOffset {cause : Word} {k : ℕ} (hk : k < 2) :
    (vectorOffset cause).getLsbD k = false := by
  rw [vectorOffset_eq, BitVec.getLsbD_shiftLeft]
  simp [hk]

theorem getLsbD_tvecBase (tvec : Word) (k : ℕ) :
    (tvecBase tvec).getLsbD k = (tvec.getLsbD k && decide (2 ≤ k)) := by
  rcases Nat.lt_or_ge k 32 with hk | hk
  · have hmask : ∀ k < 32, (~~~3#32 : Word).getLsbD k = decide (2 ≤ k) := by decide
    rw [tvecBase, BitVec.getLsbD_and, hmask k hk]
  · rw [BitVec.getLsbD_of_ge _ _ hk, BitVec.getLsbD_of_ge _ _ hk, Bool.false_and]

theorem tvecBase_and_vectorOffset (tvec cause : Word) :
    tvecBase tvec &&& vectorOffset cause = tvec &&& vectorOffset cause := by
  apply BitVec.eq_of_getLsbD_eq
  intro k _
  rw [BitVec.getLsbD_and, BitVec.getLsbD_and, getLsbD_tvecBase]
  rcases Nat.lt_or_ge k 2 with h | h
  · simp [getLsbD_vectorOffset h]
  · simp [h]

theorem vectorOffset_and_not_tvecBase (tvec cause : Word) :
    vectorOffset cause &&& ~~~tvecBase tvec = vectorOffset cause &&& ~~~tvec := by
  apply BitVec.eq_of_getLsbD_eq
  intro k _
  rw [BitVec.getLsbD_and, BitVec.getLsbD_and, BitVec.getLsbD_not, BitVec.getLsbD_not,
    getLsbD_tvecBase]
  rcases Nat.lt_or_ge k 2 with h | h
  · simp [getLsbD_vectorOffset h]
  · simp [h]

theorem calculateExceptionPc_eq (tvec cause : Word) :
    CsrUnit.calculateExceptionPc tvec cause =
      if tvecMode tvec = 0b01#2 then tvecBase tvec ||| vectorOffset cause else tvecBase tvec := by
  rw [vectorOffset_eq]
  rfl

/-- `calculate_exception_pc` keeps the rule exactly where the offset fits. -/
theorem vectorRule_calculateExceptionPc_iff (tvec cause : Word) :
    VectorRule tvec cause (CsrUnit.calculateExceptionPc tvec cause) ↔ VectorFits tvec cause := by
  rw [calculateExceptionPc_eq, VectorFits]
  by_cases hm : tvecMode tvec = 0b01#2
  · simp only [hm, if_true, true_imp_iff]
    cases hc : cause.getLsbD 31 with
    | true =>
      rw [if_pos rfl, ← tvecBase_and_vectorOffset, ← or_eq_add_iff]
      constructor
      · intro h
        exact h.vectored hm hc
      · intro h
        refine ⟨fun hno => ?_, fun _ _ => h⟩
        rw [hm, hc] at hno
        exact absurd hno (by decide)
    | false =>
      rw [if_neg Bool.false_ne_true, ← vectorOffset_and_not_tvecBase, ← or_eq_left_iff]
      constructor
      · intro h
        exact h.base (.inr hc)
      · intro h
        refine ⟨fun _ => h, fun _ hno => ?_⟩
        exact absurd (hc.symm.trans hno) (by decide)
  · simp only [hm, if_false, false_imp_iff, iff_true]
    exact ⟨fun _ => rfl, fun h => absurd h hm⟩

/-! ## Traps in a run -/

/-- The vector of the level that the trap goes to. -/
theorem CsrUnit.exceptionNextPc_of_event {c : CsrUnit} {i : CsrIn} (clk : ℕ)
    (he : i.exceptionEvent = true) :
    (c.next clk i).exceptionNextPc =
      calculateExceptionPc (if c.delegated i.cause then c.stvec else c.mtvec) i.cause := by
  rw [next_exceptionNextPc_eq]
  simp only [eventNext, he, if_true, takeException]
  have hd : CsrUnit.delegated { c with exceptionSelect := false } i.cause = c.delegated i.cause :=
    rfl
  rw [hd]
  cases c.delegated i.cause <;> rfl

section Run

variable {iw dw : ℕ} {p : Params} {s : Cpu iw dw} {inp : ℕ → CpuIn} {n : ℕ}

/-- The register that cycle `n` delivers its trap through. -/
def tvecAt (p : Params) (s : Cpu iw dw) (inp : ℕ → CpuIn) (n : ℕ) : Word :=
  let csr := (coreAt p s inp n).csr
  if csr.delegated (csrInAt p s inp n).cause then csr.stvec else csr.mtvec

/-- Cycle `n` is the last one in which the state machine takes a trap; a walk that is still under
way may hold it in that state. -/
structure TakesTrapAt (p : Params) (s : Cpu iw dw) (inp : ℕ → CpuIn) (n : ℕ) : Prop where
  raised : raisesException (coreAt p s inp n).state = true
  last : raisesException (coreAt p s inp (n + 1)).state = false

/-- The walk is over in the last cycle, and no new one begins. -/
theorem TakesTrapAt.not_stalled (h : TakesTrapAt p s inp n) :
    (coreInAt p s inp n).stall = false ∧ (coreInAt p s inp (n + 1)).stall = false := by
  have hstall : (coreInAt p s inp n).stall = false := by
    by_contra hno
    have hsame : (coreAt p s inp (n + 1)).state = (coreAt p s inp n).state :=
      Core.next_state_of_stall p _ (Bool.eq_true_of_not_eq_false hno)
    exact absurd ((congrArg raisesException hsame).symm.trans h.last) (by rw [h.raised]; decide)
  refine ⟨hstall, ?_⟩
  have hv : (Sync.run (Cpu.next p) s inp n).req.valid = false := by
    have hr := h.raised
    show Core.memValid (coreAt p s inp n) = false
    unfold Core.memValid
    cases hc : (coreAt p s inp n).state <;> rw [hc] at hr <;>
      first | rfl | exact absurd hr (by decide)
  show Sv32.stall (Cpu.next p (Sync.run (Cpu.next p) s inp n) (inp n)).mmu = false
  have hwalk : (Sync.run (Cpu.next p) s inp n).mmu.stall = false := hstall
  cases hm : (Sync.run (Cpu.next p) s inp n).mmu.state with
  | translate => simp [Sv32.stall, hm] at hwalk
  | idle =>
    simp [Cpu.next, Sv32.next, Sv32.stateNxt, Sv32.stall, hm, Sv32.translationStart,
      Sv32.translationPending, hv]
  | access =>
    simp only [Cpu.next, Sv32.next, Sv32.stateNxt, Sv32.stall, hm]
    split <;> rfl

/-- The next state writes `pc` and goes back to `FETCH`. -/
theorem TakesTrapAt.handler (h : TakesTrapAt p s inp n) :
    (coreAt p s inp (n + 2)).state = .fetch ∧
      (coreAt p s inp (n + 2)).pc =
        CsrUnit.calculateExceptionPc (tvecAt p s inp n) (csrInAt p s inp n).cause := by
  obtain ⟨hstall, hstall'⟩ := h.not_stalled
  have hev : (csrInAt p s inp n).exceptionEvent = true :=
    (moore_exceptionEvent _ _).trans h.raised
  have henters : System.entersHandler (coreAt p s inp (n + 1)).state = true := by
    rw [coreAt_succ, Core.next_state _ _ hstall]
    exact System.stateNxt_of_raises h.raised _
  have hsel : (coreAt p s inp (n + 1)).csr.exceptionSelect = true := by
    have hselect := CsrUnit.next_exceptionSelect p.systemClk (coreAt p s inp n).csr
      (csrInAt p s inp n)
    rw [hev] at hselect
    exact hselect
  have hnext : (coreAt p s inp (n + 1)).csr.exceptionNextPc =
      CsrUnit.calculateExceptionPc (tvecAt p s inp n) (csrInAt p s inp n).cause :=
    CsrUnit.exceptionNextPc_of_event _ hev
  have hw : (coreAt p s inp (n + 1)).pcWrite (coreInAt p s inp (n + 1)) = true := by
    have hupd : pcUpdate (coreAt p s inp (n + 1)).state (coreInAt p s inp (n + 1)).memReady
        = true := by
      cases hc : (coreAt p s inp (n + 1)).state <;> rw [hc] at henters <;>
        first | rfl | exact absurd henters (by decide)
    rw [Core.pcWrite, hupd, Bool.or_true]
  constructor
  · rw [coreAt_succ, Core.next_state _ _ hstall']
    exact System.stateNxt_of_entersHandler henters _
  · rw [coreAt_succ, ← hnext]
    simp [Core.next, hw, hsel]

/-- **Trap vectors.**  For every value of `xtvec` and every cause `calculate_exception_pc` keeps the
rule if and only if the offset fits, and every trap of a run continues with a fetch from an address
for which the same holds. -/
theorem trap_vectors_iff :
    (∀ tvec cause, VectorRule tvec cause (CsrUnit.calculateExceptionPc tvec cause) ↔
        VectorFits tvec cause) ∧
      ∀ n, TakesTrapAt p s inp n →
        (coreAt p s inp (n + 2)).state = .fetch ∧
          (VectorRule (tvecAt p s inp n) (csrInAt p s inp n).cause (coreAt p s inp (n + 2)).pc ↔
            VectorFits (tvecAt p s inp n) (csrInAt p s inp n).cause) := by
  refine ⟨vectorRule_calculateExceptionPc_iff, fun n h => ?_⟩
  obtain ⟨hfetch, hpc⟩ := h.handler
  rw [hpc]
  exact ⟨hfetch, vectorRule_calculateExceptionPc_iff _ _⟩

end Run

/-- `ecall` with `mtvec` in direct mode. -/
theorem trap_vectors_iff_ecall :
    TakesTrapAt sampleParams ecallCpu ecallBus 11 ∧
      VectorRule 16#32 11#32 (coreAt sampleParams ecallCpu ecallBus 13).pc := by
  have htrap : TakesTrapAt sampleParams ecallCpu ecallBus 11 :=
    ⟨by decide +kernel, by decide +kernel⟩
  have htvec : tvecAt sampleParams ecallCpu ecallBus 11 = 16#32 := by decide +kernel
  have hcause : (csrInAt sampleParams ecallCpu ecallBus 11).cause = 11#32 := by decide +kernel
  have hrule := (trap_vectors_iff.2 11 htrap).2
  rw [htvec, hcause] at hrule
  exact ⟨htrap, hrule.2 (by decide)⟩

/-- `csrrwi x0, mtvec, 17; ecall`. -/
def vectoredProgram : BitVec 32 → Word := fun a =>
  [0x3058d073#32, 0x00000073#32].getD a.toNat 0#32

def vectoredCpu : Cpu 4 3 := (System.reset 4 3 sampleParams vectoredProgram).cpu

def vectoredBus : ℕ → CpuIn :=
  (System.reset 4 3 sampleParams vectoredProgram).busAt sampleParams promptInput

/-- With `mtvec` in vectored mode, `ecall` does not continue at the base. -/
theorem vectored_ecall_leaves_base :
    TakesTrapAt sampleParams vectoredCpu vectoredBus 11 ∧
      tvecAt sampleParams vectoredCpu vectoredBus 11 = 0x11#32 ∧
      (csrInAt sampleParams vectoredCpu vectoredBus 11).cause = 11#32 ∧
      (coreAt sampleParams vectoredCpu vectoredBus 13).pc = 0x3C#32 ∧
      ¬ VectorRule 0x11#32 11#32 (coreAt sampleParams vectoredCpu vectoredBus 13).pc := by
  have hpc : (coreAt sampleParams vectoredCpu vectoredBus 13).pc = 0x3C#32 := by decide +kernel
  refine ⟨⟨by decide +kernel, by decide +kernel⟩, by decide +kernel, by decide +kernel, hpc,
    fun h => ?_⟩
  have hbase := h.base (.inr (by decide))
  rw [hpc] at hbase
  exact absurd hbase (by decide)

end KianRiscV
