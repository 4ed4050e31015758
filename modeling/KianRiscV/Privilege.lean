/-
# Privilege modes over whole runs

The privilege mode is written by traps, by `MRET` and by `SRET`.  Between the
`DECODE` of an instruction and the next `FETCH` it can therefore only rise without
a trap through a return; the control unit does not look at the mode in which a return
is executed, so that every return is in a mode which allows it is the exact condition.
-/
import KianRiscV.CoreStep
import KianRiscV.Cpu

namespace KianRiscV

/-! ## Instructions and traps in a run of the core -/

/-- The instruction decoded in cycle `i` is executed until the next `FETCH`, which
is entered in cycle `j`. -/
def Executes (c : ℕ → Core) (i j : ℕ) : Prop :=
  (c i).state = .decode ∧ i < j ∧ (c j).state = .fetch ∧
    ∀ k, i < k → k < j → (c k).state ≠ .fetch

/-- Some cycle from `i` on and before `j` raises `exception_event`. -/
def TakesTrap (c : ℕ → Core) (i j : ℕ) : Prop :=
  ∃ k, i ≤ k ∧ k < j ∧ (c k).ctl.exceptionEvent = true

/-- Some cycle from `i` on and before `j` takes an interrupt or traps the instruction as an
illegal one. -/
def TakesIllegalTrap (c : ℕ → Core) (i j : ℕ) : Prop :=
  ∃ k, i ≤ k ∧ k < j ∧ (c k).ctl.exceptionEvent = true ∧
    ((c k).state = .irq0 ∨ (c k).state = .illegal0)

/-- A return that its mode does not allow: `MRET` outside of machine mode, `SRET` in user mode. -/
def Core.ReturnForbidden (c : Core) : Prop :=
  (isMret c.instr = true ∧ isMachine c.csr.privilegeMode = false) ∨
    (isSret c.instr = true ∧ isUser c.csr.privilegeMode = true)

/-- Every instruction traps or does not raise the privilege mode, and a return that its mode does
not allow traps as an illegal instruction. -/
structure NoEscalation (c : ℕ → Core) : Prop where
  mode : ∀ i j, Executes c i j →
    TakesTrap c i j ∨ (c j).csr.privilegeMode ≤ (c i).csr.privilegeMode
  returns : ∀ i j, Executes c i j → (c i).ReturnForbidden → TakesIllegalTrap c i j

/-- A return decoded with no interrupt pending is one that the current mode allows. -/
def Core.ReturnsAllowed (c : Core) (i : CoreIn) : Prop :=
  c.state = .decode → (c.fsmIn i).irq.pending = false → ¬ c.ReturnForbidden

/-! ## The states after `DECODE` -/

/-- The states `DECODE` leads to with no memory request in between. -/
def afterDecode : FsmState → Bool
  | .decode | .memAddr | .execRtype | .execItype | .lui | .auipc | .jal | .jalr | .branch | .aluWb
  | .execMul | .mulWb | .execSystem | .systemWb | .amoAddr | .amoScFail | .mret0 | .mret1 | .sret0
  | .sret1 | .csrFault0 | .csrFault1 | .illegal0 | .illegal1 | .ecall0 | .ecall1 | .ebreak0
  | .ebreak1 | .irq0 | .irq1 => true
  | _ => false

/-- They are entered from each other, while no request is presented, or by the answer to a
fetch. -/
theorem afterDecode_stateNxt {st : FsmState} {i : FsmIn}
    (h : afterDecode (stateNxt st i) = true) :
    (afterDecode st = true ∧ presentsFetch st = false) ∨ (st = .fetch ∧ i.memReady = true) := by
  cases st
  case fetch =>
    right
    refine ⟨rfl, ?_⟩
    by_contra hr
    rw [Bool.not_eq_true] at hr
    simp only [stateNxt, accessNxt, hr] at h
    split_ifs at h <;> simp_all [afterDecode]
  all_goals
    first
    | exact .inl ⟨rfl, rfl⟩
    | exact absurd (show afterDecode .fetch = true from h) (by decide)
    | (simp only [stateNxt, accessNxt] at h
       split_ifs at h <;> exact absurd h (by decide))

theorem memValid_afterDecode {c : Core} (h : afterDecode c.state = true)
    (hp : presentsFetch c.state = false) : c.memValid = false := by
  unfold Core.memValid
  cases hst : c.state <;> rw [hst] at h hp <;>
    first | rfl | exact absurd h (by decide) | exact absurd hp (by decide)

/-- `DECODE` and the states of the two returns. -/
def aroundReturn : FsmState → Bool
  | .decode | .mret0 | .mret1 | .sret0 | .sret1 => true
  | _ => false

theorem afterDecode_of_aroundReturn {st : FsmState} (h : aroundReturn st = true) :
    afterDecode st = true := by
  cases st <;> first | rfl | exact absurd h (by decide)

namespace Cpu

variable {iw dw : ℕ} {p : Params}

/-- The memory management unit is at rest in the states after `DECODE`: they follow an
answered fetch and present no request. -/
theorem idle_afterDecode_next (s : Cpu iw dw) (i : CpuIn)
    (h : afterDecode s.core.state = true → s.mmu.state = .idle)
    (h' : afterDecode (s.next p i).core.state = true) : (s.next p i).mmu.state = .idle := by
  by_cases hst : s.mmu.stall = true
  · -- a stalled state is not one of them
    rw [show (s.next p i).core.state = s.core.state from Core.next_state_of_stall _ _ hst] at h'
    rw [Sv32.stall, h h'] at hst
    exact absurd hst (by decide)
  · rw [Bool.not_eq_true] at hst
    rw [show (s.next p i).core.state = _ from Core.next_state _ _ hst] at h'
    rcases afterDecode_stateNxt h' with ⟨ha, hp⟩ | ⟨-, hr⟩
    · have hv : s.req.valid = false := memValid_afterDecode ha hp
      simp [next, Sv32.next, Sv32.stateNxt, h ha, Sv32.translationStart,
        Sv32.translationPending, hv]
    · -- the answer reached the core, so `sv32` was in `STATE_ACCESS` and saw it too
      have hr' : s.mmu.cpuReady i.memReady = true := hr
      have hacc : s.mmu.state = .access := by
        cases hm : s.mmu.state with
        | access => rfl
        | idle => simp [Sv32.cpuReady, Sv32.answers, hm] at hr'
        | translate => simp [Sv32.stall, hm] at hst
      have hmr : i.memReady = true := by
        simp only [Sv32.cpuReady, Bool.and_eq_true] at hr'
        exact hr'.2
      simp [next, Sv32.next, Sv32.stateNxt, hacc, hmr]

theorem idle_afterDecode {s : Cpu iw dw} (hs : s.IsReset p) (inp : ℕ → CpuIn) (n : ℕ)
    (h : afterDecode (Sync.run (next p) s inp n).core.state = true) :
    (Sync.run (next p) s inp n).mmu.state = .idle := by
  revert h
  refine Sync.run_invariant
    (P := fun s : Cpu iw dw => afterDecode s.core.state = true → s.mmu.state = .idle) ?_ ?_ n
  · intro h
    rw [hs.1.1] at h
    exact absurd h (by decide)
  · intro i hi h'
    exact idle_afterDecode_next _ _ hi h'

end Cpu

/-! ## The run of the core inside the processor -/

section Run

variable {iw dw : ℕ} {p : Params} {s : Cpu iw dw} {inp : ℕ → CpuIn}

/-- The core in cycle `n` of a run of the processor. -/
def coreAt (p : Params) (s : Cpu iw dw) (inp : ℕ → CpuIn) (n : ℕ) : Core :=
  (Sync.run (Cpu.next p) s inp n).core

/-- What the core sees in cycle `n`. -/
def coreInAt (p : Params) (s : Cpu iw dw) (inp : ℕ → CpuIn) (n : ℕ) : CoreIn :=
  (Sync.run (Cpu.next p) s inp n).coreIn (inp n)

theorem coreAt_succ (n : ℕ) :
    coreAt p s inp (n + 1) = (coreAt p s inp n).next p (coreInAt p s inp n) := rfl

/-- What the memory and the interrupt lines of a system show to its processor. -/
def System.busAt (s : System iw dw) (p : Params) (inp : ℕ → SystemIn) (n : ℕ) : CpuIn :=
  (Sync.run (System.next p) s inp n).cpuIn (inp n)

/-- The processor of a system runs under what the system shows to it. -/
theorem System.run_cpu (p : Params) (s : System iw dw) (inp : ℕ → SystemIn) (n : ℕ) :
    Sync.run (Cpu.next p) s.cpu (s.busAt p inp) n = (Sync.run (System.next p) s inp n).cpu := by
  induction n with
  | zero => rfl
  | succ n ih => rw [Sync.run_succ, Sync.run_succ, ih]; rfl

theorem coreAt_busAt (p : Params) (s : System iw dw) (inp : ℕ → SystemIn) (n : ℕ) :
    coreAt p s.cpu (s.busAt p inp) n = (Sync.run (System.next p) s inp n).cpu.core :=
  congrArg Cpu.core (System.run_cpu p s inp n)

theorem coreInAt_busAt (p : Params) (s : System iw dw) (inp : ℕ → SystemIn) (n : ℕ) :
    coreInAt p s.cpu (s.busAt p inp) n
      = (Sync.run (System.next p) s inp n).coreIn (inp n) := by
  unfold coreInAt
  rw [System.run_cpu]
  rfl

theorem state_succ_afterDecode (hs : s.IsReset p) {n : ℕ}
    (h : afterDecode (coreAt p s inp n).state = true) :
    (coreAt p s inp (n + 1)).state
      = stateNxt (coreAt p s inp n).state ((coreAt p s inp n).fsmIn (coreInAt p s inp n)) := by
  rw [coreAt_succ]
  apply Core.next_state
  show (Sync.run (Cpu.next p) s inp n).mmu.stall = false
  rw [Sv32.stall, Cpu.idle_afterDecode hs inp n h]
  rfl

theorem state_succ_aroundReturn (hs : s.IsReset p) {n : ℕ}
    (h : aroundReturn (coreAt p s inp n).state = true) :
    (coreAt p s inp (n + 1)).state
      = stateNxt (coreAt p s inp n).state ((coreAt p s inp n).fsmIn (coreInAt p s inp n)) :=
  state_succ_afterDecode hs (afterDecode_of_aroundReturn h)

theorem privilegeMode_succ (n : ℕ) (h : Core.touchesCsr (coreAt p s inp n).state = false) :
    (coreAt p s inp (n + 1)).csr.privilegeMode = (coreAt p s inp n).csr.privilegeMode ∧
      (coreAt p s inp (n + 1)).csr.mstatus = (coreAt p s inp n).csr.mstatus := by
  rw [coreAt_succ]
  exact ⟨(Core.next_csr_of_quiet p h _).1, (Core.next_csr_of_quiet p h _).2.1⟩

/-- `DECODE` and the first states of the returns, where a run of non-trapping edges
can meet a return. -/
def beforeReturn : FsmState → Bool
  | .decode | .mret0 | .sret0 => true
  | _ => false

/-- Past `DECODE`, no state leads to a return before the next fetch. -/
theorem beforeReturn_stateNxt {st : FsmState} {i : FsmIn} (hf : st ≠ .fetch)
    (h : beforeReturn st = false) : beforeReturn (stateNxt st i) = false := by
  cases st
  case fetch => exact absurd rfl hf
  all_goals
    first
    | (simp [beforeReturn] at h; done)
    | (simp only [stateNxt, accessNxt]; split_ifs <;> rfl)
    | rfl

theorem beforeReturn_decodeNxt {i : FsmIn} (hm : decodeNxt i ≠ .mret0)
    (hs : decodeNxt i ≠ .sret0) : beforeReturn (decodeNxt i) = false := by
  have hd := decodeNxt_ne_decode i
  revert hm hs hd
  cases decodeNxt i <;> simp [beforeReturn]

theorem beforeReturn_succ {n : ℕ} (hf : (coreAt p s inp n).state ≠ .fetch)
    (h : beforeReturn (coreAt p s inp n).state = false) :
    beforeReturn (coreAt p s inp (n + 1)).state = false := by
  rw [coreAt_succ]
  cases hst : (coreInAt p s inp n).stall with
  | true => rw [Core.next_state_of_stall _ _ hst]; exact h
  | false => rw [Core.next_state _ _ hst]; exact beforeReturn_stateNxt hf h

/-- Without trap and past any return the privilege mode stays until the next fetch. -/
theorem privilegeMode_const {k j : ℕ} (hkj : k ≤ j)
    (hf : ∀ n, k ≤ n → n < j → (coreAt p s inp n).state ≠ .fetch)
    (ht : ∀ n, k ≤ n → n < j → (coreAt p s inp n).ctl.exceptionEvent = false)
    (hb : beforeReturn (coreAt p s inp k).state = false) :
    (coreAt p s inp j).csr.privilegeMode = (coreAt p s inp k).csr.privilegeMode := by
  have key : ∀ n, k ≤ n → n ≤ j → beforeReturn (coreAt p s inp n).state = false ∧
      (coreAt p s inp n).csr.privilegeMode = (coreAt p s inp k).csr.privilegeMode := by
    intro n hkn
    induction n, hkn using Nat.le_induction with
    | base => exact fun _ => ⟨hb, rfl⟩
    | succ n hkn ih =>
      intro hnj
      obtain ⟨hbn, hpn⟩ := ih (by omega)
      refine ⟨beforeReturn_succ (hf n hkn (by omega)) hbn, ?_⟩
      have hx := ht n hkn (by omega)
      rw [Core.ctl, moore_exceptionEvent] at hx
      rw [coreAt_succ, Core.next_privilegeMode, hx, if_neg (by simp), if_neg, if_neg, hpn]
      · intro he; rw [he] at hbn; exact absurd hbn (by decide)
      · intro he; rw [he] at hbn; exact absurd hbn (by decide)
  exact (key j hkj le_rfl).2

/-- The three cycles of a return: the mode after it is the one the first of its
states reads from `mstatus`, which `DECODE` left alone. -/
theorem privilegeMode_return (hs : s.IsReset p) {i : ℕ} {ret0 ret1 : FsmState}
    {modeOf : Word → BitVec 2} (hd : (coreAt p s inp i).state = .decode)
    (h0 : decodeNxt ((coreAt p s inp i).fsmIn (coreInAt p s inp i)) = ret0)
    (hr : (ret0 = .mret0 ∧ ret1 = .mret1 ∧ modeOf = mppOf) ∨
      (ret0 = .sret0 ∧ ret1 = .sret1 ∧ modeOf = sppOf)) :
    (coreAt p s inp (i + 1)).state = ret0 ∧ (coreAt p s inp (i + 2)).state = ret1 ∧
      (coreAt p s inp (i + 3)).state = .fetch ∧
      (coreAt p s inp (i + 2)).csr.privilegeMode
        = modeOf (coreAt p s inp i).csr.mstatus := by
  have h1 : (coreAt p s inp (i + 1)).state = ret0 := by
    rw [state_succ_aroundReturn hs (by rw [hd]; rfl), hd]
    exact h0
  have hm : (coreAt p s inp (i + 1)).csr.mstatus = (coreAt p s inp i).csr.mstatus :=
    (privilegeMode_succ i (by rw [hd]; rfl)).2
  have h2 : (coreAt p s inp (i + 2)).state = ret1 := by
    rcases hr with ⟨rfl, rfl, -⟩ | ⟨rfl, rfl, -⟩
    all_goals
      rw [state_succ_aroundReturn hs (by rw [h1]; rfl), h1]
      rfl
  have h3 : (coreAt p s inp (i + 3)).state = .fetch := by
    rcases hr with ⟨-, rfl, -⟩ | ⟨-, rfl, -⟩
    all_goals
      rw [state_succ_aroundReturn hs (by rw [h2]; rfl), h2]
      rfl
  refine ⟨h1, h2, h3, ?_⟩
  rw [coreAt_succ, Core.next_privilegeMode, h1, ← hm]
  rcases hr with ⟨rfl, -, rfl⟩ | ⟨rfl, -, rfl⟩ <;> rfl

/-- The three cycles of a return are an instruction that raises no exception. -/
theorem executes_return {i : ℕ} {ret0 ret1 : FsmState}
    (hd : (coreAt p s inp i).state = .decode) (h1 : (coreAt p s inp (i + 1)).state = ret0)
    (h2 : (coreAt p s inp (i + 2)).state = ret1)
    (h3 : (coreAt p s inp (i + 3)).state = .fetch)
    (hr : (ret0 = .mret0 ∧ ret1 = .mret1) ∨ (ret0 = .sret0 ∧ ret1 = .sret1)) :
    Executes (coreAt p s inp) i (i + 3) ∧
      ∀ k, i ≤ k → k < i + 3 → (coreAt p s inp k).ctl.exceptionEvent = false := by
  have hq : raisesException ret0 = false ∧ raisesException ret1 = false ∧
      ret0 ≠ .fetch ∧ ret1 ≠ .fetch := by
    rcases hr with ⟨rfl, rfl⟩ | ⟨rfl, rfl⟩ <;> decide
  refine ⟨⟨hd, by omega, h3, fun k hik hk => ?_⟩, fun k hik hk => ?_⟩
  · obtain rfl | rfl : k = i + 1 ∨ k = i + 2 := by omega
    · rw [h1]; exact hq.2.2.1
    · rw [h2]; exact hq.2.2.2
  · rw [Core.ctl, moore_exceptionEvent]
    obtain rfl | rfl | rfl : k = i ∨ k = i + 1 ∨ k = i + 2 := by omega
    · rw [hd]; rfl
    · rw [h1]; exact hq.1
    · rw [h2]; exact hq.2.1

/-- A return that is decoded with no interrupt pending does not trap. -/
theorem NoEscalation.not_forbidden (hs : s.IsReset p) (h : NoEscalation (coreAt p s inp)) {i : ℕ}
    {ret0 ret1 : FsmState} {modeOf : Word → BitVec 2}
    (hd : (coreAt p s inp i).state = .decode)
    (h0 : decodeNxt ((coreAt p s inp i).fsmIn (coreInAt p s inp i)) = ret0)
    (hr : (ret0 = .mret0 ∧ ret1 = .mret1 ∧ modeOf = mppOf) ∨
      (ret0 = .sret0 ∧ ret1 = .sret1 ∧ modeOf = sppOf)) :
    ¬ (coreAt p s inp i).ReturnForbidden := by
  intro hforbidden
  obtain ⟨h1, h2, h3, -⟩ := privilegeMode_return hs hd h0 hr
  obtain ⟨hex, hquiet⟩ := executes_return hd h1 h2 h3
    (hr.imp (fun h => ⟨h.1, h.2.1⟩) fun h => ⟨h.1, h.2.1⟩)
  obtain ⟨k, hik, hk, hx, -⟩ := h.returns i (i + 3) hex hforbidden
  exact absurd ((hquiet k hik hk).symm.trans hx) (by decide)

/-- A return that is allowed does not go up. -/
theorem returns_le {priv : BitVec 2} (mstatus : Word) :
    (isMachine priv = true → mppOf mstatus ≤ priv) ∧ (isUser priv = false → sppOf mstatus ≤ priv) := by
  have hmpp : ∀ x priv : BitVec 2, isMachine priv = true → x ≤ priv := by decide
  have hspp : ∀ (x : Bool) (priv : BitVec 2), isUser priv = false →
      (BitVec.ofBool x).setWidth 2 ≤ priv := by decide
  exact ⟨hmpp _ _, hspp _ _⟩

/-- An instruction that takes no trap, with a return that is allowed if it is one. -/
theorem privilegeMode_le_of_not_takesTrap (hs : s.IsReset p) {i j : ℕ}
    (hex : Executes (coreAt p s inp) i j) (ht : ¬ TakesTrap (coreAt p s inp) i j)
    (hret : (coreAt p s inp i).ReturnsAllowed (coreInAt p s inp i)) :
    (coreAt p s inp j).csr.privilegeMode ≤ (coreAt p s inp i).csr.privilegeMode := by
  obtain ⟨hd, hij, hj, hf⟩ := hex
  have hx : ∀ n, i ≤ n → n < j → (coreAt p s inp n).ctl.exceptionEvent = false := by
    intro n hin hnj
    by_contra hne
    exact ht ⟨n, hin, hnj, by simpa using hne⟩
  have hp1 : (coreAt p s inp (i + 1)).csr.privilegeMode
      = (coreAt p s inp i).csr.privilegeMode := (privilegeMode_succ i (by rw [hd]; rfl)).1
  have hs1 : (coreAt p s inp (i + 1)).state
      = decodeNxt ((coreAt p s inp i).fsmIn (coreInAt p s inp i)) := by
    rw [state_succ_aroundReturn hs (by rw [hd]; rfl), hd]
    rfl
  -- the mode after a return is reached two cycles after `DECODE` and then stays
  have ret : ∀ (ret0 ret1 : FsmState) (modeOf : Word → BitVec 2),
      decodeNxt ((coreAt p s inp i).fsmIn (coreInAt p s inp i)) = ret0 →
      ((ret0 = .mret0 ∧ ret1 = .mret1 ∧ modeOf = mppOf) ∨
        (ret0 = .sret0 ∧ ret1 = .sret1 ∧ modeOf = sppOf)) →
      (coreAt p s inp j).csr.privilegeMode = modeOf (coreAt p s inp i).csr.mstatus := by
    intro ret0 ret1 modeOf h0 hr
    obtain ⟨h1, h2, -, hpr⟩ := privilegeMode_return hs hd h0 hr
    have hne : ret0 ≠ .fetch ∧ ret1 ≠ .fetch ∧ beforeReturn ret1 = false := by
      rcases hr with ⟨rfl, rfl, -⟩ | ⟨rfl, rfl, -⟩ <;> decide
    have hj2 : i + 2 ≤ j := by
      by_contra hlt
      obtain rfl : j = i + 1 := by omega
      exact hne.1 (h1.symm.trans hj)
    rw [privilegeMode_const hj2 (fun n hn => hf n (by omega)) (fun n hn => hx n (by omega))
      (by rw [h2]; exact hne.2.2), hpr]
  by_cases hm0 : decodeNxt ((coreAt p s inp i).fsmIn (coreInAt p s inp i)) = .mret0
  · obtain ⟨hp, hm⟩ := (decodeNxt_eq_mret0_iff _).1 hm0
    rw [ret .mret0 .mret1 mppOf hm0 (.inl ⟨rfl, rfl, rfl⟩)]
    refine (returns_le _).1 (Bool.of_not_eq_false fun hno => hret hd hp (.inl ⟨hm, hno⟩))
  by_cases hs0 : decodeNxt ((coreAt p s inp i).fsmIn (coreInAt p s inp i)) = .sret0
  · obtain ⟨hp, hm⟩ := (decodeNxt_eq_sret0_iff _).1 hs0
    rw [ret .sret0 .sret1 sppOf hs0 (.inr ⟨rfl, rfl, rfl⟩)]
    refine (returns_le _).2 (Bool.eq_false_of_not_eq_true fun hno => hret hd hp (.inr ⟨hm, hno⟩))
  · have hb : beforeReturn (coreAt p s inp (i + 1)).state = false := by
      rw [hs1]
      exact beforeReturn_decodeNxt hm0 hs0
    rw [privilegeMode_const (by omega) (fun n hn => hf n (by omega))
      (fun n hn => hx n (by omega)) hb, hp1]
    exact BitVec.le_refl _

/-- A return that is not allowed is decoded with an interrupt pending, which is taken. -/
theorem takesIllegalTrap_of_pending (hs : s.IsReset p) {i j : ℕ} (hex : Executes (coreAt p s inp) i j)
    (hp : ((coreAt p s inp i).fsmIn (coreInAt p s inp i)).irq.pending = true) :
    TakesIllegalTrap (coreAt p s inp) i j := by
  obtain ⟨hd, hij, hj, -⟩ := hex
  have h1 : (coreAt p s inp (i + 1)).state = .irq0 := by
    rw [state_succ_aroundReturn hs (by rw [hd]; rfl), hd]
    simp only [stateNxt, decodeNxt, hp, if_true]
  have hne : j ≠ i + 1 := by
    rintro rfl
    exact absurd (h1.symm.trans hj) (by decide)
  refine ⟨i + 1, by omega, by omega, ?_, .inl h1⟩
  rw [Core.ctl, moore_exceptionEvent, h1]
  rfl

/-- **Privilege and returns.**  In a run from reset, no instruction raises the privilege mode
without a trap and the returns that a mode does not allow are illegal instructions, exactly when
every return that is decoded with no interrupt pending is allowed: `MRET` in machine mode, `SRET`
outside of user mode. -/
theorem no_escalation_iff (hs : s.IsReset p) :
    NoEscalation (coreAt p s inp) ↔
      ∀ k, (coreAt p s inp k).ReturnsAllowed (coreInAt p s inp k) := by
  constructor
  · intro h k hd hp hforbidden
    rcases id hforbidden with ⟨hm, -⟩ | ⟨hm, -⟩
    · exact h.not_forbidden hs hd ((decodeNxt_eq_mret0_iff _).2 ⟨hp, hm⟩) (.inl ⟨rfl, rfl, rfl⟩)
        hforbidden
    · exact h.not_forbidden hs hd ((decodeNxt_eq_sret0_iff _).2 ⟨hp, hm⟩) (.inr ⟨rfl, rfl, rfl⟩)
        hforbidden
  · intro h
    refine ⟨fun i j hex => ?_, fun i j hex hforbidden => ?_⟩
    · by_cases ht : TakesTrap (coreAt p s inp) i j
      · exact .inl ht
      · exact .inr (privilegeMode_le_of_not_takesTrap hs hex ht (h i))
    · refine takesIllegalTrap_of_pending hs hex (Bool.of_not_eq_false fun hp => ?_)
      exact h i hex.1 hp hforbidden

end Run

/-! ## A return above the current mode -/

/-- `lui x1, 2; addi x1, x1, -0x700; csrrw x0, mstatus, x1; csrrwi x0, sepc, 20; sret;
mret`: the `sret` drops to supervisor mode and leaves `MPP` at machine mode. -/
def returnProgram : BitVec 32 → Word := fun a =>
  [0x000020b7#32, 0x90008093#32, 0x30009073#32, 0x141a5073#32, 0x10200073#32,
    0x30200073#32].getD a.toNat 0#32

/-- The `mret` of `returnProgram` is decoded in supervisor mode. -/
theorem no_escalation_iff_returnProgram :
    (System.reset 4 3 sampleParams returnProgram).cpu.IsReset sampleParams ∧
      ¬ NoEscalation (coreAt sampleParams (System.reset 4 3 sampleParams returnProgram).cpu
        ((System.reset 4 3 sampleParams returnProgram).busAt sampleParams promptInput)) := by
  have hreset := (System.reset_isReset 4 3 sampleParams returnProgram).1
  refine ⟨hreset, fun h => (no_escalation_iff hreset).1 h 37 ?_ ?_ (.inl ⟨?_, ?_⟩)⟩
  · rw [coreAt_busAt]
    decide +kernel
  · rw [coreAt_busAt, coreInAt_busAt]
    decide +kernel
  · rw [coreAt_busAt]
    decide +kernel
  · rw [coreAt_busAt]
    decide +kernel

/-- The `mret` of `returnProgram` is executed in supervisor mode, takes no trap and
ends in machine mode. -/
theorem mret_escalates_from_supervisor :
    ¬ ∀ (p : Params) (s : System 4 3) (inp : ℕ → SystemIn), s.IsReset p →
      NoEscalation fun n => (Sync.run (System.next p) s inp n).cpu.core := by
  intro h
  have hreset := System.reset_isReset 4 3 sampleParams returnProgram
  have hex : Executes (fun n => (Sync.run (System.next sampleParams)
      (System.reset 4 3 sampleParams returnProgram) promptInput n).cpu.core) 37 40 := by
    refine ⟨by decide +kernel, by omega, by decide +kernel, ?_⟩
    intro k hik hk
    obtain rfl | rfl : k = 38 ∨ k = 39 := by omega
    all_goals decide +kernel
  rcases (h _ _ promptInput hreset).mode 37 40 hex with ⟨k, hik, hk, hx⟩ | hle
  · revert hx
    obtain rfl | rfl | rfl : k = 37 ∨ k = 38 ∨ k = 39 := by omega
    all_goals decide +kernel
  · revert hle
    decide +kernel

end KianRiscV
