/-
# Integer instructions refine RV32IM

The core from one `FETCH` to the next, for a word that encodes an integer instruction.
The operand latches follow the register file with one cycle delay, the ALU result and the
result of the multiplier or divider are latched on the way to the write-back state, and
`pc` is advanced with the answer to the fetch: between the two `FETCH` states the
architectural state takes exactly the step of the specification.
-/
import KianRiscV.AluSpec
import KianRiscV.CoreStep
import KianRiscV.MulDivUnits
import KianRiscV.Progress

namespace KianRiscV

open Rv32im

namespace Core

variable {p : Params} {c : Core} {i : CoreIn}

/-! ## The architectural state of the core -/

/-- The registers as `register_file` reads them, and `PC`. -/
def arch (c : Core) : Arch := ⟨readReg c.regs, c.pc⟩

theorem readReg_writeReg (regs : BitVec 5 → Word) (rd : BitVec 5) (value : Word) :
    readReg (writeReg regs true rd value)
      = fun r => if r = rd ∧ r ≠ 0#5 then value else readReg regs r := by
  funext r
  unfold readReg writeReg
  by_cases h0 : r = 0#5
  · simp [h0]
  · by_cases hr : r = rd
    · subst hr
      simp [h0]
    · simp [h0, hr]

/-- Nothing is in work: no redirection of `PC` is pending, and the multiplier and the
divider are idle. -/
structure Settled (c : Core) : Prop where
  exceptionSelect : c.csr.exceptionSelect = false
  mulState : c.mul.state = .idle
  mulReady : c.mul.ready = false
  divState : c.div.divState = .idle
  divReady : c.div.ready = false

/-! ## Outputs of the state machine -/

theorem moore_mulExtValid (st : FsmState) (instr : Word) :
    (moore st instr).mulExtValid = (st == .execMul) := by
  cases st <;> rfl

theorem mulValid_eq_false (h : c.state ≠ .execMul) : c.mulValid = false := by
  rw [mulValid, ctl, moore_mulExtValid]
  simp [h]

theorem divValid_eq_false (h : c.state ≠ .execMul) : c.divValid = false := by
  rw [divValid, ctl, moore_mulExtValid]
  simp [h]

theorem mul_next_of_not_valid (hv : c.mulValid = false) (hs : c.mul.state = .idle) :
    (c.next p i).mul.state = .idle ∧ (c.next p i).mul.ready = false := by
  simp [next, Multiplier.next, hv, hs]

theorem div_next_of_not_valid (hv : c.divValid = false) (hs : c.div.divState = .idle) :
    (c.next p i).div.divState = .idle ∧ (c.next p i).div.ready = false := by
  simp [next, Divider.next, hv, hs]

theorem Settled.next (h : c.Settled) (hc : touchesCsr c.state = false)
    (hm : c.state ≠ .execMul) : (c.next p i).Settled := by
  obtain ⟨-, -, -, he⟩ := next_csr_of_quiet p hc i
  obtain ⟨hms, hmr⟩ := mul_next_of_not_valid (p := p) (i := i) (mulValid_eq_false hm) h.mulState
  obtain ⟨hds, hdr⟩ := div_next_of_not_valid (p := p) (i := i) (divValid_eq_false hm) h.divState
  exact ⟨he, hms, hmr, hds, hdr⟩

/-! ## The fetch -/

/-- A cycle of `FETCH` without answer changes nothing. -/
theorem fetch_wait (hs : c.state = .fetch) (hset : c.Settled)
    (hal : c.pc.extractLsb' 0 2 = 0#2) (hr : i.memReady = false) (hf : i.pageFault = false) :
    (c.next p i).state = .fetch ∧ (c.next p i).arch = c.arch ∧ (c.next p i).Settled := by
  have hpw : c.pcWrite i = false := by simp [pcWrite, ctl, hs, moore, pcUpdate, hr]
  refine ⟨?_, ?_, hset.next (by rw [hs]; rfl) (by rw [hs]; decide)⟩
  · cases hst : i.stall with
    | true => rw [next_state_of_stall _ _ hst, hs]
    | false =>
      obtain ⟨ha, -, -⟩ := memAddr_of_presentsFetch (c := c) (.inr hs)
      rw [next_state _ _ hst, hs]
      simp [stateNxt, accessNxt, fsmIn, ha, hal, hr, hf]
  · unfold arch
    rw [next_regs (by rw [hs]; rfl), next_pc hpw]

/-- An instruction word on its way: `instr` and `oldPc` are those of the fetch, and `pc`
is already that of the next instruction. -/
structure InFlight (w : Word) (s : Arch) (c : Core) : Prop where
  instr : c.instr = w
  oldPc : c.oldPc = s.pc
  arch : c.arch = ⟨s.x, s.pc + 4#32⟩

/-- The cycle that answers the fetch. -/
theorem fetch_answer (hs : c.state = .fetch) (hset : c.Settled)
    (hal : c.pc.extractLsb' 0 2 = 0#2) (hr : i.memReady = true) (hf : i.pageFault = false)
    (ha : i.accessFault = false) (hst : i.stall = false) :
    (c.next p i).state = .decode ∧ (c.next p i).InFlight i.memRdata c.arch ∧
      (c.next p i).Settled := by
  obtain ⟨hpc, hold, hinstr⟩ := next_fetched p hs hr hset.exceptionSelect
  refine ⟨?_, ⟨hinstr, hold, ?_⟩, hset.next (by rw [hs]; rfl) (by rw [hs]; decide)⟩
  · obtain ⟨haddr, -, -⟩ := memAddr_of_presentsFetch (c := c) (.inr hs)
    rw [next_state _ _ hst, hs]
    simp [stateNxt, accessNxt, fsmIn, haddr, hal, hr, hf, ha]
  · unfold arch
    rw [next_regs (by rw [hs]; rfl), hpc]

/-! ## Execution -/

/-- The states of an integer instruction before its write-back. -/
def executesInteger : FsmState → Bool
  | .decode | .execRtype | .execItype | .lui | .auipc | .execMul => true
  | _ => false

/-- The instruction stays in flight, and the operand latches hold its operands, in a state that
writes neither registers nor `PC`. -/
theorem InFlight.carry {w : Word} {s : Arch} (h : c.InFlight w s) (hne : c.state ≠ .fetch)
    (hwb : writesBack c.state = false) (hpw : c.pcWrite i = false) :
    (c.next p i).InFlight w s ∧ (c.next p i).a1 = s.x (rs1Of w) ∧
      (c.next p i).a2 = s.x (rs2Of w) := by
  have hx : readReg c.regs = s.x := congrArg Arch.x h.arch
  obtain ⟨hi, ho⟩ := next_instr (p := p) (i := i) hne
  refine ⟨⟨hi.trans h.instr, ho.trans h.oldPc, ?_⟩, ?_, ?_⟩
  · rw [← h.arch]
    unfold Core.arch
    rw [next_regs hwb, next_pc hpw]
  · show readReg c.regs (rs1Of c.instr) = _
    rw [hx, h.instr]
  · show readReg c.regs (rs2Of c.instr) = _
    rw [hx, h.instr]

theorem executesInteger_quiet {st : FsmState} (h : executesInteger st = true) :
    st ≠ .fetch ∧ writesBack st = false ∧ movesPc st = false := by
  cases st <;> first | exact absurd h (by decide) | exact ⟨by decide, rfl, rfl⟩

theorem InFlight.next {w : Word} {s : Arch} (h : c.InFlight w s)
    (hst : executesInteger c.state = true) :
    (c.next p i).InFlight w s ∧ (c.next p i).a1 = s.x (rs1Of w) ∧
      (c.next p i).a2 = s.x (rs2Of w) := by
  obtain ⟨hf, hwb, hpc⟩ := executesInteger_quiet hst
  exact h.carry hf hwb (pcWrite_of_not_movesPc hpc)

/-- The write-back. -/
theorem InFlight.writeBack {w : Word} {s : Arch} (h : c.InFlight w s)
    (hst : writesBack c.state = true) :
    (c.next p i).arch
      = ⟨fun r => if r = rdOf w ∧ r ≠ 0#5 then c.result else s.x r, s.pc + 4#32⟩ := by
  have hx : readReg c.regs = s.x := congrArg Arch.x h.arch
  have hpc : c.pc = s.pc + 4#32 := congrArg Arch.pc h.arch
  have hw : c.ctl.regWrite = true := by
    rw [ctl, moore_regWrite]
    exact hst
  have hpw : c.pcWrite i = false := by
    apply pcWrite_of_not_movesPc
    cases hs : c.state <;> rw [hs] at hst <;> first | rfl | exact absurd hst (by decide)
  have hregs : (c.next p i).regs = writeReg c.regs true (rdOf w) c.result := by
    rw [← hw, ← h.instr]
    rfl
  unfold Core.arch
  rw [hregs, readReg_writeReg, hx, next_pc hpw, hpc]

/-! ## Multiplications and divisions in work -/

/-- The multiplier's and the divider's operation codes are those of the specification. -/
theorem mulDivOp_eq (w : Word) :
    (isMulCode w = true ∧ isDivCode w = false ∧
        mulDivOp (funct3Of w) = Multiplier.specOp (mulOpOf w)) ∨
      (isMulCode w = false ∧ isDivCode w = true ∧
        mulDivOp (funct3Of w) = Divider.specOp (divOpOf w)) := by
  unfold isMulCode isDivCode mulOpOf divOpOf
  generalize funct3Of w = f
  revert f
  decide

/-- `EXEC_MUL` with one of the two units at work on the operands and the other idle. -/
structure AtWork (p : Params) (w : Word) (s : Arch) (c : Core) : Prop where
  state : c.state = .execMul
  inFlight : c.InFlight w s
  a1 : c.a1 = s.x (rs1Of w)
  a2 : c.a2 = s.x (rs2Of w)
  units :
    (isMulCode w = true ∧ isDivCode w = false ∧
        c.mul.Working p.fpgaMultiplier (mulOpOf w) (s.x (rs1Of w)) (s.x (rs2Of w)) ∧
        c.div.divState = .idle ∧ c.div.ready = false) ∨
      (isMulCode w = false ∧ isDivCode w = true ∧
        c.div.Working (divOpOf w) (s.x (rs1Of w)) (s.x (rs2Of w)) ∧
        c.mul.state = .idle ∧ c.mul.ready = false)

section AtWork

variable {w : Word} {s : Arch}

theorem AtWork.operands (h : c.AtWork p w s) :
    c.srcA = s.x (rs1Of w) ∧ c.srcB = s.x (rs2Of w) ∧ c.mulValid = isMulCode w ∧
      c.divValid = isDivCode w := by
  refine ⟨?_, ?_, ?_, ?_⟩
  · rw [← h.a1]
    simp [srcA, ctl, h.state, moore]
  · rw [← h.a2]
    simp [srcB, ctl, h.state, moore]
  · simp [mulValid, ctl, h.state, moore, h.inFlight.instr]
  · simp [divValid, ctl, h.state, moore, h.inFlight.instr]

theorem AtWork.next_units (h : c.AtWork p w s) :
    (c.next p i).mul = c.mul.next p.fpgaMultiplier (s.x (rs1Of w)) (s.x (rs2Of w)) (mulOpOf w)
        (isMulCode w) ∧
      (c.next p i).div = c.div.next (s.x (rs1Of w)) (s.x (rs2Of w)) (divOpOf w)
        (isDivCode w) := by
  obtain ⟨ha, hb, hm, hd⟩ := h.operands
  show c.mul.next _ c.srcA c.srcB (mulOpOf c.instr) c.mulValid = _ ∧
    c.div.next c.srcA c.srcB (divOpOf c.instr) c.divValid = _
  rw [ha, hb, hm, hd, h.inFlight.instr]
  exact ⟨rfl, rfl⟩

/-- A cycle of `EXEC_MUL` in which neither unit is ready. -/
theorem AtWork.next (h : c.AtWork p w s) (hm : c.mul.ready = false) (hd : c.div.ready = false)
    (hst : i.stall = false) :
    (c.next p i).AtWork p w s ∧
      (c.next p i).mul.rank + (c.next p i).div.rank < c.mul.rank + c.div.rank := by
  obtain ⟨hfl, ha1, ha2⟩ := h.inFlight.next (p := p) (i := i) (by rw [h.state]; rfl)
  obtain ⟨hmul, hdiv⟩ := h.next_units (i := i)
  have hstate : (c.next p i).state = .execMul := by
    rw [next_state _ _ hst, h.state]
    simp [stateNxt, fsmIn, hm, hd]
  -- one unit works and its rank drops; the other one rests, and its rank stays
  rcases h.units with ⟨hmc, hdc, hwork, hds, hdr⟩ | ⟨hmc, hdc, hwork, hms, hmr⟩
  · obtain ⟨hwork', hrank⟩ := hwork.next hm
    have hdiv' : (c.next p i).div = { c.div with ready := false } := by
      rw [hdiv, hdc]
      simp [Divider.next, hds]
    rw [hmc] at hmul
    refine ⟨⟨hstate, hfl, ha1, ha2, .inl ⟨hmc, hdc, by rw [hmul]; exact hwork', ?_, ?_⟩⟩, ?_⟩
    · rw [hdiv']
      exact hds
    · rw [hdiv']
    · have hr : (c.next p i).div.rank = c.div.rank := by
        rw [hdiv']
        simp [Divider.rank, hds, hdr]
      rw [hr, hmul]
      omega
  · obtain ⟨hwork', hrank⟩ := hwork.next hd
    have hmul' : (c.next p i).mul = { c.mul with ready := false } := by
      rw [hmul, hmc]
      simp [Multiplier.next, hms]
    rw [hdc] at hdiv
    refine ⟨⟨hstate, hfl, ha1, ha2, .inr ⟨hmc, hdc, by rw [hdiv]; exact hwork', ?_, ?_⟩⟩, ?_⟩
    · rw [hmul']
      exact hms
    · rw [hmul']
    · have hr : (c.next p i).mul.rank = c.mul.rank := by
        rw [hmul']
        simp [Multiplier.rank, hms]
      rw [hr, hdiv]
      omega

/-- `MUL_WB` with the result latched. -/
structure AtMulWb (w : Word) (s : Arch) (c : Core) : Prop where
  state : c.state = .mulWb
  inFlight : c.InFlight w s
  result : c.result = (mulDivOp (funct3Of w)).eval (s.x (rs1Of w)) (s.x (rs2Of w))
  mulState : c.mul.state = .idle ∨ c.mul.state = .done
  divState : c.div.divState = .idle

/-- The cycle of `EXEC_MUL` in which a unit is ready. -/
theorem AtWork.next_ready (h : c.AtWork p w s) (hr : c.mul.ready = true ∨ c.div.ready = true)
    (hst : i.stall = false) : (c.next p i).AtMulWb w s := by
  obtain ⟨hfl, -, -⟩ := h.inFlight.next (p := p) (i := i) (by rw [h.state]; rfl)
  obtain ⟨-, -, hmv, -⟩ := h.operands
  obtain ⟨hmul, hdiv⟩ := h.next_units (i := i)
  have hstate : (c.next p i).state = .mulWb := by
    rw [next_state _ _ hst, h.state]
    rcases hr with hr | hr <;> simp [stateNxt, fsmIn, hr]
  have hresult : (c.next p i).result = if isMulCode w then c.mul.resQ else c.div.divOrRemRslt := by
    have hres : (c.next p i).result = (c.next p i).mulExtResultOut := by
      simp only [Core.result, ctl, hstate, moore]
    rw [hres, ← hmv]
    rfl
  -- the result comes from the unit at work; the other one has not left its idle state
  rcases h.units with ⟨hmc, hdc, hwork, hds, hdr⟩ | ⟨hmc, hdc, hwork, hms, hmr⟩
  · have hready : c.mul.ready = true := by
      rcases hr with hr | hr
      · exact hr
      · exact absurd (hdr.symm.trans hr) (by decide)
    obtain ⟨hdone, hres⟩ := hwork.of_ready hready
    refine ⟨hstate, hfl, ?_, .inr ?_, ?_⟩
    · rw [hresult, hmc, if_pos rfl, hres]
      rcases mulDivOp_eq w with ⟨-, -, hop⟩ | ⟨hno, -, -⟩
      · rw [hop]
      · exact absurd (hmc.symm.trans hno) (by decide)
    · rw [hmul, hmc]
      simp [Multiplier.next, hdone]
    · rw [hdiv, hdc]
      simp [Divider.next, hds]
  · have hready : c.div.ready = true := by
      rcases hr with hr | hr
      · exact absurd (hmr.symm.trans hr) (by decide)
      · exact hr
    obtain ⟨hidle, hres⟩ := hwork.of_ready hready
    refine ⟨hstate, hfl, ?_, .inl ?_, ?_⟩
    · rw [hresult, hmc, if_neg Bool.false_ne_true, hres]
      rcases mulDivOp_eq w with ⟨hno, -, -⟩ | ⟨-, -, hop⟩
      · exact absurd (hmc.symm.trans hno) (by decide)
      · rw [hop]
    · rw [hmul, hmc]
      simp [Multiplier.next, hms]
    · rw [hdiv]
      simp [Divider.next, hidle, hready]

/-- After the write-back both units are idle again. -/
theorem AtMulWb.next (h : c.AtMulWb w s) (hst : i.stall = false) :
    (c.next p i).state = .fetch ∧ (c.next p i).Settled ∧
      (c.next p i).arch
        = ⟨fun r => if r = rdOf w ∧ r ≠ 0#5
            then (mulDivOp (funct3Of w)).eval (s.x (rs1Of w)) (s.x (rs2Of w)) else s.x r,
          s.pc + 4#32⟩ := by
  have hne : c.state ≠ .execMul := by
    rw [h.state]
    decide
  obtain ⟨-, -, -, he⟩ := next_csr_of_quiet p (c := c) (by rw [h.state]; rfl) i
  have hm : (c.next p i).mul.state = .idle ∧ (c.next p i).mul.ready = false := by
    rcases h.mulState with hms | hms
    · exact mul_next_of_not_valid (mulValid_eq_false hne) hms
    · simp [Core.next, Multiplier.next, mulValid_eq_false hne, hms]
  obtain ⟨hds, hdr⟩ := div_next_of_not_valid (p := p) (i := i) (divValid_eq_false hne) h.divState
  refine ⟨?_, ⟨he, hm.1, hm.2, hds, hdr⟩, ?_⟩
  · rw [next_state _ _ hst, h.state]
    rfl
  · rw [h.inFlight.writeBack (by rw [h.state]; rfl), h.result]

end AtWork

end Core

/-! ## From `DECODE` to `FETCH` -/

section Run

variable {p : Params} {c : Core} {inp : ℕ → CoreIn} {w : Word} {s : Arch} {instr : Instr}

/-- The run comes to `FETCH` with the architectural step taken and nothing in work, and
on the way presents no store. -/
def Completes (instr : Instr) (s : Arch) (c : ℕ → Core) : Prop :=
  ∃ n, (∀ j, j < n → (c j).state ≠ .fetch ∧ (c j).memWstrb = 0#4) ∧ (c n).state = .fetch ∧
    (c n).arch = step instr s ∧ (c n).Settled

theorem coreRun_cons (n : ℕ) :
    coreRun p c inp (n + 1) = coreRun p (c.next p (inp 0)) (fun j => inp (j + 1)) n :=
  Sync.run_cons (Core.next p) c inp n

/-- One cycle before the rest of the run. -/
theorem Completes.cons (hf : c.state ≠ .fetch) (hw : c.memWstrb = 0#4)
    (h : Completes instr s (coreRun p (c.next p (inp 0)) fun j => inp (j + 1))) :
    Completes instr s (coreRun p c inp) := by
  obtain ⟨n, hbefore, hn⟩ := h
  refine ⟨n + 1, ?_, by rw [coreRun_cons]; exact hn⟩
  intro j hj
  rcases j with _ | j
  · exact ⟨hf, hw⟩
  · rw [coreRun_cons]
    exact hbefore j (by omega)

theorem Completes.nil (hf : c.state = .fetch) (ha : c.arch = step instr s) (hs : c.Settled) :
    Completes instr s (coreRun p c inp) :=
  ⟨0, fun j hj => absurd hj (Nat.not_lt_zero j), hf, ha, hs⟩

/-- The environment stalls only states that wait on the bus. -/
def Calm (p : Params) (c : Core) (inp : ℕ → CoreIn) : Prop :=
  ∀ j, waitsForBus (coreRun p c inp j).state = false → (inp j).stall = false

theorem Calm.tail (h : Calm p c inp) : Calm p (c.next p (inp 0)) fun j => inp (j + 1) := by
  intro j hj
  apply h (j + 1)
  rw [coreRun_cons]
  exact hj

theorem Calm.head (h : Calm p c inp) (hf : waitsForBus c.state = false) :
    (inp 0).stall = false :=
  h 0 hf

/-- `ALU_WB` with the value of the instruction in `ALUOut`. -/
theorem completes_aluWb (hst : c.state = .aluWb) (hfl : c.InFlight w s) (hset : c.Settled)
    (hcalm : Calm p c inp) (hrd : instr.rd = rdOf w) (hval : c.aluOut = instr.value s) :
    Completes instr s (coreRun p c inp) := by
  have hne : c.state ≠ .fetch := by
    rw [hst]
    decide
  refine Completes.cons hne (Core.memWstrb_eq_zero (by rw [hst]; rfl)) (Completes.nil ?_ ?_ ?_)
  · rw [Core.next_state _ _ (hcalm.head (by rw [hst]; rfl)), hst]
    rfl
  · have hres : c.result = instr.value s := by
      rw [← hval]
      simp [Core.result, Core.ctl, hst, moore]
    rw [hfl.writeBack (by rw [hst]; rfl), hres, ← hrd]
    rfl
  · exact hset.next (by rw [hst]; rfl) (by rw [hst]; decide)

/-- The states that compute with the ALU and go on to `ALU_WB`. -/
def usesAlu (st : FsmState) : Bool :=
  st == .execRtype || st == .execItype || st == .lui || st == .auipc

theorem completes_exec (hst : usesAlu c.state = true) (hfl : c.InFlight w s) (hset : c.Settled)
    (hcalm : Calm p c inp) (hrd : instr.rd = rdOf w) (hval : c.aluResult = instr.value s) :
    Completes instr s (coreRun p c inp) := by
  have hcases : c.state = .execRtype ∨ c.state = .execItype ∨ c.state = .lui ∨
      c.state = .auipc := by
    simpa [usesAlu, or_assoc] using hst
  have hne : c.state ≠ .fetch := by
    rcases hcases with h | h | h | h <;> rw [h] <;> decide
  have hnv : c.memValid = false := by
    unfold Core.memValid
    rcases hcases with h | h | h | h <;> rw [h] <;> rfl
  obtain ⟨hfl', -, -⟩ := hfl.next (p := p) (i := inp 0)
    (by rcases hcases with h | h | h | h <;> rw [h] <;> rfl)
  refine Completes.cons hne
    (Core.memWstrb_eq_zero (by rcases hcases with h | h | h | h <;> rw [h] <;> rfl))
    (completes_aluWb ?_ hfl' ?_ hcalm.tail hrd ?_)
  · rw [Core.next_state _ _
      (hcalm.head (by rcases hcases with h | h | h | h <;> rw [h] <;> rfl))]
    rcases hcases with h | h | h | h <;> rw [h] <;> rfl
  · exact hset.next (by rcases hcases with h | h | h | h <;> rw [h] <;> rfl)
      (by rcases hcases with h | h | h | h <;> rw [h] <;> decide)
  · rw [← hval]
    simp [Core.next, hnv]

/-- `EXEC_MUL` until a unit is ready, and the write-back. -/
theorem completes_mul (h : c.AtWork p w s) (hcalm : Calm p c inp) (hrd : instr.rd = rdOf w)
    (hval : instr.value s = (mulDivOp (funct3Of w)).eval (s.x (rs1Of w)) (s.x (rs2Of w))) :
    Completes instr s (coreRun p c inp) := by
  have hne : c.state ≠ .fetch := by
    rw [h.state]
    decide
  have hw : c.memWstrb = 0#4 := Core.memWstrb_eq_zero (by rw [h.state]; rfl)
  have hst := hcalm.head (by rw [h.state]; rfl)
  -- the units' rank drops with every cycle without a result
  induction hr : c.mul.rank + c.div.rank using Nat.strong_induction_on generalizing c inp with
  | _ r ih =>
    by_cases hready : c.mul.ready = true ∨ c.div.ready = true
    · have hwb := h.next_ready hready hst
      have hne' : (c.next p (inp 0)).state ≠ .fetch := by
        rw [hwb.state]
        decide
      obtain ⟨hf, hset, ha⟩ := hwb.next (p := p) (i := inp 1) (hcalm.tail.head (by rw [hwb.state]; rfl))
      refine Completes.cons hne hw (Completes.cons hne'
        (Core.memWstrb_eq_zero (by rw [hwb.state]; rfl)) (Completes.nil hf ?_ hset))
      rw [ha, ← hval, ← hrd]
      rfl
    · simp only [not_or, Bool.not_eq_true] at hready
      obtain ⟨hnext, hlt⟩ := h.next (i := inp 0) hready.1 hready.2 hst
      have hne' : (c.next p (inp 0)).state ≠ .fetch := by
        rw [hnext.state]
        decide
      exact Completes.cons hne hw (ih _ (hr ▸ hlt) hnext hcalm.tail hne'
        (Core.memWstrb_eq_zero (by rw [hnext.state]; rfl))
        (hcalm.tail.head (by rw [hnext.state]; rfl)) rfl)

/-! ## From `FETCH` to `FETCH` -/

/-- `DECODE` of an integer instruction with no interrupt pending. -/
theorem completes_decode (hd : c.state = .decode) (hfl : c.InFlight w s) (hset : c.Settled)
    (hcalm : Calm p c inp) (hirq : (c.fsmIn (inp 0)).irq.pending = false)
    (hdec : decode w = some instr) : Completes instr s (coreRun p c inp) := by
  have hne : c.state ≠ .fetch := by
    rw [hd]
    decide
  have hst := hcalm.head (by rw [hd]; rfl)
  have hw0 : c.memWstrb = 0#4 := Core.memWstrb_eq_zero (by rw [hd]; rfl)
  have hinstr : (c.fsmIn (inp 0)).instr = w := hfl.instr
  obtain ⟨hfl', ha1, ha2⟩ := hfl.next (p := p) (i := inp 0) (by rw [hd]; rfl)
  have hset' : (c.next p (inp 0)).Settled := hset.next (by rw [hd]; rfl) (by rw [hd]; decide)
  have hnext : (c.next p (inp 0)).state = decodeNxt (c.fsmIn (inp 0)) := by
    rw [Core.next_state _ _ hst, hd]
    rfl
  have hi' : (c.next p (inp 0)).instr = w := hfl'.instr
  -- the ALU operations differ in the state they go to and the operands it selects
  have alu : ∀ {st}, decodeNxt (c.fsmIn (inp 0)) = st → usesAlu st = true → instr.rd = rdOf w →
      (c.next p (inp 0)).aluResult = instr.value s → Completes instr s (coreRun p c inp) := by
    intro st hs hu hrd hval
    refine Completes.cons hne hw0 (completes_exec ?_ hfl' hset' hcalm.tail hrd hval)
    rw [hnext, hs]
    exact hu
  rcases decode_cases hdec with ⟨hop, h⟩ | ⟨hop, h⟩ | ⟨hop, h⟩ | ⟨hop, h⟩
  · rcases decodeOp_cases hop h with ⟨h25, f, rfl, hctl⟩ | ⟨h25, rfl⟩
    · have hs : decodeNxt (c.fsmIn (inp 0)) = .execRtype := by
        simp only [decodeNxt, hirq, hinstr, isLoad, isStore, isRtype, hop, h25]
        rfl
      apply alu hs rfl rfl
      have hres : (c.next p (inp 0)).aluResult
          = KianRiscV.alu (c.next p (inp 0)).a1 (c.next p (inp 0)).a2
            (aluDecoder ((c.next p (inp 0)).immExt.getLsbD 10) (c.next p (inp 0)).instr
              .arithLogic) := by
        simp only [Core.aluResult, Core.srcA, Core.srcB, Core.ctl, hnext, hs, moore]
      rw [hres, ha1, ha2, hi', hctl, alu_ctrlOf]
      rfl
    · have hs : decodeNxt (c.fsmIn (inp 0)) = .execMul := by
        simp only [decodeNxt, hirq, hinstr, isLoad, isStore, isRtype, hop, h25]
        rfl
      refine Completes.cons hne hw0 (completes_mul ⟨hnext.trans hs, hfl', ha1, ha2, ?_⟩
        hcalm.tail rfl rfl)
      rcases Core.mulDivOp_eq w with ⟨hm, hdv, -⟩ | ⟨hm, hdv, -⟩
      · refine .inl ⟨hm, hdv, ?_, hset'.divState, hset'.divReady⟩
        rw [Multiplier.Working, hset'.mulState]
        exact hset'.mulReady
      · refine .inr ⟨hm, hdv, ?_, hset'.mulState, hset'.mulReady⟩
        rw [Divider.Working, hset'.divState]
        intro hr
        exact absurd (hset'.divReady.symm.trans hr) (by decide)
  · obtain ⟨f, imm, rfl, hctl⟩ := decodeOpImm_cases hop h
    have hs : decodeNxt (c.fsmIn (inp 0)) = .execItype := by
      simp [decodeNxt, hirq, hinstr, isLoad, isStore, isRtype, isItype, hop]
    apply alu hs rfl rfl
    have hres : (c.next p (inp 0)).aluResult
        = KianRiscV.alu (c.next p (inp 0)).a1 (immExtOf (c.next p (inp 0)).instr)
          (aluDecoder ((immExtOf (c.next p (inp 0)).instr).getLsbD 10) (c.next p (inp 0)).instr
            .arithLogic) := by
      simp only [Core.aluResult, Core.srcA, Core.srcB, Core.ctl, Core.immExt, hnext, hs, moore]
    rw [hres, ha1, hi', hctl]
    rfl
  · subst h
    have hs : decodeNxt (c.fsmIn (inp 0)) = .lui := by
      simp [decodeNxt, hirq, hinstr, isLoad, isStore, isRtype, isItype, isJal, isJalr, isBranch,
        isLui, hop]
    apply alu hs rfl rfl
    have hres : (c.next p (inp 0)).aluResult = immExtOf (c.next p (inp 0)).instr := by
      simp only [Core.aluResult, Core.srcB, Core.ctl, Core.immExt, hnext, hs, moore, aluDecoder,
        KianRiscV.alu]
    rw [hres, hi', immExtOf_utype (.inl hop)]
    rfl
  · subst h
    have hs : decodeNxt (c.fsmIn (inp 0)) = .auipc := by
      simp [decodeNxt, hirq, hinstr, isLoad, isStore, isRtype, isItype, isJal, isJalr, isBranch,
        isLui, isAuipc, hop]
    apply alu hs rfl rfl
    have hres : (c.next p (inp 0)).aluResult
        = (c.next p (inp 0)).oldPc + immExtOf (c.next p (inp 0)).instr := by
      simp only [Core.aluResult, Core.srcA, Core.srcB, Core.ctl, Core.immExt, hnext, hs, moore,
        aluDecoder, KianRiscV.alu]
    rw [hres, hi', immExtOf_utype (.inr hop), hfl'.oldPc]
    rfl

/-- What the environment does from `FETCH` on: the fetch is answered with the word `w` in
cycle `k`, without a fault, `DECODE` finds no interrupt pending, and the core is stalled
only where it waits on the bus. -/
structure Delivers (p : Params) (c : Core) (inp : ℕ → CoreIn) (w : Word) (k : ℕ) : Prop where
  wait : ∀ j, j < k → (inp j).memReady = false ∧ (inp j).pageFault = false
  ready : (inp k).memReady = true
  word : (inp k).memRdata = w
  noPageFault : (inp k).pageFault = false
  noAccessFault : (inp k).accessFault = false
  noStall : (inp k).stall = false
  noInterrupt : ((coreRun p c inp (k + 1)).fsmIn (inp (k + 1))).irq.pending = false
  calm : ∀ j, k < j → waitsForBus (coreRun p c inp j).state = false → (inp j).stall = false

/-- Waiting for the answer. -/
theorem waiting (hs : c.state = .fetch) (hset : c.Settled) (hal : c.pc.extractLsb' 0 2 = 0#2)
    {k : ℕ} (hwait : ∀ j, j < k → (inp j).memReady = false ∧ (inp j).pageFault = false) :
    (coreRun p c inp k).state = .fetch ∧ (coreRun p c inp k).arch = c.arch ∧
      (coreRun p c inp k).Settled := by
  induction k with
  | zero => exact ⟨hs, rfl, hset⟩
  | succ k ih =>
    obtain ⟨hsk, hak, hsetk⟩ := ih fun j hj => hwait j (by omega)
    obtain ⟨hr, hf⟩ := hwait k (by omega)
    have hpc : (coreRun p c inp k).pc = c.pc := congrArg Arch.pc hak
    obtain ⟨h1, h2, h3⟩ := Core.fetch_wait (p := p) (i := inp k) hsk hsetk (by rw [hpc]; exact hal)
      hr hf
    exact ⟨h1, h2.trans hak, h3⟩

/-- **Integer instructions refine RV32IM.**  From `FETCH` with an aligned `pc` the core
waits for the word, leaves `FETCH`, comes back, and has then taken exactly the step of the
specification; no cycle presents a write, and the next instruction can be fetched from
there. -/
theorem integer_refines (hs : c.state = .fetch) (hset : c.Settled)
    (hal : c.pc.extractLsb' 0 2 = 0#2) (hdec : decode w = some instr) {k : ℕ}
    (henv : Delivers p c inp w k) :
    ∃ n, k < n ∧ (∀ j, j ≤ k → (coreRun p c inp j).state = .fetch) ∧
      (∀ j, k < j → j < n → (coreRun p c inp j).state ≠ .fetch) ∧
      (coreRun p c inp n).state = .fetch ∧
      (coreRun p c inp n).arch = step instr c.arch ∧
      (∀ j, j < n → (coreRun p c inp j).memWstrb = 0#4) ∧
      (coreRun p c inp n).Settled := by
  have hfetch : ∀ j, j ≤ k → (coreRun p c inp j).state = .fetch := by
    intro j hj
    exact (waiting (p := p) hs hset hal fun l hl => henv.wait l (by omega)).1
  obtain ⟨hsk, hak, hsetk⟩ := waiting (p := p) hs hset hal henv.wait
  have hpc : (coreRun p c inp k).pc = c.pc := congrArg Arch.pc hak
  obtain ⟨hd, hfl, hset'⟩ := Core.fetch_answer (p := p) (i := inp k) hsk hsetk
    (by rw [hpc]; exact hal) henv.ready henv.noPageFault henv.noAccessFault henv.noStall
  rw [henv.word, hak] at hfl
  -- the rest of the run starts in `DECODE` of the word that has been fetched
  have hrun : ∀ j, coreRun p (coreRun p c inp (k + 1)) (fun l => inp (k + 1 + l)) j
      = coreRun p c inp (k + 1 + j) := fun j => (Sync.run_add (Core.next p) c inp (k + 1) j).symm
  have hcalm : Calm p (coreRun p c inp (k + 1)) fun l => inp (k + 1 + l) := by
    intro j hj
    rw [hrun] at hj
    exact henv.calm (k + 1 + j) (by omega) hj
  have hcomp : Completes instr c.arch
      (coreRun p (coreRun p c inp (k + 1)) fun l => inp (k + 1 + l)) :=
    completes_decode hd hfl hset' hcalm henv.noInterrupt hdec
  obtain ⟨n, hbefore, hn, harch, hsetn⟩ := hcomp
  simp only [hrun] at hbefore hn harch hsetn
  refine ⟨k + 1 + n, by omega, hfetch, ?_, hn, harch, ?_, hsetn⟩
  · intro j hkj hjn
    obtain ⟨l, rfl⟩ := Nat.exists_eq_add_of_le (show k + 1 ≤ j by omega)
    exact (hbefore l (by omega)).1
  · intro j hjn
    rcases Nat.lt_or_ge k j with hkj | hjk
    · obtain ⟨l, rfl⟩ := Nat.exists_eq_add_of_le (show k + 1 ≤ j by omega)
      exact (hbefore l (by omega)).2
    · exact Core.memWstrb_eq_zero (by rw [hfetch j hjk]; rfl)

/-- A core in `FETCH` at address 0 with every register equal to 7. -/
def sevens : Core := { Core.reset sampleParams with regs := fun _ => 7#32 }

/-- The environment that answers the fetch in its second cycle with `mul x3, x1, x2`. -/
def mulFetch (n : ℕ) : CoreIn where
  memReady := n == 1
  memRdata := 0x022081b3#32
  stall := false
  pageFault := false
  faultAddress := 0#32
  accessFault := false
  irq3 := false
  irq7 := false
  irq9 := false
  irq11 := false

theorem integer_refines_sevens :
    ∃ n, 1 < n ∧ (coreRun sampleParams sevens mulFetch n).state = .fetch ∧
      (coreRun sampleParams sevens mulFetch n).arch.x 3#5 = 49#32 ∧
      (coreRun sampleParams sevens mulFetch n).arch.pc = 4#32 := by
  have hdec : decode 0x022081b3#32 = some (.mulDiv .mul 3#5 1#5 2#5) := by decide
  have henv : Delivers sampleParams sevens mulFetch 0x022081b3#32 1 := by
    refine ⟨?_, rfl, rfl, rfl, rfl, rfl, by decide +kernel, fun _ _ _ => rfl⟩
    intro j hj
    obtain rfl : j = 0 := by omega
    exact ⟨rfl, rfl⟩
  obtain ⟨n, hn, -, -, hf, ha, -, -⟩ := integer_refines (c := sevens) rfl
    ⟨rfl, rfl, rfl, rfl, rfl⟩ (by decide) hdec henv
  refine ⟨n, hn, hf, ?_, ?_⟩
  · rw [ha]
    decide
  · rw [ha]
    decide

/-! ## Every `FETCH` of a run from reset finds nothing in work -/

/-- The multiplier and the divider outside `EXEC_MUL` and `MUL_WB` are idle, and `pc` is
redirected only on the way into `FETCH`. -/
structure Core.UnitsOk (c : Core) : Prop where
  select : c.csr.exceptionSelect = true → c.state ≠ .fetch
  mul : (c.mul.state = .idle ∧ c.mul.ready = false) ∨
    (c.state = .execMul ∧ isMulCode c.instr = true) ∨ (c.state = .mulWb ∧ c.mul.state = .done)
  div : (c.div.divState = .idle ∧ c.div.ready = false) ∨
    (c.state = .execMul ∧ isMulCode c.instr = false)
  mulReady : c.mul.ready = true → c.mul.state = .done
  divReady : c.div.ready = true → c.div.divState = .idle

theorem Core.UnitsOk.settled (h : c.UnitsOk) (hf : c.state = .fetch) : c.Settled := by
  obtain ⟨hms, hmr⟩ : c.mul.state = .idle ∧ c.mul.ready = false := by
    rcases h.mul with hm | ⟨hs, -⟩ | ⟨hs, -⟩
    · exact hm
    · exact absurd (hf.symm.trans hs) (by decide)
    · exact absurd (hf.symm.trans hs) (by decide)
  obtain ⟨hds, hdr⟩ : c.div.divState = .idle ∧ c.div.ready = false := by
    rcases h.div with hd | ⟨hs, -⟩
    · exact hd
    · exact absurd (hf.symm.trans hs) (by decide)
  exact ⟨Bool.eq_false_of_not_eq_true fun hx => h.select hx hf, hms, hmr, hds, hdr⟩

theorem Core.IsReset.unitsOk (h : c.IsReset p) : c.UnitsOk := by
  obtain ⟨-, -, -, -, -, -, -, -, -, hcsr, hmul, hdiv⟩ := h
  refine ⟨?_, .inl ?_, .inl ?_, ?_, ?_⟩
  · rw [hcsr]
    intro hx
    exact absurd hx (by decide)
  · rw [hmul]
    exact ⟨rfl, rfl⟩
  · rw [hdiv]
    exact ⟨rfl, rfl⟩
  · rw [hmul]
    intro hx
    exact absurd hx (by decide)
  · rw [hdiv]
    intro hx
    exact absurd hx (by decide)

/-- A multiplier that is ready stands in `DONE`. -/
theorem Multiplier.ready_next {fpga valid : Bool} {a b : Word} {op : MulOp} {m : Multiplier}
    (h : m.ready = true → m.state = .done) (hr : (m.next fpga a b op valid).ready = true) :
    (m.next fpga a b op valid).state = .done := by
  cases hs : m.state <;> simp only [Multiplier.next, hs] at hr ⊢ <;> grind

/-- A divider that is ready is idle. -/
theorem Divider.ready_next {valid : Bool} {a b : Word} {op : DivOp} {d : Divider}
    (h : d.ready = true → d.divState = .idle) (hr : (d.next a b op valid).ready = true) :
    (d.next a b op valid).divState = .idle := by
  cases hs : d.divState <;> simp only [Divider.next, hs] at hr ⊢ <;> grind

/-- The redirection of `pc` comes from a state that does not lead to `FETCH`. -/
theorem Core.next_state_of_select (i : CoreIn) (h : (c.next p i).csr.exceptionSelect = true) :
    (c.next p i).state ≠ .fetch := by
  have hsel : (c.ctl.exceptionEvent || c.ctl.mret || c.ctl.sret) = true :=
    (CsrUnit.next_exceptionSelect p.systemClk c.csr (c.csrIn i)).symm.trans h
  rw [Core.ctl, moore_exceptionEvent, moore_mret, moore_sret] at hsel
  cases hst : i.stall with
  | true =>
    rw [Core.next_state_of_stall _ _ hst]
    intro hf
    rw [hf] at hsel
    exact absurd hsel (by decide)
  | false =>
    rw [Core.next_state _ _ hst]
    cases hs : c.state <;> rw [hs] at hsel <;>
      first | (exact absurd hsel (by decide)) | (simp [stateNxt])

/-- `EXEC_MUL` is left for `MUL_WB`, with one of the units ready. -/
theorem Core.next_of_execMul (hs : c.state = .execMul) (i : CoreIn) :
    (c.next p i).state = .execMul ∨
      ((c.next p i).state = .mulWb ∧ (c.mul.ready = true ∨ c.div.ready = true)) := by
  cases hst : i.stall with
  | true => exact .inl (by rw [Core.next_state_of_stall _ _ hst, hs])
  | false =>
    rw [Core.next_state _ _ hst, hs]
    by_cases hr : c.mul.ready = true ∨ c.div.ready = true
    · refine .inr ⟨?_, hr⟩
      rcases hr with hr | hr <;> simp [stateNxt, Core.fsmIn, hr]
    · simp only [not_or, Bool.not_eq_true] at hr
      exact .inl (by simp [stateNxt, Core.fsmIn, hr.1, hr.2])

theorem Core.UnitsOk.next (h : c.UnitsOk) (i : CoreIn) : (c.next p i).UnitsOk := by
  have hmulReady : (c.next p i).mul.ready = true → (c.next p i).mul.state = .done :=
    Multiplier.ready_next h.mulReady
  have hdivReady : (c.next p i).div.ready = true → (c.next p i).div.divState = .idle :=
    Divider.ready_next h.divReady
  -- only in `EXEC_MUL` are operands offered to a unit, and only to one of them
  by_cases hs : c.state = .execMul
  · have hi : (c.next p i).instr = c.instr := (Core.next_instr (by rw [hs]; decide)).1
    have hmv : c.mulValid = isMulCode c.instr := by simp [Core.mulValid, Core.ctl, hs, moore]
    have hdv : c.divValid = isDivCode c.instr := by simp [Core.divValid, Core.ctl, hs, moore]
    have hdiv : isMulCode c.instr = true → c.div.divState = .idle ∧ c.div.ready = false := by
      intro hm
      rcases h.div with hd | ⟨-, hno⟩
      · exact hd
      · exact absurd (hm.symm.trans hno) (by decide)
    have hmul : isMulCode c.instr = false → c.mul.state = .idle ∧ c.mul.ready = false := by
      intro hm
      rcases h.mul with hd | ⟨-, hno⟩ | ⟨hwb, -⟩
      · exact hd
      · exact absurd (hm.symm.trans hno) (by decide)
      · exact absurd (hs.symm.trans hwb) (by decide)
    rcases Core.mulDivOp_eq c.instr with ⟨hm, hd, -⟩ | ⟨hm, hd, -⟩
    · -- the multiplier works, the divider stays idle
      obtain ⟨hds, hdr⟩ := hdiv hm
      refine ⟨Core.next_state_of_select i, ?_, .inl ?_, hmulReady, hdivReady⟩
      · rcases Core.next_of_execMul (p := p) hs i with hx | ⟨hx, hr⟩
        · exact .inr (.inl ⟨hx, by rw [hi]; exact hm⟩)
        · have hready : c.mul.ready = true := by
            rcases hr with hr | hr
            · exact hr
            · exact absurd (hdr.symm.trans hr) (by decide)
          refine .inr (.inr ⟨hx, ?_⟩)
          simp [Core.next, Multiplier.next, h.mulReady hready, hmv, hm]
      · exact Core.div_next_of_not_valid (hdv.trans hd) hds
    · -- the divider works, the multiplier stays idle
      obtain ⟨hms, -⟩ := hmul hm
      refine ⟨Core.next_state_of_select i,
        .inl (Core.mul_next_of_not_valid (hmv.trans hm) hms), ?_, hmulReady, hdivReady⟩
      rcases Core.next_of_execMul (p := p) hs i with hx | ⟨hx, hr⟩
      · exact .inr ⟨hx, by rw [hi]; exact hm⟩
      · have hready : c.div.ready = true := by
          rcases hr with hr | hr
          · exact absurd ((hmul hm).2.symm.trans hr) (by decide)
          · exact hr
        left
        simp [Core.next, Divider.next, h.divReady hready, hready]
  · have hmv := Core.mulValid_eq_false hs
    have hdv := Core.divValid_eq_false hs
    refine ⟨Core.next_state_of_select i, .inl ?_, .inl ?_, hmulReady, hdivReady⟩
    · rcases h.mul with ⟨hm, -⟩ | ⟨hx, -⟩ | ⟨-, hm⟩
      · exact Core.mul_next_of_not_valid hmv hm
      · exact absurd hx hs
      · simp [Core.next, Multiplier.next, hmv, hm]
    · rcases h.div with ⟨hd, -⟩ | ⟨hx, -⟩
      · exact Core.div_next_of_not_valid hdv hd
      · exact absurd hx hs

/-- Whatever happens from reset on, `FETCH` finds the core settled. -/
theorem settled_of_reset (h : c.IsReset p) (n : ℕ) (hf : (coreRun p c inp n).state = .fetch) :
    (coreRun p c inp n).Settled := by
  have hok : (coreRun p c inp n).UnitsOk :=
    Sync.run_invariant (P := Core.UnitsOk) h.unitsOk (fun _ hi => hi.next _) n
  exact hok.settled hf

end Run

end KianRiscV
