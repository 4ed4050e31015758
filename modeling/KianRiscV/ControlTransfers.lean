/-
# Control transfers and RV32I

`JAL`, `JALR` and the branches from one `FETCH` to the next.  `DECODE` adds the immediate to `OldPC`
whatever the word is, `JALR` replaces the sum, and `JAL` and `BRANCH` take it from `ALUOut` into
`PC` while the ALU computes the link address or the comparison.

The sum of `JALR` reaches `PC` with bit 0 as it is, where the specification clears it.  The
refinement therefore holds except for a sum that is one above a multiple of four.
-/
import KianRiscV.CsrConfinement
import KianRiscV.IntegerRefinement

namespace KianRiscV

open Rv32im

/-! ## What stays as it is -/

/-- Only the counters and the pending bits have changed. -/
def CsrUnit.CountsOn (c c' : CsrUnit) : Prop :=
  c' = { c with
    mip := c'.mip
    exceptionSelect := c'.exceptionSelect
    instrCounter := c'.instrCounter
    timerCounter := c'.timerCounter
    cycleCounter := c'.cycleCounter
    tickCnt := c'.tickCnt }

theorem CsrUnit.CountsOn.trans {c c' c'' : CsrUnit} (h : c.CountsOn c') (h' : c'.CountsOn c'') :
    c.CountsOn c'' := by
  unfold CountsOn at h'
  rw [h] at h'
  exact h'

namespace Core

/-- Control and status registers, counters apart, and the reservation are as before. -/
structure Untouched (c c' : Core) : Prop where
  csr : c.csr.CountsOn c'.csr
  reservation : c'.amoReservedStateLoad = c.amoReservedStateLoad

theorem Untouched.refl (c : Core) : c.Untouched c := ⟨rfl, rfl⟩

theorem Untouched.trans {c c' c'' : Core} (h : c.Untouched c') (h' : c'.Untouched c'') :
    c.Untouched c'' :=
  ⟨h.csr.trans h'.csr, h'.reservation.trans h.reservation⟩

/-- The states that set or use up the reservation. -/
def reserves (st : FsmState) : Bool := st == .amoLrRead || st == .amoScWrite

theorem untouched_next (p : Params) {c : Core} (hc : touchesCsr c.state = false)
    (hr : reserves c.state = false) (i : CoreIn) : c.Untouched (c.next p i) := by
  refine ⟨(CsrUnit.linesOnly_of_quiet (csrIn_quiet hc i) p.systemClk).rest, ?_⟩
  have hset : amoSetReservedStateLoad c.state c.loadUnaligned = false := by
    cases hs : c.state <;> rw [hs] at hr <;> first | rfl | exact absurd hr (by decide)
  simp [next, hset]

end Core

/-! ## The branch condition -/

section Branch

variable {w : Word} {f : BranchOp}

/-- The ALU operation of a comparison. -/
def branchCtrl : BranchOp → AluCtrl
  | .beq => .beq
  | .bne => .bne
  | .blt => .blt
  | .bge => .bge
  | .bltu => .bltu
  | .bgeu => .bgeu

theorem aluDecoder_branch (h : branchOp (funct3Of w) = some f) (b : Bool) :
    aluDecoder b w .branch = branchCtrl f := by
  simp only [aluDecoder]
  revert h
  generalize funct3Of w = g
  cases f <;> revert g <;> decide

/-- `Zero` is the complement of the condition. -/
theorem aluZero_branchCtrl (a b : Word) : aluZero (alu a b (branchCtrl f)) = !f.taken a b := by
  have hzero : ∀ x : Bool, aluZero (boolWord x) = !x := by decide
  cases f <;> simp [alu, branchCtrl, hzero, BranchOp.taken, bne, beq_eq_decide, BitVec.slt,
    BitVec.sle, BitVec.ult, BitVec.ule]

end Branch

/-! ## The states of a control transfer -/

section Edge

variable {p : Params} {c : Core} {i : CoreIn} {w : Word} {s : Arch}

/-- The immediate and the state that `DECODE` goes to. -/
theorem decodeTransfer_cases {t : Transfer} (h : decodeTransfer w = some t) :
    (opOf w = 0b1101111#7 ∧ t = .jal (rdOf w) (immExtOf w)) ∨
      (opOf w = 0b1100111#7 ∧ t = .jalr (rdOf w) (rs1Of w) (immExtOf w)) ∨
      (opOf w = 0b1100011#7 ∧ ∃ f, branchOp (funct3Of w) = some f ∧
        t = .branch f (rs1Of w) (rs2Of w) (immExtOf w)) := by
  unfold decodeTransfer at h
  split_ifs at h with h1 h2 h3 h4
  · refine .inl ⟨h1, ?_⟩
    obtain rfl := Option.some.inj h
    simp [immExtOf, immSrcOf, isRtype, isItype, isJalr, isLoad, isCsr, isStore, isBranch, isLui,
      isAuipc, isJal, h1, extend]
  · refine .inr (.inl ⟨h2, ?_⟩)
    obtain rfl := Option.some.inj h
    simp [immExtOf, immSrcOf, isRtype, isItype, isJalr, h2, extend]
  · refine .inr (.inr ⟨h4, ?_⟩)
    rw [Option.map_eq_some_iff] at h
    obtain ⟨f, hf, rfl⟩ := h
    refine ⟨f, hf, ?_⟩
    simp [immExtOf, immSrcOf, isRtype, isItype, isJalr, isLoad, isCsr, isStore, isBranch, h4,
      extend]

/-- `DECODE` leaves the sum of `OldPC` and the immediate in `ALUOut`. -/
theorem decode_edge (hd : c.state = .decode) (hfl : c.InFlight w s) (hset : c.Settled)
    (hst : i.stall = false) :
    (c.next p i).state = decodeNxt (c.fsmIn i) ∧ (c.next p i).InFlight w s ∧
      (c.next p i).a1 = s.x (rs1Of w) ∧ (c.next p i).a2 = s.x (rs2Of w) ∧
      (c.next p i).aluOut = s.pc + immExtOf w ∧ (c.next p i).Settled := by
  obtain ⟨hfl', ha1, ha2⟩ := hfl.next (p := p) (i := i) (by rw [hd]; rfl)
  refine ⟨?_, hfl', ha1, ha2, ?_, hset.next (by rw [hd]; rfl) (by rw [hd]; decide)⟩
  · rw [Core.next_state _ _ hst, hd]
    rfl
  · have hres : c.aluResult = c.oldPc + immExtOf c.instr := by
      simp only [Core.aluResult, Core.srcA, Core.srcB, Core.ctl, Core.immExt, hd, moore, aluDecoder,
        alu]
    have hnv : c.memValid = false := by
      unfold Core.memValid
      rw [hd]
      rfl
    rw [← hfl.oldPc, ← hfl.instr, ← hres]
    simp [Core.next, hnv]

/-- `JALR` replaces it by the sum of the register and the immediate. -/
theorem jalr_edge (hs : c.state = .jalr) (hfl : c.InFlight w s) (ha1 : c.a1 = s.x (rs1Of w))
    (hset : c.Settled) (hst : i.stall = false) :
    (c.next p i).state = .jal ∧ (c.next p i).InFlight w s ∧
      (c.next p i).aluOut = s.x (rs1Of w) + immExtOf w ∧ (c.next p i).Settled := by
  obtain ⟨hfl', -, -⟩ := hfl.carry (p := p) (i := i) (by rw [hs]; decide) (by rw [hs]; rfl)
    (Core.pcWrite_of_not_movesPc (by rw [hs]; rfl))
  refine ⟨?_, hfl', ?_, hset.next (by rw [hs]; rfl) (by rw [hs]; decide)⟩
  · rw [Core.next_state _ _ hst, hs]
    rfl
  · have hres : c.aluResult = c.a1 + immExtOf c.instr := by
      simp only [Core.aluResult, Core.srcA, Core.srcB, Core.ctl, Core.immExt, hs, moore, aluDecoder,
        alu]
    have hnv : c.memValid = false := by
      unfold Core.memValid
      rw [hs]
      rfl
    rw [← ha1, ← hfl.instr, ← hres]
    simp [Core.next, hnv]

/-- `JAL` takes `ALUOut` into `PC` and leaves the link address there. -/
theorem jal_edge (hs : c.state = .jal) (hfl : c.InFlight w s) (hset : c.Settled)
    (hst : i.stall = false) :
    (c.next p i).state = .aluWb ∧ (c.next p i).instr = w ∧
      (c.next p i).arch = ⟨s.x, c.aluOut⟩ ∧ (c.next p i).aluOut = s.pc + 4#32 ∧
      (c.next p i).Settled := by
  have hx : Core.readReg c.regs = s.x := congrArg Arch.x hfl.arch
  have hnv : c.memValid = false := by
    unfold Core.memValid
    rw [hs]
    rfl
  refine ⟨?_, ?_, ?_, ?_, hset.next (by rw [hs]; rfl) (by rw [hs]; decide)⟩
  · rw [Core.next_state _ _ hst, hs]
    rfl
  · exact (Core.next_instr (by rw [hs]; decide)).1.trans hfl.instr
  · have hpc : (c.next p i).pc = c.aluOut := by
      simp [Core.next, Core.pcWrite, Core.ctl, hs, moore, pcUpdate, hset.exceptionSelect,
        Core.result]
    unfold Core.arch
    rw [Core.next_regs (by rw [hs]; rfl), hx, hpc]
  · have hres : c.aluResult = c.oldPc + 4#32 := by
      simp only [Core.aluResult, Core.srcA, Core.srcB, Core.ctl, hs, moore, aluDecoder, alu]
    rw [← hfl.oldPc, ← hres]
    simp [Core.next, hnv]

/-- `ALU_WB` writes the link address. -/
theorem link_edge (hs : c.state = .aluWb) (hw : c.instr = w) (hset : c.Settled)
    (hst : i.stall = false) :
    (c.next p i).state = .fetch ∧
      (c.next p i).arch =
        ⟨fun r => if r = rdOf w ∧ r ≠ 0#5 then c.aluOut else c.arch.x r, c.arch.pc⟩ ∧
      (c.next p i).Settled := by
  refine ⟨?_, ?_, hset.next (by rw [hs]; rfl) (by rw [hs]; decide)⟩
  · rw [Core.next_state _ _ hst, hs]
    rfl
  · have hregs : (c.next p i).regs = Core.writeReg c.regs true (rdOf w) c.aluOut := by
      simp [Core.next, Core.ctl, hs, moore, Core.result, hw]
    have hpw : c.pcWrite i = false := Core.pcWrite_of_not_movesPc (by rw [hs]; rfl)
    unfold Core.arch
    rw [hregs, Core.readReg_writeReg, Core.next_pc hpw]

/-- `BRANCH` takes `ALUOut` into `PC` if the condition holds. -/
theorem branch_edge {f : BranchOp} (hs : c.state = .branch) (hfl : c.InFlight w s)
    (ha1 : c.a1 = s.x (rs1Of w)) (ha2 : c.a2 = s.x (rs2Of w)) (hset : c.Settled)
    (hf : branchOp (funct3Of w) = some f) (hst : i.stall = false) :
    (c.next p i).state = .fetch ∧
      (c.next p i).arch =
        ⟨s.x, if f.taken (s.x (rs1Of w)) (s.x (rs2Of w)) then c.aluOut else s.pc + 4#32⟩ ∧
      (c.next p i).Settled := by
  have hx : Core.readReg c.regs = s.x := congrArg Arch.x hfl.arch
  have hpc : c.pc = s.pc + 4#32 := congrArg Arch.pc hfl.arch
  refine ⟨?_, ?_, hset.next (by rw [hs]; rfl) (by rw [hs]; decide)⟩
  · rw [Core.next_state _ _ hst, hs]
    rfl
  · have hzero : c.zero = !f.taken (s.x (rs1Of w)) (s.x (rs2Of w)) := by
      rw [← aluZero_branchCtrl, ← ha1, ← ha2, ← aluDecoder_branch hf (c.immExt.getLsbD 10),
        ← hfl.instr]
      simp only [Core.zero, Core.aluResult, Core.srcA, Core.srcB, Core.ctl, hs, moore]
    have hpw : c.pcWrite i = f.taken (s.x (rs1Of w)) (s.x (rs2Of w)) := by
      simp [Core.pcWrite, Core.ctl, hs, moore, pcUpdate, hzero]
    have hres : c.result = c.aluOut := by
      simp [Core.result, Core.ctl, hs, moore]
    have hpc' : (c.next p i).pc = if f.taken (s.x (rs1Of w)) (s.x (rs2Of w)) then c.aluOut
        else s.pc + 4#32 := by
      rw [← hpc]
      simp [Core.next, hpw, hset.exceptionSelect, hres]
    unfold Core.arch
    rw [Core.next_regs (by rw [hs]; rfl), hx, hpc']

end Edge

/-! ## From `FETCH` to `FETCH` -/

/-- The states of a control transfer. -/
def transfers : FsmState → Bool
  | .fetch | .decode | .jal | .jalr | .aluWb | .branch => true
  | _ => false

/-- A run comes back to `FETCH` for the first time after cycle `k`. -/
structure NextFetch (c : ℕ → Core) (k n : ℕ) : Prop where
  after : k < n
  between : ∀ j, k < j → j < n → (c j).state ≠ .fetch
  fetch : (c n).state = .fetch

theorem NextFetch.unique {c : ℕ → Core} {k n n' : ℕ} (h : NextFetch c k n) (h' : NextFetch c k n') :
    n = n' := by
  rcases Nat.lt_trichotomy n n' with hlt | heq | hgt
  · exact absurd h.fetch (h'.between n h.after hlt)
  · exact heq
  · exact absurd h'.fetch (h.between n' h'.after hgt)

/-- The sum that `JALR` computes, and otherwise the target. -/
def sumOf (t : Transfer) (s : Arch) : Word :=
  match t with
  | .jalr _ rs1 imm => s.x rs1 + imm
  | t => t.target s

section Run

variable {p : Params} {c : Core} {inp : ℕ → CoreIn} {w : Word} {t : Transfer} {k n : ℕ}

/-- Nothing else is touched, and nothing is written to memory. -/
theorem untouched_run (h : ∀ j, j < n → transfers (coreRun p c inp j).state = true) :
    c.Untouched (coreRun p c inp n) ∧ ∀ j, j < n → (coreRun p c inp j).memWstrb = 0#4 := by
  have hstate : ∀ j, j < n → Core.touchesCsr (coreRun p c inp j).state = false ∧
      Core.reserves (coreRun p c inp j).state = false ∧
      Core.storesData (coreRun p c inp j).state = false := by
    intro j hj
    have hst := h j hj
    cases hs : (coreRun p c inp j).state <;> rw [hs] at hst <;>
      first | exact ⟨rfl, rfl, rfl⟩ | exact absurd hst (by decide)
  refine ⟨?_, fun j hj => Core.memWstrb_eq_zero (hstate j hj).2.2⟩
  clear h
  induction n with
  | zero => exact .refl c
  | succ n ih =>
    obtain ⟨hc, hr, -⟩ := hstate n (by omega)
    exact (ih fun j hj => hstate j (by omega)).trans (Core.untouched_next p hc hr (inp n))

/-- The environment does not stall after the fetch but where the core waits on the bus. -/
theorem Delivers.noStall_of (henv : Delivers p c inp w k) {j : ℕ} {st : FsmState} (hj : k < j)
    (hst : (coreRun p c inp j).state = st) (hb : waitsForBus st = false) :
    (inp j).stall = false :=
  henv.calm j hj (by rw [hst]; exact hb)

/-- From `JAL` on, `JAL` and `JALR` are the same. -/
theorem jump_run (henv : Delivers p c inp w k) {j : ℕ} (hj : k < j) {s : Arch}
    (hs : (coreRun p c inp j).state = .jal) (hfl : (coreRun p c inp j).InFlight w s)
    (hset : (coreRun p c inp j).Settled) :
    (coreRun p c inp (j + 1)).state = .aluWb ∧ (coreRun p c inp (j + 2)).state = .fetch ∧
      (coreRun p c inp (j + 2)).arch =
        ⟨fun r => if r = rdOf w ∧ r ≠ 0#5 then s.pc + 4#32 else s.x r,
          (coreRun p c inp j).aluOut⟩ ∧
      (coreRun p c inp (j + 2)).Settled := by
  obtain ⟨hs1, hi1, ha1, hl1, hset1⟩ := jal_edge (p := p) (i := inp j) hs hfl hset
    (henv.noStall_of hj hs rfl)
  rw [← coreRun_succ] at hs1 hi1 ha1 hl1 hset1
  obtain ⟨hs2, ha2, hset2⟩ := link_edge (p := p) (i := inp (j + 1)) hs1 hi1 hset1
    (henv.noStall_of (by omega) hs1 rfl)
  rw [← coreRun_succ, ha1, hl1] at ha2
  exact ⟨hs1, hs2, ha2, hset2⟩

/-- The transfer takes its step, with the sum in the place of the target. -/
theorem transfer_lands (hs : c.state = .fetch) (hset : c.Settled)
    (hal : c.pc.extractLsb' 0 2 = 0#2) (hdec : decodeTransfer w = some t)
    (henv : Delivers p c inp w k) :
    ∃ n, NextFetch (coreRun p c inp) k n ∧
      (coreRun p c inp n).arch = { t.step c.arch with pc := sumOf t c.arch } ∧
      (coreRun p c inp n).Settled ∧ ∀ j, j < n → transfers (coreRun p c inp j).state = true := by
  have hwait : ∀ j, j ≤ k → transfers (coreRun p c inp j).state = true := by
    intro j hj
    rw [(waiting (p := p) hs hset hal fun l hl => henv.wait l (by omega)).1]
    rfl
  -- the answer to the fetch, `DECODE`, and from there the states of each transfer
  obtain ⟨hsk, hak, hsetk⟩ := waiting (p := p) hs hset hal henv.wait
  have hpc : (coreRun p c inp k).pc = c.pc := congrArg Arch.pc hak
  obtain ⟨hd, hfl, hset1⟩ := Core.fetch_answer (p := p) (i := inp k) hsk hsetk
    (by rw [hpc]; exact hal) henv.ready henv.noPageFault henv.noAccessFault henv.noStall
  rw [henv.word, hak] at hfl
  rw [← coreRun_succ] at hd hfl hset1
  have hirq : ((coreRun p c inp (k + 1)).fsmIn (inp (k + 1))).irq.pending = false :=
    henv.noInterrupt
  have hinstr : ((coreRun p c inp (k + 1)).fsmIn (inp (k + 1))).instr = w := hfl.instr
  obtain ⟨hs2, hfl2, ha1, ha2, hsum, hset2⟩ := decode_edge (p := p) (i := inp (k + 1)) hd hfl hset1
    (henv.noStall_of (by omega) hd rfl)
  rw [← coreRun_succ] at hs2 hfl2 ha1 ha2 hsum hset2
  rcases decodeTransfer_cases hdec with ⟨hop, rfl⟩ | ⟨hop, rfl⟩ | ⟨hop, f, hf, rfl⟩
  · have hs2' : (coreRun p c inp (k + 2)).state = .jal := by
      rw [hs2]
      simp [decodeNxt, hirq, hinstr, isLoad, isStore, isRtype, isItype, isJal, hop]
    obtain ⟨hs3, hs4, ha4, hset4⟩ := jump_run henv (by omega) hs2' hfl2 hset2
    refine ⟨k + 4, ⟨by omega, ?_, hs4⟩, ?_, hset4, ?_⟩
    · intro j hj hj'
      obtain rfl | rfl | rfl : j = k + 1 ∨ j = k + 2 ∨ j = k + 3 := by omega
      all_goals simp [hd, hs2', hs3]
    · rw [ha4, hsum]
      simp only [Transfer.step, Transfer.link, Option.some.injEq, eq_comm (a := rdOf w)]
      rfl
    · intro j hj
      obtain h | rfl | rfl | rfl : j ≤ k ∨ j = k + 1 ∨ j = k + 2 ∨ j = k + 3 := by omega
      · exact hwait j h
      all_goals simp [hd, hs2', hs3, transfers]
  · have hs2' : (coreRun p c inp (k + 2)).state = .jalr := by
      rw [hs2]
      simp [decodeNxt, hirq, hinstr, isLoad, isStore, isRtype, isItype, isJal, isJalr, hop]
    obtain ⟨hs3, hfl3, hsum3, hset3⟩ := jalr_edge (p := p) (i := inp (k + 2)) hs2' hfl2 ha1 hset2
      (henv.noStall_of (by omega) hs2' rfl)
    rw [← coreRun_succ] at hs3 hfl3 hsum3 hset3
    obtain ⟨hs4, hs5, ha5, hset5⟩ := jump_run henv (by omega) hs3 hfl3 hset3
    refine ⟨k + 5, ⟨by omega, ?_, hs5⟩, ?_, hset5, ?_⟩
    · intro j hj hj'
      obtain rfl | rfl | rfl | rfl : j = k + 1 ∨ j = k + 2 ∨ j = k + 3 ∨ j = k + 4 := by omega
      all_goals simp [hd, hs2', hs3, hs4]
    · rw [ha5, hsum3]
      simp only [Transfer.step, Transfer.link, Option.some.injEq, eq_comm (a := rdOf w)]
      rfl
    · intro j hj
      obtain h | rfl | rfl | rfl | rfl : j ≤ k ∨ j = k + 1 ∨ j = k + 2 ∨ j = k + 3 ∨ j = k + 4 := by
        omega
      · exact hwait j h
      all_goals simp [hd, hs2', hs3, hs4, transfers]
  · have hs2' : (coreRun p c inp (k + 2)).state = .branch := by
      rw [hs2]
      simp [decodeNxt, hirq, hinstr, isLoad, isStore, isRtype, isItype, isJal, isJalr, isBranch, hop]
    obtain ⟨hs3, ha3, hset3⟩ := branch_edge (p := p) (i := inp (k + 2)) hs2' hfl2 ha1 ha2 hset2 hf
      (henv.noStall_of (by omega) hs2' rfl)
    rw [← coreRun_succ] at hs3 ha3 hset3
    refine ⟨k + 3, ⟨by omega, ?_, hs3⟩, ?_, hset3, ?_⟩
    · intro j hj hj'
      obtain rfl | rfl : j = k + 1 ∨ j = k + 2 := by omega
      all_goals simp [hd, hs2']
    · rw [ha3, hsum]
      simp [Transfer.step, Transfer.link, sumOf, Transfer.target]
    · intro j hj
      obtain h | rfl | rfl : j ≤ k ∨ j = k + 1 ∨ j = k + 2 := by omega
      · exact hwait j h
      all_goals simp [hd, hs2', transfers]

/-! ## Refinement -/

/-- A control transfer refines the specification: the run comes back to `FETCH`; if the target is a
multiple of four, the architectural step is taken and nothing else is touched; and the alignment
test of `FETCH` is that of the target. -/
def RefinesTransfer (t : Transfer) (c : ℕ → Core) (k : ℕ) : Prop :=
  ∃ n, NextFetch c k n ∧
    ((t.target (c 0).arch).toNat % 4 = 0 →
      (c n).arch = t.step (c 0).arch ∧ (c 0).Untouched (c n) ∧ (c n).Settled ∧
        ∀ j, j < n → (c j).memWstrb = 0#4) ∧
    ∀ i, ((c n).fsmIn i).isInstructionUnaligned = true ↔ (t.target (c 0).arch).toNat % 4 ≠ 0

/-- `JALR` with a sum one above a multiple of four. -/
def OddJump (t : Transfer) (s : Arch) : Prop :=
  match t with
  | .jalr _ rs1 imm => (s.x rs1 + imm).toNat % 4 = 1
  | _ => False

theorem toNat_clear_bit_zero (a : Word) : (a &&& ~~~1#32).toNat = a.toNat / 2 * 2 := by
  have hshift : a &&& ~~~1#32 = (a >>> 1) <<< 1 := by
    have hmask : ∀ k < 32, (~~~1#32 : Word).getLsbD k = decide (1 ≤ k) := by decide
    apply BitVec.eq_of_getLsbD_eq
    intro k hk
    rw [BitVec.getLsbD_and, hmask k hk, BitVec.getLsbD_shiftLeft, BitVec.getLsbD_ushiftRight]
    rcases Nat.lt_or_ge k 1 with h | h
    · simp [h]
    · simp [hk, h, show ¬ k < 1 by omega, show 1 + (k - 1) = k by omega]
  rw [hshift, BitVec.toNat_shiftLeft, BitVec.toNat_ushiftRight, Nat.shiftRight_eq_div_pow,
    Nat.shiftLeft_eq]
  omega

/-- The sum is the target, or both fail the alignment test, or only the sum does. -/
theorem sumOf_cases (t : Transfer) (s : Arch) :
    (¬ OddJump t s ∧ sumOf t s = t.target s) ∨
      (¬ OddJump t s ∧ (t.target s).toNat % 4 ≠ 0 ∧ (sumOf t s).toNat % 4 ≠ 0) ∨
      (OddJump t s ∧ (t.target s).toNat % 4 = 0 ∧ (sumOf t s).toNat % 4 ≠ 0) := by
  cases t with
  | jal rd imm => exact .inl ⟨not_false, rfl⟩
  | branch f rs1 rs2 imm => exact .inl ⟨not_false, rfl⟩
  | jalr rd rs1 imm =>
    have hclear := toNat_clear_bit_zero (s.x rs1 + imm)
    simp only [OddJump, Transfer.target, sumOf]
    obtain h | h | h : (s.x rs1 + imm).toNat % 2 = 0 ∨ (s.x rs1 + imm).toNat % 4 = 3 ∨
      (s.x rs1 + imm).toNat % 4 = 1 := by omega
    · exact .inl ⟨by omega, BitVec.eq_of_toNat_eq (by omega)⟩
    · exact .inr (.inl ⟨by omega, by omega, by omega⟩)
    · exact .inr (.inr ⟨h, by omega, by omega⟩)

/-- In `FETCH` the alignment test is on `PC`. -/
theorem unaligned_of_fetch {c : Core} (hs : c.state = .fetch) (i : CoreIn) :
    (c.fsmIn i).isInstructionUnaligned = true ↔ c.pc.toNat % 4 ≠ 0 := by
  obtain ⟨haddr, -, -⟩ := Core.memAddr_of_presentsFetch (c := c) (.inr hs)
  have hlow : c.pc.extractLsb' 0 2 = 0#2 ↔ c.pc.toNat % 4 = 0 := by
    rw [← BitVec.toNat_inj]
    simp [BitVec.extractLsb'_toNat]
  simp [Core.fsmIn, haddr, hlow]

/-- **Control transfers refine RV32I** if and only if they are not an odd jump: `JAL`, `JALR` and
every branch, for all register contents, immediates and addresses. -/
theorem control_transfers_iff (hs : c.state = .fetch) (hset : c.Settled)
    (hal : c.pc.extractLsb' 0 2 = 0#2) (hdec : decodeTransfer w = some t)
    (henv : Delivers p c inp w k) :
    RefinesTransfer t (coreRun p c inp) k ↔ ¬ OddJump t c.arch := by
  obtain ⟨n, hn, harch, hsetn, hstates⟩ := transfer_lands hs hset hal hdec henv
  obtain ⟨hun, hwstrb⟩ := untouched_run hstates
  have hpc : (coreRun p c inp n).pc = sumOf t c.arch := congrArg Arch.pc harch
  have htest : ∀ i, ((coreRun p c inp n).fsmIn i).isInstructionUnaligned = true ↔
      (sumOf t c.arch).toNat % 4 ≠ 0 := by
    intro i
    rw [unaligned_of_fetch hn.fetch, hpc]
  have hzero : coreRun p c inp 0 = c := rfl
  unfold RefinesTransfer
  rw [hzero]
  rcases sumOf_cases t c.arch with ⟨hodd, hsum⟩ | ⟨hodd, htgt, hsum⟩ | ⟨hodd, htgt, hsum⟩
  · refine iff_of_true ⟨n, hn, fun _ => ⟨?_, hun, hsetn, hwstrb⟩, fun i => ?_⟩ hodd
    · rw [harch, hsum]
      rfl
    · rw [htest i, hsum]
  · refine iff_of_true ⟨n, hn, fun h => absurd h htgt, fun i => ?_⟩ hodd
    rw [htest i]
    exact iff_of_true hsum htgt
  · refine iff_of_false ?_ (not_not_intro hodd)
    rintro ⟨n', hn', -, htest'⟩
    obtain rfl := hn.unique hn'
    exact (htest' (inp n)).1 ((htest (inp n)).2 hsum) htgt

end Run

/-! ## Concrete runs -/

/-- The environment that answers the fetch in its second cycle with the word. -/
def fetchOf (w : Word) (n : ℕ) : CoreIn where
  memReady := n == 1
  memRdata := w
  stall := false
  pageFault := false
  faultAddress := 0#32
  accessFault := false
  irq3 := false
  irq7 := false
  irq9 := false
  irq11 := false

theorem delivers_fetchOf (c : Core) (w : Word)
    (hirq : ((coreRun sampleParams c (fetchOf w) 2).fsmIn (fetchOf w 2)).irq.pending = false) :
    Delivers sampleParams c (fetchOf w) w 1 := by
  refine ⟨?_, rfl, rfl, rfl, rfl, rfl, hirq, fun _ _ _ => rfl⟩
  intro j hj
  obtain rfl : j = 0 := by omega
  exact ⟨rfl, rfl⟩

/-- `jalr x1, 1(x1)` with every register equal to 7. -/
theorem control_transfers_iff_jalr :
    RefinesTransfer (.jalr 1#5 1#5 1#32) (coreRun sampleParams sevens (fetchOf 0x001080e7#32)) 1 := by
  refine (control_transfers_iff (c := sevens) rfl ⟨rfl, rfl, rfl, rfl, rfl⟩ (by decide) (by decide)
    (delivers_fetchOf _ _ (by decide +kernel))).2 ?_
  show ¬ (8 % 4 = 1)
  decide

/-- `jalr x1, 2(x1)` with every register equal to 7 has the target 8 and goes to 9. -/
theorem jalr_keeps_bit_zero :
    decodeTransfer 0x002080e7#32 = some (.jalr 1#5 1#5 2#32) ∧
      (Transfer.jalr 1#5 1#5 2#32).target sevens.arch = 8#32 ∧
      (coreRun sampleParams sevens (fetchOf 0x002080e7#32) 6).state = .fetch ∧
      (coreRun sampleParams sevens (fetchOf 0x002080e7#32) 6).pc = 9#32 ∧
      (coreRun sampleParams sevens (fetchOf 0x002080e7#32) 7).state = .instrMisalign0 ∧
      ¬ RefinesTransfer (.jalr 1#5 1#5 2#32) (coreRun sampleParams sevens (fetchOf 0x002080e7#32))
        1 := by
  refine ⟨by decide, by decide, by decide +kernel, by decide +kernel, by decide +kernel, ?_⟩
  rintro ⟨n, hn, -, htest⟩
  have hfetch : NextFetch (coreRun sampleParams sevens (fetchOf 0x002080e7#32)) 1 6 := by
    refine ⟨by decide, fun j hj hj' => ?_, by decide +kernel⟩
    obtain rfl | rfl | rfl | rfl : j = 2 ∨ j = 3 ∨ j = 4 ∨ j = 5 := by omega
    all_goals decide +kernel
  obtain rfl := hn.unique hfetch
  exact (htest (fetchOf 0x002080e7#32 6)).1 (by decide +kernel) (by decide)

end KianRiscV
