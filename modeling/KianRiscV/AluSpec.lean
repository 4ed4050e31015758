/-
# Decoding and the ALU against the specification

For every word that encodes an integer instruction, the decoders of the processor select
the operation and the operands that the specification names, and the ALU computes it.
-/
import KianRiscV.Alu
import KianRiscV.Rv32im
import Mathlib.Data.BitVec

namespace KianRiscV

open Rv32im

/-! ## The ALU -/

/-- The `ALU_CTRL_*` code of an operation. -/
def ctrlOf : IntOp → AluCtrl
  | .add => .addAddi
  | .sub => .sub
  | .sll => .sllSlli
  | .slt => .sltSlti
  | .sltu => .sltuSltiu
  | .xor => .xorXori
  | .srl => .srlSrli
  | .sra => .sraSrai
  | .or => .orOri
  | .and => .andAndi

theorem shamt_eq (b : Word) : (b.extractLsb' 0 5).toNat = b.toNat % 32 := by
  simp

theorem boolWord_eq (c : Prop) [Decidable c] :
    boolWord (decide c) = if c then 1#32 else 0#32 := by
  by_cases h : c
  · rw [decide_eq_true h, if_pos h]
    rfl
  · rw [decide_eq_false h, if_neg h]
    rfl

theorem alu_ctrlOf (f : IntOp) (a b : Word) : alu a b (ctrlOf f) = f.eval a b := by
  cases f with
  | add => rfl
  | sub => rfl
  | xor => rfl
  | or => rfl
  | and => rfl
  | sll =>
    show a <<< (b.extractLsb' 0 5).toNat = BitVec.ofNat 32 (a.toNat * 2 ^ (b.toNat % 32))
    apply BitVec.eq_of_toNat_eq
    rw [shamt_eq, BitVec.toNat_shiftLeft, BitVec.toNat_ofNat, Nat.shiftLeft_eq]
  | srl =>
    show a >>> (b.extractLsb' 0 5).toNat = BitVec.ofNat 32 (a.toNat / 2 ^ (b.toNat % 32))
    apply BitVec.eq_of_toNat_eq
    have hlt : a.toNat / 2 ^ (b.toNat % 32) < 2 ^ 32 :=
      lt_of_le_of_lt (Nat.div_le_self _ _) a.isLt
    rw [shamt_eq, BitVec.toNat_ushiftRight, BitVec.toNat_ofNat, Nat.shiftRight_eq_div_pow,
      Nat.mod_eq_of_lt hlt]
  | sra =>
    show a.sshiftRight (b.extractLsb' 0 5).toNat = BitVec.ofInt 32 (a.toInt / 2 ^ (b.toNat % 32))
    rw [shamt_eq, BitVec.sshiftRight, Int.shiftRight_eq_div_pow]
    norm_cast
  | slt => exact boolWord_eq _
  | sltu => exact boolWord_eq _

/-! ## Fields -/

theorem bit5_eq (w : Word) : w.getLsbD 5 = (opOf w).getLsbD 5 := by
  simp [opOf]

theorem bit25_eq (w : Word) : w.getLsbD 25 = (funct7Of w).getLsbD 0 := by
  simp [funct7Of]

theorem bit30_eq (w : Word) : w.getLsbD 30 = (funct7Of w).getLsbD 5 := by
  simp [funct7Of]

/-- What `alu_decoder` makes of `funct3`, and of the bits that tell `sub` and `sra` from
`add` and `srl`. -/
def arithCtrl (funct3 : BitVec 3) (sub sra : Bool) : AluCtrl :=
  if funct3 = 0#3 then (if sub then .sub else .addAddi)
  else if funct3 = 5#3 then (if sra then .sraSrai else .srlSrli)
  else ctrlOf (baseOp funct3)

theorem aluDecoder_arithLogic (immBit10 : Bool) (w : Word) :
    aluDecoder immBit10 w .arithLogic
      = arithCtrl (funct3Of w) (w.getLsbD 5 && w.getLsbD 30)
          (if w.getLsbD 5 then w.getLsbD 30 else immBit10) := by
  have htable : ∀ (f : BitVec 3) (x y k : Bool),
      (if f = 0b000#3 then (if x && y then AluCtrl.sub else .addAddi)
        else if f = 0b100#3 then .xorXori
        else if f = 0b110#3 then .orOri
        else if f = 0b111#3 then .andAndi
        else if f = 0b010#3 then .sltSlti
        else if f = 0b001#3 then .sllSlli
        else if f = 0b011#3 then .sltuSltiu
        else if (x && !y) || (!x && !k) then .srlSrli
        else .sraSrai)
      = arithCtrl f (x && y) (if x then y else k) := by
    decide
  exact htable _ _ _ _

/-! ## Encodings -/

variable {w : Word} {i : Instr}

theorem decode_cases (h : decode w = some i) :
    (opOf w = 0b0110011#7 ∧ decodeOp w = some i) ∨
      (opOf w = 0b0010011#7 ∧ decodeOpImm w = some i) ∨
      (opOf w = 0b0110111#7 ∧ i = .lui (rdOf w) (w.extractLsb' 12 20 ++ 0#12)) ∨
      (opOf w = 0b0010111#7 ∧ i = .auipc (rdOf w) (w.extractLsb' 12 20 ++ 0#12)) := by
  unfold decode at h
  split at h
  · rename_i hop
    exact .inl ⟨hop, h⟩
  · split at h
    · rename_i hop
      exact .inr (.inl ⟨hop, h⟩)
    · split at h
      · rename_i hop
        exact .inr (.inr (.inl ⟨hop, (Option.some.inj h).symm⟩))
      · split at h
        · rename_i hop
          exact .inr (.inr (.inr ⟨hop, (Option.some.inj h).symm⟩))
        · exact absurd h (by simp)

/-- `OP`: bit 25 tells the M extension from the rest, and the decoder finds the
operation. -/
theorem decodeOp_cases (hop : opOf w = 0b0110011#7) (h : decodeOp w = some i) :
    (w.getLsbD 25 = false ∧ ∃ f, i = .op f (rdOf w) (rs1Of w) (rs2Of w) ∧
        ∀ k, aluDecoder k w .arithLogic = ctrlOf f) ∨
      (w.getLsbD 25 = true ∧
        i = .mulDiv (mulDivOp (funct3Of w)) (rdOf w) (rs1Of w) (rs2Of w)) := by
  have hbase : ∀ f3 : BitVec 3, arithCtrl f3 false false = ctrlOf (baseOp f3) := by decide
  have h5 : w.getLsbD 5 = true := by
    rw [bit5_eq, hop]
    decide
  -- one case for each `funct7` that `OP` knows
  unfold decodeOp at h
  split at h
  · rename_i h7
    refine .inl ⟨by rw [bit25_eq, h7]; decide, _, (Option.some.inj h).symm, fun k => ?_⟩
    have h30 : w.getLsbD 30 = false := by
      rw [bit30_eq, h7]
      decide
    rw [aluDecoder_arithLogic, h5, h30]
    exact hbase _
  · split at h
    · rename_i h7
      exact .inr ⟨by rw [bit25_eq, h7]; decide, (Option.some.inj h).symm⟩
    · -- `sub` and `sra`
      have halt : ∀ {f}, funct7Of w = 32#7 → arithCtrl (funct3Of w) true true = ctrlOf f →
          w.getLsbD 25 = false ∧ ∀ k, aluDecoder k w .arithLogic = ctrlOf f := by
        intro f h7 hc
        refine ⟨by rw [bit25_eq, h7]; decide, fun k => ?_⟩
        have h30 : w.getLsbD 30 = true := by
          rw [bit30_eq, h7]
          decide
        rw [aluDecoder_arithLogic, h5, h30]
        exact hc
      left
      split at h
      · rename_i h7
        obtain ⟨h25, hc⟩ := halt (f := .sub) h7.1 (by rw [h7.2]; rfl)
        exact ⟨h25, _, (Option.some.inj h).symm, hc⟩
      · split at h
        · rename_i h7
          obtain ⟨h25, hc⟩ := halt (f := .sra) h7.1 (by rw [h7.2]; rfl)
          exact ⟨h25, _, (Option.some.inj h).symm, hc⟩
        · exact absurd h (by simp)

/-- The immediate of `OP-IMM`. -/
theorem immExtOf_itype (hop : opOf w = 0b0010011#7) :
    immExtOf w = (w.extractLsb' 20 12).signExtend 32 := by
  simp [immExtOf, immSrcOf, isRtype, isItype, hop, extend]

/-- The immediate of `LUI` and `AUIPC`. -/
theorem immExtOf_utype (hop : opOf w = 0b0110111#7 ∨ opOf w = 0b0010111#7) :
    immExtOf w = w.extractLsb' 12 20 ++ 0#12 := by
  rcases hop with hop | hop <;>
    simp [immExtOf, immSrcOf, isRtype, isItype, isJalr, isLoad, isCsr, isStore, isBranch, isLui,
      isAuipc, hop, extend]

/-- The low bits of the immediate are the shift amount, and bit 10 is that of
`funct7`. -/
theorem immExtOf_shamt (hop : opOf w = 0b0010011#7) :
    (immExtOf w).toNat % 32 = ((rs2Of w).setWidth 32).toNat % 32 ∧
      (immExtOf w).getLsbD 10 = w.getLsbD 30 := by
  rw [immExtOf_itype hop]
  constructor
  · rw [← shamt_eq, ← shamt_eq]
    congr 1
    apply BitVec.eq_of_getLsbD_eq
    intro k hk
    simp only [rs2Of, BitVec.getLsbD_extractLsb', BitVec.getLsbD_signExtend,
      BitVec.getLsbD_setWidth, Nat.zero_add, hk, decide_true, Bool.true_and,
      show k < 32 by omega, show k < 12 by omega, if_true]
  · rw [BitVec.getLsbD_signExtend]
    simp

/-- Shifts depend on the shift amount only. -/
theorem eval_shift_congr {f : IntOp} (hf : f = .sll ∨ f = .srl ∨ f = .sra) {b b' : Word}
    (hb : b.toNat % 32 = b'.toNat % 32) (a : Word) : f.eval a b = f.eval a b' := by
  rcases hf with rfl | rfl | rfl <;> simp only [IntOp.eval, hb]

/-- `OP-IMM`: the ALU computes the operation on the immediate. -/
theorem decodeOpImm_cases (hop : opOf w = 0b0010011#7) (h : decodeOpImm w = some i) :
    ∃ f imm, i = .opImm f (rdOf w) (rs1Of w) imm ∧
      ∀ a, alu a (immExtOf w) (aluDecoder ((immExtOf w).getLsbD 10) w .arithLogic)
        = f.eval a imm := by
  obtain ⟨hshamt, h10⟩ := immExtOf_shamt hop
  have h5 : w.getLsbD 5 = false := by
    rw [bit5_eq, hop]
    decide
  have hdec : aluDecoder ((immExtOf w).getLsbD 10) w .arithLogic
      = arithCtrl (funct3Of w) false (w.getLsbD 30) := by
    rw [aluDecoder_arithLogic, h5, h10]
    rfl
  -- a shift: the amount is all that counts
  have hshift : ∀ {f}, (f = .sll ∨ f = .srl ∨ f = .sra) →
      arithCtrl (funct3Of w) false (w.getLsbD 30) = ctrlOf f →
      ∀ a, alu a (immExtOf w) (aluDecoder ((immExtOf w).getLsbD 10) w .arithLogic)
        = f.eval a ((rs2Of w).setWidth 32) := by
    intro f hf hc a
    rw [hdec, hc, alu_ctrlOf]
    exact eval_shift_congr hf hshamt a
  unfold decodeOpImm at h
  simp only at h
  split at h
  · rename_i h3
    split at h
    · exact ⟨_, _, (Option.some.inj h).symm, hshift (.inl rfl) (by rw [h3]; rfl)⟩
    · exact absurd h (by simp)
  · split at h
    · rename_i h3
      split at h
      · rename_i h7
        refine ⟨_, _, (Option.some.inj h).symm, hshift (.inr (.inl rfl)) ?_⟩
        rw [h3, bit30_eq, h7]
        rfl
      · split at h
        · rename_i h7
          refine ⟨_, _, (Option.some.inj h).symm, hshift (.inr (.inr rfl)) ?_⟩
          rw [h3, bit30_eq, h7]
          rfl
        · exact absurd h (by simp)
    · rename_i h1 h3
      refine ⟨_, _, (Option.some.inj h).symm, fun a => ?_⟩
      have hbase : ∀ (f3 : BitVec 3) (b : Bool), f3 ≠ 5#3 →
          arithCtrl f3 false b = ctrlOf (baseOp f3) := by decide
      rw [hdec, hbase _ _ h3, alu_ctrlOf, immExtOf_itype hop]

end KianRiscV
