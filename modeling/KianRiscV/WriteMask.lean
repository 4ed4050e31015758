/-
# Byte masks

What a masked write does to a word, bit by bit.  The caches merge with an expanded mask,
`(old & ~wmask32) | (new & wmask32)`, and a RAM replaces byte lanes; both are `mergeBytes`.
-/
import KianRiscV.Cpu
import KianRiscV.MemoryPort

namespace KianRiscV

/-- `expand_wmask`: every bit of the mask over its byte. -/
def expandWmask (m : BitVec 4) : Word :=
  (BitVec.ofBool (m.getLsbD 3)).replicate 8 ++ (BitVec.ofBool (m.getLsbD 2)).replicate 8 ++
    (BitVec.ofBool (m.getLsbD 1)).replicate 8 ++ (BitVec.ofBool (m.getLsbD 0)).replicate 8

theorem getLsbD_mergeBytes (m : BitVec 4) (old new : Word) {k : ℕ} (hk : k < 32) :
    (mergeBytes m old new).getLsbD k =
      if m.getLsbD (k / 8) then new.getLsbD k else old.getLsbD k := by
  have hlane : ∀ j, j < 8 → ∀ i, i < 4 →
      (if m.getLsbD i then new.extractLsb' (8 * i) 8 else old.extractLsb' (8 * i) 8).getLsbD j =
        if m.getLsbD i then new.getLsbD (8 * i + j) else old.getLsbD (8 * i + j) := by
    intro j hj i _
    split <;> simp [hj]
  obtain ⟨i, j, hi, hj, rfl⟩ : ∃ i j, i < 4 ∧ j < 8 ∧ k = 8 * i + j :=
    ⟨k / 8, k % 8, by omega, by omega, by omega⟩
  have hdiv : (8 * i + j) / 8 = i := by omega
  rw [hdiv]
  obtain rfl | rfl | rfl | rfl : i = 0 ∨ i = 1 ∨ i = 2 ∨ i = 3 := by omega
  all_goals
    simp only [mergeBytes, BitVec.getLsbD_append]
    rw [← hlane j hj _ hi]
  · rw [if_pos (by omega)]
    congr 1
    omega
  · rw [if_neg (by omega), if_pos (by omega)]
    congr 1
    omega
  · rw [if_neg (by omega), if_neg (by omega), if_pos (by omega)]
    congr 1
    omega
  · rw [if_neg (by omega), if_neg (by omega), if_neg (by omega)]
    congr 1
    omega

theorem mergeBytes_zero (old new : Word) : mergeBytes 0#4 old new = old := by
  apply BitVec.eq_of_getLsbD_eq
  intro k hk
  rw [getLsbD_mergeBytes _ _ _ hk]
  simp

theorem getLsbD_expandWmask (m : BitVec 4) {k : ℕ} (hk : k < 32) :
    (expandWmask m).getLsbD k = m.getLsbD (k / 8) := by
  have h : ∀ (m : BitVec 4) (k : Fin 32), (expandWmask m).getLsbD k = m.getLsbD (k / 8) := by
    decide +kernel
  exact h m ⟨k, hk⟩

/-- The merge as the caches write it. -/
theorem merge_expandWmask (m : BitVec 4) (old new : Word) :
    (old &&& ~~~ expandWmask m) ||| (new &&& expandWmask m) = mergeBytes m old new := by
  apply BitVec.eq_of_getLsbD_eq
  intro k hk
  rw [getLsbD_mergeBytes _ _ _ hk]
  simp only [BitVec.getLsbD_or, BitVec.getLsbD_and, BitVec.getLsbD_not, getLsbD_expandWmask m hk,
    decide_eq_true hk, Bool.true_and]
  cases m.getLsbD (k / 8) <;> simp

theorem mergeBytes_full (old new : Word) : mergeBytes 0xf#4 old new = new := by
  apply BitVec.eq_of_getLsbD_eq
  intro k hk
  have hbit : ∀ i : Fin 4, (0xf#4).getLsbD i = true := by decide
  rw [getLsbD_mergeBytes _ _ _ hk, hbit ⟨k / 8, by omega⟩]
  simp

/-- The port of the caches and the RAM: byte addresses, word-organised. -/
def wordPort : MemoryPort.Format Word (BitVec 30) (BitVec 4) Word where
  word := fun addr => addr.extractLsb' 2 30
  read := 0#4
  merge := mergeBytes
  merge_read := mergeBytes_zero

end KianRiscV
