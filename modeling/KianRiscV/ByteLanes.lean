/-
# Byte lanes

The load and store units against a memory of bytes.  The word memory behind the bus is read byte
by byte, and the lane that `load_alignment` picks, or the mask and the shifted data of
`store_alignment`, are those of the little-endian order as long as the access does not leave its
word.
-/
import KianRiscV.Rv32im
import KianRiscV.WriteMask

namespace KianRiscV

open Rv32im

/-! ## A word memory as bytes -/

/-- The byte at a physical address. -/
def bytesOf (content : BitVec 32 → Word) : BitVec 34 → BitVec 8 := fun a =>
  (content (wordAddr a)).extractLsb' (8 * (a.toNat % 4)) 8

theorem toNat_wordAddr (a : BitVec 34) : (wordAddr a).toNat = a.toNat / 4 := by
  rw [wordAddr, BitVec.extractLsb'_toNat, Nat.shiftRight_eq_div_pow]
  omega

/-- The addresses of one word. -/
theorem wordAddr_add {a : BitVec 34} {k : ℕ} (h : a.toNat % 4 + k < 4) :
    wordAddr (a + BitVec.ofNat 34 k) = wordAddr a ∧
      (a + BitVec.ofNat 34 k).toNat % 4 = a.toNat % 4 + k := by
  have ha := a.isLt
  have hsum : (a + BitVec.ofNat 34 k).toNat = a.toNat + k := by
    rw [BitVec.toNat_add, BitVec.toNat_ofNat]
    omega
  refine ⟨BitVec.eq_of_toNat_eq ?_, ?_⟩
  · rw [toNat_wordAddr, toNat_wordAddr, hsum]
    omega
  · rw [hsum]
    omega

theorem bytesOf_add (content : BitVec 32 → Word) {a : BitVec 34} {k : ℕ}
    (h : a.toNat % 4 + k < 4) :
    bytesOf content (a + BitVec.ofNat 34 k) =
      (content (wordAddr a)).extractLsb' (8 * (a.toNat % 4 + k)) 8 := by
  obtain ⟨hw, hlow⟩ := wordAddr_add h
  rw [bytesOf, hw, hlow]

/-! ## Loads -/

/-- The operation of `load_alignment`. -/
def loadOpOf : Width → Bool → LoadOp
  | .byte, true => .lb
  | .byte, false => .lbu
  | .half, true => .lh
  | .half, false => .lhu
  | .word, _ => .lw

theorem extractLsb'_append_bytes (x : Word) (k : ℕ) :
    x.extractLsb' (8 * (k + 1)) 8 ++ x.extractLsb' (8 * k) 8 = x.extractLsb' (8 * k) 16 := by
  apply BitVec.eq_of_getLsbD_eq
  intro j hj
  rw [BitVec.getLsbD_append, BitVec.getLsbD_extractLsb', BitVec.getLsbD_extractLsb',
    BitVec.getLsbD_extractLsb']
  rcases Nat.lt_or_ge j 8 with h | h
  · simp [h, hj]
  · simp [show ¬ j < 8 by omega, hj, show j - 8 < 8 by omega,
      show 8 * (k + 1) + (j - 8) = 8 * k + j by omega]

theorem append_bytes (x : Word) :
    x.extractLsb' 24 8 ++ x.extractLsb' 16 8 ++ x.extractLsb' 8 8 ++ x.extractLsb' 0 8 = x :=
  mergeBytes_full x x

/-- The byte of an address, as `load_alignment` picks it. -/
theorem byte_of_low (x : Word) (low : BitVec 2) :
    (if low = 0b00#2 then x.extractLsb' 0 8 else if low = 0b01#2 then x.extractLsb' 8 8
      else if low = 0b10#2 then x.extractLsb' 16 8 else x.extractLsb' 24 8) =
      x.extractLsb' (8 * low.toNat) 8 := by
  have hlow : low = 0#2 ∨ low = 1#2 ∨ low = 2#2 ∨ low = 3#2 := by
    revert low
    decide
  rcases hlow with rfl | rfl | rfl | rfl <;> rfl

/-- `load_alignment` returns the addressed bytes. -/
theorem loadAlignment_eq (content : BitVec 32 → Word) {a : BitVec 34} {width : Width}
    (signed : Bool) (hal : a.toNat % width.bytes = 0) {low : BitVec 2}
    (hlow : low.toNat = a.toNat % 4) :
    loadAlignment low (loadOpOf width signed) (content (wordAddr a)) =
      loadBytes width signed (bytesOf content) a := by
  cases width with
  | byte =>
    have h0 := bytesOf_add content (a := a) (k := 0) (by omega)
    simp only [loadBytes, Width.value, h0, Nat.add_zero, ← hlow]
    cases signed <;> simp only [loadOpOf, loadAlignment, byte_of_low] <;> rfl
  | half =>
    simp only [Width.bytes] at hal
    have h0 := bytesOf_add content (a := a) (k := 0) (by omega)
    have h1 := bytesOf_add content (a := a) (k := 1) (by omega)
    have hhalf : (if !low.getLsbD 1 then (content (wordAddr a)).extractLsb' 0 16
        else (content (wordAddr a)).extractLsb' 16 16) =
        (content (wordAddr a)).extractLsb' (8 * low.toNat) 16 := by
      -- an aligned halfword is in the low or in the high half
      have hcases : low = 0#2 ∨ low = 2#2 := by
        have hz : low.toNat % 2 = 0 := by omega
        clear hlow h0 h1
        revert low
        decide
      rcases hcases with rfl | rfl <;> rfl
    simp only [loadBytes, Width.value, h0, h1, Nat.add_zero, extractLsb'_append_bytes, ← hlow]
    cases signed <;> simp only [loadOpOf, loadAlignment, hhalf] <;> rfl
  | word =>
    simp only [Width.bytes] at hal
    have hb : ∀ k, k < 4 → bytesOf content (a + BitVec.ofNat 34 k) =
        (content (wordAddr a)).extractLsb' (8 * k) 8 := by
      intro k hk
      rw [bytesOf_add content (by omega), hal, Nat.zero_add]
    have hval : loadBytes .word signed (bytesOf content) a = content (wordAddr a) := by
      rw [loadBytes, Width.value, hb 0 (by decide), hb 1 (by decide), hb 2 (by decide),
        hb 3 (by decide)]
      exact append_bytes _
    rw [hval]
    cases signed <;> rfl

/-! ## Stores -/

/-- The operation of `store_alignment`. -/
def storeOpOf : Width → StoreOp
  | .byte => .sb
  | .half => .sh
  | .word => .sw

theorem extractLsb'_mergeBytes (m : BitVec 4) (old new : Word) {k : ℕ} (hk : k < 4) :
    (mergeBytes m old new).extractLsb' (8 * k) 8 =
      if m.getLsbD k then new.extractLsb' (8 * k) 8 else old.extractLsb' (8 * k) 8 := by
  apply BitVec.eq_of_getLsbD_eq
  intro j hj
  rw [BitVec.getLsbD_extractLsb', getLsbD_mergeBytes m old new (by omega),
    show (8 * k + j) / 8 = k by omega]
  split <;> simp [hj]

/-- The mask of `store_alignment` enables the addressed bytes. -/
theorem storeWmask_eq {width : Width} {low : BitVec 2} (hal : low.toNat % width.bytes = 0) {k : ℕ}
    (hk : k < 4) :
    (storeWmask low (storeOpOf width)).getLsbD k =
      decide (low.toNat ≤ k ∧ k < low.toNat + width.bytes) := by
  have hcheck : ∀ (width : Fin 3) (low : BitVec 2) (k : Fin 4),
      low.toNat % (([Width.byte, .half, .word].get width).bytes) = 0 →
      (storeWmask low (storeOpOf ([Width.byte, .half, .word].get width))).getLsbD k =
        decide (low.toNat ≤ k ∧ k < low.toNat + ([Width.byte, .half, .word].get width).bytes) := by
    decide
  cases width with
  | byte => exact hcheck 0 low ⟨k, hk⟩ hal
  | half => exact hcheck 1 low ⟨k, hk⟩ hal
  | word => exact hcheck 2 low ⟨k, hk⟩ hal

theorem extractLsb'_shiftLeft_bytes (x : Word) {m k : ℕ} (hm : m ≤ k) (hk : k < 4) :
    (x <<< (8 * m)).extractLsb' (8 * k) 8 = x.extractLsb' (8 * (k - m)) 8 := by
  apply BitVec.eq_of_getLsbD_eq
  intro j hj
  rw [BitVec.getLsbD_extractLsb', BitVec.getLsbD_shiftLeft, BitVec.getLsbD_extractLsb',
    show 8 * k + j - 8 * m = 8 * (k - m) + j by omega]
  simp only [hj, show 8 * k + j < 32 by omega, show ¬ 8 * k + j < 8 * m by omega, decide_true,
    decide_false, Bool.not_false, Bool.true_and]

theorem extractLsb'_low_bytes (v : Word) {n j : ℕ} (h : 8 * j + 8 ≤ n) (hn : n ≤ 32) :
    ((v.extractLsb' 0 n).setWidth 32).extractLsb' (8 * j) 8 = v.extractLsb' (8 * j) 8 := by
  apply BitVec.eq_of_getLsbD_eq
  intro l hl
  simp [hl, show 8 * j + l < 32 by omega, show 8 * j + l < n by omega]

/-- The data of `store_alignment` has the low bytes in the addressed lanes. -/
theorem storeAlignment_eq {width : Width} {low : BitVec 2} (hal : low.toNat % width.bytes = 0)
    (v : Word) {k : ℕ} (hk : low.toNat ≤ k ∧ k < low.toNat + width.bytes) :
    (storeAlignment low (storeOpOf width) v).extractLsb' (8 * k) 8 =
      v.extractLsb' (8 * (k - low.toNat)) 8 := by
  have hlow := low.isLt
  cases width with
  | byte =>
    simp only [Width.bytes] at hk
    have hdata : storeAlignment low .sb v = (v.extractLsb' 0 8).setWidth 32 <<< (8 * low.toNat) := by
      have hcases : low = 0#2 ∨ low = 1#2 ∨ low = 2#2 ∨ low = 3#2 := by
        clear hal hk hlow
        revert low
        decide
      rcases hcases with rfl | rfl | rfl | rfl
      · exact (BitVec.shiftLeft_zero _).symm
      all_goals rfl
    rw [storeOpOf, hdata, extractLsb'_shiftLeft_bytes _ hk.1 (by omega),
      extractLsb'_low_bytes v (by omega) (by decide)]
  | half =>
    simp only [Width.bytes] at hk hal
    have hdata : storeAlignment low .sh v = (v.extractLsb' 0 16).setWidth 32 <<< (8 * low.toNat) := by
      have hcases : low = 0#2 ∨ low = 2#2 := by
        clear hk hlow
        revert low
        decide
      rcases hcases with rfl | rfl
      · exact (BitVec.shiftLeft_zero _).symm
      · rfl
    rw [storeOpOf, hdata, extractLsb'_shiftLeft_bytes _ hk.1 (by omega),
      extractLsb'_low_bytes v (by omega) (by decide)]
  | word =>
    simp only [Width.bytes] at hk hal
    have hz : low.toNat = 0 := by omega
    rw [hz, Nat.sub_zero]
    rfl

/-- The distance of an address from the accessed one, in its word and elsewhere. -/
theorem distance_cases {a b : BitVec 34} {n : ℕ} (hfit : a.toNat % 4 + n ≤ 4) :
    (wordAddr b = wordAddr a ∧ (b - a).toNat < n ∧ a.toNat % 4 ≤ b.toNat % 4 ∧
        (b - a).toNat = b.toNat % 4 - a.toNat % 4) ∨
      (wordAddr b = wordAddr a ∧ ¬ (b - a).toNat < n ∧
        ¬ (a.toNat % 4 ≤ b.toNat % 4 ∧ b.toNat % 4 < a.toNat % 4 + n)) ∨
      (wordAddr b ≠ wordAddr a ∧ ¬ (b - a).toNat < n) := by
  have ha := a.isLt
  have hb := b.isLt
  have hsub : (b - a).toNat = (2 ^ 34 - a.toNat + b.toNat) % 2 ^ 34 := BitVec.toNat_sub _ _
  have hword : wordAddr b = wordAddr a ↔ b.toNat / 4 = a.toNat / 4 := by
    rw [← toNat_wordAddr, ← toNat_wordAddr, BitVec.toNat_inj]
  rw [ne_eq, hword, hsub]
  omega

/-- A store serves the addressed bytes and no others. -/
theorem bytesOf_served (content : BitVec 32 → Word) {a : BitVec 34} {width : Width}
    (hal : a.toNat % width.bytes = 0) {low : BitVec 2} (hlow : low.toNat = a.toNat % 4) (v : Word) :
    bytesOf (fun b => if b = wordAddr a then
        mergeBytes (storeWmask low (storeOpOf width)) (content b)
          (storeAlignment low (storeOpOf width) v) else content b) =
      storeBytes width (bytesOf content) a v := by
  have hal' : low.toNat % width.bytes = 0 := by
    cases width <;> simp only [Width.bytes] at hal ⊢ <;> omega
  have hfit : a.toNat % 4 + width.bytes ≤ 4 := by
    cases width <;> simp only [Width.bytes] at hal ⊢ <;> omega
  funext b
  have hb : b.toNat % 4 < 4 := Nat.mod_lt _ (by decide)
  unfold storeBytes bytesOf
  beta_reduce
  rcases distance_cases (b := b) hfit with ⟨hw, hd, hle, hdist⟩ | ⟨hw, hd, hout⟩ | ⟨hw, hd⟩
  · rw [if_pos hw, if_pos hd, extractLsb'_mergeBytes _ _ _ hb, storeWmask_eq hal' hb, hlow,
      decide_eq_true ⟨hle, by omega⟩, if_pos rfl, hdist, ← hlow]
    exact storeAlignment_eq hal' v ⟨by omega, by omega⟩
  · rw [if_pos hw, if_neg hd, extractLsb'_mergeBytes _ _ _ hb, storeWmask_eq hal' hb, hlow,
      decide_eq_false hout, if_neg Bool.false_ne_true]
  · rw [if_neg hw, if_neg hd]

/-! ## A load after a store -/

theorem getLsbD_extend {n : ℕ} (x : BitVec n) (signed : Bool) {j : ℕ} (hj : j < n) (hn : n ≤ 32) :
    (if signed then x.signExtend 32 else x.setWidth 32).getLsbD j = x.getLsbD j := by
  cases signed
  · simp [show j < 32 by omega]
  · rw [if_pos rfl, BitVec.getLsbD_signExtend, if_pos hj, decide_eq_true (by omega), Bool.true_and]

/-- The bytes of a load. -/
theorem extractLsb'_value (width : Width) (signed : Bool) (b : ℕ → BitVec 8) {k : ℕ}
    (hk : k < width.bytes) : (width.value signed b).extractLsb' (8 * k) 8 = b k := by
  apply BitVec.eq_of_getLsbD_eq
  intro j hj
  rw [BitVec.getLsbD_extractLsb', decide_eq_true hj, Bool.true_and]
  cases width with
  | byte =>
    obtain rfl : k = 0 := by simpa [Width.bytes] using hk
    simp only [Width.value]
    rw [getLsbD_extend _ _ (by omega) (by decide), Nat.mul_zero, Nat.zero_add]
  | half =>
    simp only [Width.value]
    simp only [Width.bytes] at hk
    rw [getLsbD_extend _ _ (by omega) (by decide), BitVec.getLsbD_append]
    obtain rfl | rfl : k = 0 ∨ k = 1 := by omega
    · rw [if_pos (by omega), Nat.mul_zero, Nat.zero_add]
    · rw [if_neg (by omega), show 8 * 1 + j - 8 = j by omega]
  | word =>
    simp only [Width.value, BitVec.getLsbD_append]
    simp only [Width.bytes] at hk
    obtain rfl | rfl | rfl | rfl : k = 0 ∨ k = 1 ∨ k = 2 ∨ k = 3 := by omega
    · rw [if_pos (by omega), Nat.mul_zero, Nat.zero_add]
    · rw [if_neg (by omega), if_pos (by omega), show 8 * 1 + j - 8 = j by omega]
    · rw [if_neg (by omega), if_neg (by omega), if_pos (by omega),
        show 8 * 2 + j - 8 - 8 = j by omega]
    · rw [if_neg (by omega), if_neg (by omega), if_neg (by omega),
        show 8 * 3 + j - 8 - 8 - 8 = j by omega]

/-- A load returns the stored bytes where it overlaps the store, and the old ones elsewhere. -/
theorem load_after_store {n : ℕ} (m : BitVec n → BitVec 8) (a b : BitVec n) (v : Word)
    (width width' : Width) (signed : Bool) {k : ℕ} (hk : k < width'.bytes) :
    (loadBytes width' signed (storeBytes width m a v) b).extractLsb' (8 * k) 8 =
      if (b + BitVec.ofNat n k - a).toNat < width.bytes then
        v.extractLsb' (8 * (b + BitVec.ofNat n k - a).toNat) 8
      else m (b + BitVec.ofNat n k) := by
  rw [loadBytes, extractLsb'_value _ _ _ hk, storeBytes]

end KianRiscV
