/-
# Sv32 as the privileged architecture defines it

The two-level walk from `satp.PPN` and the permission rules, in terms of the fields of
addresses and entries, and the proof that `sv32` with empty TLBs computes them: a request
held until it ends is either an access at exactly the address given by the walk, or a
page fault.
-/
import KianRiscV.TranslationResult

namespace KianRiscV

/-! ## Fields -/

/-- `VPN[1]`, `VPN[0]` and the page offset of a virtual address. -/
def vpn1Of (address : Word) : BitVec 10 := address.extractLsb' 22 10

def vpn0Of (address : Word) : BitVec 10 := address.extractLsb' 12 10

def offsetOf (address : Word) : BitVec 12 := address.extractLsb' 0 12

/-- The page number in a page-table entry and in `satp`. -/
def ppnOf (pte : Word) : BitVec 22 := pte.extractLsb' 10 22

def satpPpnOf (satp : Word) : BitVec 22 := satp.extractLsb' 0 22

/-- The physical address of an entry of the table on page `ppn`. -/
def entryAddr (ppn : BitVec 22) (vpn : BitVec 10) : BitVec 34 := ppn ++ vpn ++ 0#2

/-! ## The specification -/

/-- The entries of the two levels for a virtual address. -/
def specPte1 (rd : BitVec 32 → Word) (satp address : Word) : Word :=
  rd (wordAddr (entryAddr (satpPpnOf satp) (vpn1Of address)))

def specPte0 (rd : BitVec 32 → Word) (satp address : Word) : Word :=
  rd (wordAddr (entryAddr (ppnOf (specPte1 rd satp address)) (vpn0Of address)))

/-- The leaf permits the access: the kind of access by `X`, `R` (with `MXR` also `X`) or
`W`, and the mode by `U`, with `SUM` for data accesses from supervisor mode. -/
def permits (r : CpuReq) (pte : Word) : Bool :=
  let kind :=
    if r.isInstruction then pteX pte
    else if r.wstrb != 0#4 then pteW pte
    else pteR pte || (bitOf r.mstatus 19 && pteX pte)
  let mode :=
    if isSupervisor r.privilegeMode then
      !pteU pte || (!r.isInstruction && bitOf r.mstatus 18)
    else pteU pte
  kind && mode

/-- The result of a request: the walk, then the permissions of its leaf.  A leaf at level
1 maps a 4 MiB page. -/
def specOutcome (rd : BitVec 32 → Word) (r : CpuReq) : Outcome :=
  let pte1 := specPte1 rd r.satp r.addr
  let pte0 := specPte0 rd r.satp r.addr
  if !pteV pte1 then .pageFault
  else if pteIsPointer pte1 then
    if !pteV pte0 then .pageFault
    else if permits r pte0 then .physical (ppnOf pte0 ++ offsetOf r.addr)
    else .pageFault
  else if permits r pte1 then
    .physical (0#2 ++ (ppnOf pte1).extractLsb' 10 10 ++ vpn0Of r.addr ++ offsetOf r.addr)
  else .pageFault

/-- The page tables the specification is claimed for: page numbers below `2^20`, no
pointer at level 0, aligned 4 MiB leaves, and no leaf that is writable but not
readable. -/
structure WellFormedPath (rd : BitVec 32 → Word) (satp address : Word) : Prop where
  root : (satpPpnOf satp).toNat < 2 ^ 20
  ppn1 : pteV (specPte1 rd satp address) = true →
    (ppnOf (specPte1 rd satp address)).toNat < 2 ^ 20
  leaf1 : pteV (specPte1 rd satp address) = true →
    pteIsPointer (specPte1 rd satp address) = false →
    (ppnOf (specPte1 rd satp address)).extractLsb' 0 10 = 0#10 ∧
      (pteR (specPte1 rd satp address) = true ∨ pteW (specPte1 rd satp address) = false)
  leaf0 : pteV (specPte1 rd satp address) = true →
    pteIsPointer (specPte1 rd satp address) = true →
    pteV (specPte0 rd satp address) = true →
    (ppnOf (specPte0 rd satp address)).toNat < 2 ^ 20 ∧
      pteIsPointer (specPte0 rd satp address) = false ∧
      (pteR (specPte0 rd satp address) = true ∨ pteW (specPte0 rd satp address) = false)

/-! ## Addresses of entries -/

theorem entryAddr_toNat (ppn : BitVec 22) (vpn : BitVec 10) :
    (entryAddr ppn vpn).toNat = ppn.toNat * 4096 + vpn.toNat * 4 := by
  have hv := vpn.isLt
  simp only [entryAddr, BitVec.toNat_append]
  rw [← Nat.shiftLeft_add_eq_or_of_lt hv,
    ← Nat.shiftLeft_add_eq_or_of_lt (show (0#2).toNat < 2 ^ 2 by decide)]
  simp only [Nat.shiftLeft_eq, BitVec.toNat_ofNat]
  omega

/-- The 32-bit sum of the walker is the address of the entry. -/
theorem add_index_eq {base : Word} {ppn : BitVec 22}
    (hb : base.toNat = ppn.toNat * 4096) (vpn : BitVec 10) :
    (base + (vpn.setWidth 32 <<< 2)).setWidth 34 = entryAddr ppn vpn := by
  apply BitVec.eq_of_toNat_eq
  have hv := vpn.isLt
  rw [entryAddr_toNat]
  simp only [BitVec.toNat_setWidth, BitVec.toNat_add, BitVec.toNat_shiftLeft, hb, Nat.shiftLeft_eq]
  omega

theorem index_level1 (address : Word) : (vpnOf address >>> 10).setWidth 10 = vpn1Of address := by
  apply BitVec.eq_of_toNat_eq
  simp only [vpnOf, vpn1Of, BitVec.toNat_setWidth, BitVec.toNat_ushiftRight,
    BitVec.extractLsb'_toNat, Nat.shiftRight_eq_div_pow]
  have := address.isLt
  omega

theorem index_level0 (address : Word) : (vpnOf address >>> 0).setWidth 10 = vpn0Of address := by
  apply BitVec.eq_of_toNat_eq
  simp only [vpnOf, vpn0Of, BitVec.toNat_setWidth, BitVec.toNat_ushiftRight,
    BitVec.extractLsb'_toNat, Nat.shiftRight_eq_div_pow]
  omega

theorem satpBase_toNat {satp : Word} (h : (satpPpnOf satp).toNat < 2 ^ 20) :
    (satpBase satp).toNat = (satpPpnOf satp).toNat * 4096 := by
  have hand : satp.toNat &&& 4194303 = satp.toNat % 2 ^ 22 := Nat.and_two_pow_sub_one_eq_mod _ 22
  simp only [satpPpnOf, BitVec.extractLsb'_toNat, Nat.shiftRight_zero] at h ⊢
  simp only [satpBase, BitVec.toNat_shiftLeft, BitVec.toNat_and, BitVec.toNat_ofNat,
    Nat.shiftLeft_eq]
  rw [show 0x003FFFFF % 2 ^ 32 = 4194303 from rfl, hand]
  omega

theorem pointerBase_toNat {pte : Word} (h : (ppnOf pte).toNat < 2 ^ 20) :
    (pointerBase pte).toNat = (ppnOf pte).toNat * 4096 := by
  have hlt := pte.isLt
  simp only [ppnOf, BitVec.extractLsb'_toNat, Nat.shiftRight_eq_div_pow] at h ⊢
  simp only [pointerBase, BitVec.toNat_shiftLeft, BitVec.toNat_ushiftRight, Nat.shiftLeft_eq,
    Nat.shiftRight_eq_div_pow]
  omega

/-- The addresses of the entries of both levels. -/
theorem walkMemAddr_root {satp : Word} (h : (satpPpnOf satp).toNat < 2 ^ 20) (address : Word) :
    (walkMemAddr (satpBase satp) address 1#2).setWidth 34
      = entryAddr (satpPpnOf satp) (vpn1Of address) := by
  rw [← index_level1, ← add_index_eq (satpBase_toNat h)]
  rfl

theorem walkMemAddr_pointer {pte : Word} (h : (ppnOf pte).toNat < 2 ^ 20) (address : Word) :
    (walkMemAddr (pointerBase pte) address 0#2).setWidth 34
      = entryAddr (ppnOf pte) (vpn0Of address) := by
  rw [← index_level0, ← add_index_eq (pointerBase_toNat h)]
  rfl

theorem pathPte1_eq (rd : BitVec 32 → Word) {satp : Word}
    (h : (satpPpnOf satp).toNat < 2 ^ 20) (address : Word) :
    pathPte1 rd satp address = specPte1 rd satp address := by
  rw [pathPte1, pteWord, walkMemAddr_root h, specPte1]

theorem pathPte0_eq (rd : BitVec 32 → Word) {satp : Word}
    (h : (satpPpnOf satp).toNat < 2 ^ 20) {address : Word}
    (h1 : (ppnOf (specPte1 rd satp address)).toNat < 2 ^ 20) :
    pathPte0 rd satp address = specPte0 rd satp address := by
  rw [pathPte0, pathPte1_eq rd h, pteWord, walkMemAddr_pointer h1, specPte0]

/-! ## Leaves -/

/-- The bits of a mask of low ones. -/
theorem lowMask_getLsbD {n : ℕ} (hn : n ≤ 32) (k : ℕ) :
    ((BitVec.allOnes n).setWidth 32).getLsbD k = decide (k < n) := by
  rw [BitVec.getLsbD_setWidth, BitVec.getLsbD_allOnes]
  by_cases hk : k < n
  · simp [hk, show k < 32 by omega]
  · simp [hk]

theorem flagsMask_getLsbD (k : ℕ) : (0x3FF#32).getLsbD k = decide (k < 10) :=
  lowMask_getLsbD (n := 10) (by omega) k

theorem offsetMask_getLsbD (k : ℕ) : (0xFFF#32).getLsbD k = decide (k < 12) :=
  lowMask_getLsbD (n := 12) (by omega) k

/-- The flags survive the repacking of a leaf. -/
theorem leafPte_getLsbD (level : BitVec 2) (address pte : Word) {k : ℕ} (hk : k < 10) :
    (leafPte level address pte).getLsbD k = pte.getLsbD k := by
  simp only [leafPte, BitVec.getLsbD_or, BitVec.getLsbD_shiftLeft, BitVec.getLsbD_and,
    flagsMask_getLsbD, hk, show k < 12 by omega, decide_true, Bool.not_true, Bool.and_false,
    Bool.false_and, Bool.false_or, Bool.and_true]

/-- Above them stands the page number, at level 1 with the low part of the address. -/
theorem leafPte_getLsbD_page (level : BitVec 2) (address pte : Word) {k : ℕ} (hk : 12 ≤ k) :
    (leafPte level address pte).getLsbD k
      = (decide (k < 32) && (pte.getLsbD (k - 2) ||
          (decide (level ≠ 0#2) && (decide (k < 22) && address.getLsbD k)))) := by
  have hvpn : ∀ j, (vpnOf address).getLsbD j = (decide (j < 20) && address.getLsbD (12 + j)) := by
    intro j
    simp only [vpnOf, BitVec.getLsbD_extractLsb']
  simp only [leafPte, BitVec.getLsbD_or, BitVec.getLsbD_shiftLeft, BitVec.getLsbD_and,
    flagsMask_getLsbD, show ¬ k < 10 by omega, show ¬ k < 12 by omega, decide_false,
    Bool.not_false, Bool.and_true, Bool.and_false, Bool.or_false]
  by_cases hl : level = 0#2
  · simp [hl, show 10 + (k - 12) = k - 2 by omega]
  · rw [if_neg hl]
    simp only [BitVec.getLsbD_or, BitVec.getLsbD_and, BitVec.getLsbD_setWidth,
      BitVec.getLsbD_ushiftRight, flagsMask_getLsbD, hvpn, hl, ne_eq, not_false_eq_true,
      decide_true, Bool.true_and, show 10 + (k - 12) = k - 2 by omega,
      show 12 + (k - 12) = k by omega]
    by_cases h22 : k < 22
    · simp [h22, show k - 12 < 10 by omega, show k - 12 < 20 by omega, show k - 12 < 32 by omega]
    · simp [h22, show ¬ k - 12 < 10 by omega]

/-- The bits of a translated address: the offset, then the page bits of the entry. -/
theorem physicalOf_getLsbD (pte address : Word) (k : ℕ) :
    (physicalOf pte address).getLsbD k
      = if k < 12 then address.getLsbD k else pte.getLsbD k := by
  simp only [physicalOf, BitVec.getLsbD_or, BitVec.getLsbD_setWidth, BitVec.getLsbD_shiftLeft,
    BitVec.getLsbD_ushiftRight, BitVec.getLsbD_and, offsetMask_getLsbD]
  by_cases hk : k < 12
  · simp [hk, show k < 34 by omega]
  · by_cases hk2 : k < 32
    · simp [hk, hk2, show k < 34 by omega, show 12 + (k - 12) = k by omega]
    · simp [hk, hk2, BitVec.getLsbD_of_ge pte k (by omega)]

theorem ppnOf_getLsbD (pte : Word) (k : ℕ) :
    (ppnOf pte).getLsbD k = (decide (k < 22) && pte.getLsbD (10 + k)) := by
  simp only [ppnOf, BitVec.getLsbD_extractLsb']

theorem ppnOf_high {pte : Word} (h : (ppnOf pte).toNat < 2 ^ 20) {k : ℕ} (hk : 20 ≤ k) :
    (ppnOf pte).getLsbD k = false := by
  rw [BitVec.getLsbD]
  exact Nat.testBit_lt_two_pow (lt_of_lt_of_le h (Nat.pow_le_pow_right (by omega) hk))

/-- A 4 KiB page. -/
theorem physicalOf_leaf0 {pte : Word} (h : (ppnOf pte).toNat < 2 ^ 20) (address : Word) :
    physicalOf (leafPte 0#2 address pte) address = ppnOf pte ++ offsetOf address := by
  apply BitVec.eq_of_getLsbD_eq
  intro k hk
  rw [physicalOf_getLsbD, BitVec.getLsbD_append]
  by_cases h12 : k < 12
  · simp [h12, offsetOf]
  rw [if_neg h12, if_neg h12, leafPte_getLsbD_page _ _ _ (by omega)]
  by_cases h32 : k < 32
  · rw [ppnOf_getLsbD, show 10 + (k - 12) = k - 2 by omega]
    simp [h32, show k - 12 < 22 by omega]
  · rw [ppnOf_high h (by omega)]
    simp [h32]

/-- A 4 MiB page. -/
theorem physicalOf_leaf1 {pte : Word} (hz : (ppnOf pte).extractLsb' 0 10 = 0#10)
    (address : Word) :
    physicalOf (leafPte 1#2 address pte) address
      = 0#2 ++ (ppnOf pte).extractLsb' 10 10 ++ vpn0Of address ++ offsetOf address := by
  have hlow : ∀ j, j < 10 → pte.getLsbD (10 + j) = false := by
    intro j hj
    have hb : ((ppnOf pte).extractLsb' 0 10).getLsbD j = (0#10).getLsbD j := by rw [hz]
    rw [BitVec.getLsbD_extractLsb', ppnOf_getLsbD] at hb
    simpa [hj, show j < 22 by omega] using hb
  apply BitVec.eq_of_getLsbD_eq
  intro k hk
  rw [physicalOf_getLsbD, BitVec.getLsbD_append]
  by_cases h12 : k < 12
  · simp [h12, offsetOf]
  rw [if_neg h12, if_neg h12, BitVec.getLsbD_append, leafPte_getLsbD_page _ _ _ (by omega)]
  by_cases h22 : k < 22
  · -- the low part of the page number is that of the address
    have hp := hlow (k - 12) (by omega)
    rw [show 10 + (k - 12) = k - 2 by omega] at hp
    rw [if_pos (show k - 12 < 10 by omega), hp]
    simp only [vpn0Of, BitVec.getLsbD_extractLsb', show k - 12 < 10 by omega, h22,
      show k < 32 by omega, show 12 + (k - 12) = k by omega]
    simp
  · rw [if_neg (show ¬ k - 12 < 10 by omega), BitVec.getLsbD_append]
    by_cases h32 : k < 32
    · rw [if_pos (show k - 12 - 10 < 10 by omega), BitVec.getLsbD_extractLsb', ppnOf_getLsbD,
        show 10 + (10 + (k - 12 - 10)) = k - 2 by omega]
      simp [h22, h32, show k - 12 - 10 < 10 by omega, show 10 + (k - 12 - 10) < 22 by omega]
    · rw [if_neg (show ¬ k - 12 - 10 < 10 by omega)]
      simp [h32]

/-! ## Permissions -/

/-- `MXR` sets `R` on executable pages and nothing else. -/
theorem mxrPte_getLsbD (mstatus pte : Word) (k : ℕ) :
    (mxrPte mstatus pte).getLsbD k
      = (pte.getLsbD k || (decide (k = 1) && (bitOf mstatus 19 && pteX pte))) := by
  unfold mxrPte
  rw [BitVec.getLsbD_or]
  cases bitOf mstatus 19 && pteX pte with
  | false => simp
  | true =>
    have h2 : (2#32).getLsbD k = decide (k = 1) := by
      rw [show (2#32 : Word) = BitVec.twoPow 32 1 by decide, BitVec.getLsbD_twoPow]
      by_cases hk : k = 1
      · subst hk; rfl
      · simp [hk, Ne.symm hk]
    simp [h2]

theorem physicalOf_seenPte (r : CpuReq) (pte : Word) :
    physicalOf (r.seenPte pte) r.addr = physicalOf pte r.addr := by
  apply BitVec.eq_of_getLsbD_eq
  intro k _
  rw [physicalOf_getLsbD, physicalOf_getLsbD]
  by_cases h12 : k < 12
  · rw [if_pos h12, if_pos h12]
  · rw [if_neg h12, if_neg h12, CpuReq.seenPte]
    split
    · rfl
    · rw [mxrPte_getLsbD]
      simp [show k ≠ 1 by omega]

/-- The flags of a repacked leaf under `MXR`. -/
theorem mxrPte_leafPte_flags (mstatus pte address : Word) (level : BitVec 2) :
    pteR (mxrPte mstatus (leafPte level address pte))
        = (pteR pte || (bitOf mstatus 19 && pteX pte)) ∧
      pteW (mxrPte mstatus (leafPte level address pte)) = pteW pte ∧
      pteU (mxrPte mstatus (leafPte level address pte)) = pteU pte := by
  have hX : pteX (leafPte level address pte) = pteX pte := leafPte_getLsbD _ _ _ (by omega)
  refine ⟨?_, ?_, ?_⟩
  · rw [pteR, mxrPte_getLsbD, hX, leafPte_getLsbD _ _ _ (by omega)]
    rfl
  · rw [pteW, mxrPte_getLsbD, leafPte_getLsbD _ _ _ (by omega)]
    simp [pteW]
  · rw [pteU, mxrPte_getLsbD, leafPte_getLsbD _ _ _ (by omega)]
    simp [pteU]

/-- The reserved combination as the translators see it: for data accesses an executable page
counts as readable under `MXR`. -/
def seenReserved (r : CpuReq) (pte : Word) : Bool :=
  pteW pte && !pteR pte && !(!r.isInstruction && bitOf r.mstatus 19 && pteX pte)

/-- The checks of the translators on any leaf: the reserved combination they see, and the
permissions. -/
theorem faults_leafPte_eq (r : CpuReq) (level : BitVec 2) (address pte : Word) :
    r.faults (leafPte level address pte) = (seenReserved r pte || !permits r pte) := by
  obtain ⟨mR, mW, mU⟩ := mxrPte_leafPte_flags r.mstatus pte address level
  have hR : pteR (leafPte level address pte) = pteR pte := leafPte_getLsbD _ _ _ (by omega)
  have hW : pteW (leafPte level address pte) = pteW pte := leafPte_getLsbD _ _ _ (by omega)
  have hX : pteX (leafPte level address pte) = pteX pte := leafPte_getLsbD _ _ _ (by omega)
  have hU : pteU (leafPte level address pte) = pteU pte := leafPte_getLsbD _ _ _ (by omega)
  unfold CpuReq.faults permits seenReserved instrPageFault dataPageFault pteReserved
  rw [mR, mW, mU, hR, hW, hX, hU]
  clear mR mW mU hR hW hX hU
  generalize pteR pte = R
  generalize pteW pte = W
  generalize pteX pte = X
  generalize pteU pte = U
  generalize bitOf r.mstatus 19 = mxr
  generalize bitOf r.mstatus 18 = sum
  generalize isSupervisor r.privilegeMode = sup
  generalize (r.wstrb != 0#4) = wr
  generalize r.isInstruction = fetch
  revert R W X U mxr sum sup wr fetch
  decide

/-- The checks of the translators are the permission rules, on a leaf without the
reserved combination. -/
theorem faults_leafPte (r : CpuReq) {pte : Word} (hrw : pteR pte = true ∨ pteW pte = false)
    (level : BitVec 2) (address : Word) :
    r.faults (leafPte level address pte) = !permits r pte := by
  have hres : seenReserved r pte = false := by
    unfold seenReserved
    rcases hrw with h | h <;> simp [h]
  rw [faults_leafPte_eq, hres, Bool.false_or]

/-! ## The walk computes the specification -/

theorem check_leaf0 (r : CpuReq) {pte : Word} (h : (ppnOf pte).toNat < 2 ^ 20)
    (hrw : pteR pte = true ∨ pteW pte = false) :
    r.check (leafPte 0#2 r.addr pte)
      = if permits r pte then .physical (ppnOf pte ++ offsetOf r.addr) else .pageFault := by
  rw [CpuReq.check, faults_leafPte r hrw, physicalOf_seenPte, physicalOf_leaf0 h]
  cases permits r pte <;> rfl

theorem check_leaf1 (r : CpuReq) {pte : Word} (hz : (ppnOf pte).extractLsb' 0 10 = 0#10)
    (hrw : pteR pte = true ∨ pteW pte = false) :
    r.check (leafPte 1#2 r.addr pte)
      = if permits r pte then
          .physical (0#2 ++ (ppnOf pte).extractLsb' 10 10 ++ vpn0Of r.addr ++ offsetOf r.addr)
        else .pageFault := by
  rw [CpuReq.check, faults_leafPte r hrw, physicalOf_seenPte, physicalOf_leaf1 hz]
  cases permits r pte <;> rfl

theorem check_zero (r : CpuReq) : r.check 0#32 = .pageFault := by
  rw [CpuReq.check, CpuReq.faults_zero]
  rfl

/-- With a well-formed path, the result of walking memory is the specified one. -/
theorem walkOutcome_eq_spec {rd : BitVec 32 → Word} {r : CpuReq} (hm : r.machine = false)
    (hmode : satpModeOf r.satp = true) (hwf : WellFormedPath rd r.satp r.addr) :
    r.walkOutcome rd = some (specOutcome rd r) := by
  have h1 := pathPte1_eq rd hwf.root r.addr
  simp only [CpuReq.walkOutcome, CpuReq.outcomeOf, hm, hmode, specOutcome, walkPte, h1]
  cases hv1 : pteV (specPte1 rd r.satp r.addr) with
  | false => simp [pteLinks, hv1, endPte, check_zero]
  | true =>
    cases hp1 : pteIsPointer (specPte1 rd r.satp r.addr) with
    | false =>
      obtain ⟨hz, hrw⟩ := hwf.leaf1 hv1 hp1
      simp [pteLinks, hv1, hp1, endPte, check_leaf1 r hz hrw]
    | true =>
      have h0 := pathPte0_eq rd hwf.root (hwf.ppn1 hv1)
      rw [h0]
      cases hv0 : pteV (specPte0 rd r.satp r.addr) with
      | false => simp [pteLinks, hv1, hp1, hv0, endPte, check_zero]
      | true =>
        obtain ⟨hppn, hp0, hrw⟩ := hwf.leaf0 hv1 hp1 hv0
        simp [pteLinks, hv1, hp1, hv0, hp0, endPte, check_leaf0 r hppn hrw]

theorem machine_eq_false {r : CpuReq} (hp : r.privilegeMode = 1#2 ∨ r.privilegeMode = 0#2)
    (hmprv : bitOf r.mstatus 17 = false) : r.machine = false := by
  unfold CpuReq.machine effectivePriv
  rw [hmprv]
  rcases hp with hp | hp <;> rw [hp] <;> simp [isMachine]

/-! ## Requests on the machine -/

namespace MmuSys

variable {iw dw : ℕ} {s : MmuSys iw dw}

/-- **Sv32 translation.**  From rest with empty TLBs, on a memory that answers again and
again, a request held from supervisor or user mode ends, and its first end is the one the
specification gives: the access at the translated address, or a page fault at the virtual
address. -/
theorem translation_correct (hrest : s.mmu.AtRest) (hheld : s.mem.held = none)
    (hempty : TlbsEmpty s.mmu.ptw) {r : CpuReq} (hv : r.valid = true)
    (hpriv : r.privilegeMode = 1#2 ∨ r.privilegeMode = 0#2)
    (hmode : satpModeOf r.satp = true) (hmprv : bitOf r.mstatus 17 = false)
    (hwf : WellFormedPath s.mem.content r.satp r.addr) {answer : ℕ → Bool}
    (hans : ∀ n, ∃ m, n ≤ m ∧ answer m = true) :
    ∃ n, (∀ k, k < n → ¬ (run s (holding r answer) k).Ends (holding r answer k)) ∧
      match specOutcome s.mem.content r with
      | .physical pa =>
        (run s (holding r answer) n).Answered (holding r answer n) ∧
          (run s (holding r answer) n).mmu.pageFault = false ∧
          (run s (holding r answer) n).mmu.busReq.valid = true ∧
          (run s (holding r answer) n).mmu.busReq.addr = pa ∧
          (run s (holding r answer) n).mmu.busReq.wstrb = r.wstrb
      | .pageFault =>
        ¬ (run s (holding r answer) n).Answered (holding r answer n) ∧
          (run s (holding r answer) n).mmu.pageFault = true ∧
          (run s (holding r answer) n).mmu.faultAddress = r.addr ∧
          (run s (holding r answer) n).mem.content = s.mem.content := by
  -- the walk is the specified one, and with empty TLBs the request ends as the walk does
  have hspec := walkOutcome_eq_spec (machine_eq_false hpriv hmprv) hmode hwf
  have hres := (hasResult_iff hrest hheld (fun _ => hempty.tlbsFor) hv hans _).2 hspec
  cases ho : specOutcome s.mem.content r with
  | physical pa =>
    rw [ho] at hres
    exact hres
  | pageFault =>
    rw [ho] at hres
    obtain ⟨n, hpend, hno, hf, haddr, hcontent⟩ := hres
    refine ⟨n, hpend, ?_, hf, haddr, hcontent⟩
    simp [Answered, Sv32.cpuReady, hno n le_rfl]

/-- A one-page address space: root table on page 1, second level on page 2, and virtual
page `0x401` readable, writable and executable for supervisor mode on page `0x123`. -/
def onePage : BitVec 32 → Word := fun a =>
  if a = 0x401#32 then 0x00000801#32 else if a = 0x801#32 then 0x00048C0F#32 else 0#32

/-- A load from `0x00401ABC` in supervisor mode. -/
def sampleLoad : CpuReq where
  valid := true
  wstrb := 0#4
  addr := 0x00401ABC#32
  wdata := 0#32
  isInstruction := false
  satp := 0x80000001#32
  mstatus := 0#32
  privilegeMode := 1#2

theorem translation_correct_onePage :
    specOutcome onePage sampleLoad = .physical 0x123ABC#34 ∧
      ∃ n, (∀ k, k < n → ¬ (run ⟨Sv32.reset 4 3, ⟨onePage, none⟩⟩
          (holding sampleLoad fun _ => true) k).Ends (holding sampleLoad (fun _ => true) k)) ∧
        (run ⟨Sv32.reset 4 3, ⟨onePage, none⟩⟩ (holding sampleLoad fun _ => true) n).mmu.busReq.addr
          = 0x123ABC#34 := by
  have hspec : specOutcome onePage sampleLoad = .physical 0x123ABC#34 := by decide
  have hwf : WellFormedPath onePage sampleLoad.satp sampleLoad.addr := by
    constructor <;> decide
  obtain ⟨n, hn, hres⟩ := translation_correct (s := ⟨Sv32.reset 4 3, ⟨onePage, none⟩⟩)
    (r := sampleLoad) ⟨rfl, ⟨rfl, rfl, rfl⟩, ⟨rfl, rfl, rfl⟩, rfl, rfl, rfl, rfl, rfl, rfl⟩ rfl
    ⟨fun _ _ => rfl, fun _ _ => rfl⟩ rfl (.inl rfl) (by decide) (by decide) hwf
    (fun n => ⟨n, le_rfl, rfl⟩)
  refine ⟨hspec, n, hn, ?_⟩
  rw [hspec] at hres
  exact hres.2.2.2.1

end MmuSys

end KianRiscV
