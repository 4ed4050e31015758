/-
# Pages of the kernel's memory

The kernel keeps its memory in pages of 4096 bytes, and all that `kalloc.c` and `vm.c` read and
write are words of pages.  `pages` is the memory page by page; each access of the kernel becomes
one on a page.  Page-table entries are taken apart as the walker of the hardware does.
-/
import KianRiscV.Sv32Spec
import KianRiscV.Xv6Memory

namespace KianRiscV

namespace Xv6Mem

open StateProgram

abbrev Page := BitVec 20

/-- The contents of the pages. -/
abbrev Pages := Page → BitVec 10 → Word

/-- The first byte of a page, as the kernel points to it. -/
def addr (p : Page) : Word := p ++ 0#12

/-- A word of a page, as memory is indexed. -/
def cell (p : Page) (i : BitVec 10) : BitVec 32 := 0#2 ++ p ++ i

def pages (m : BitVec 32 → Word) : Pages := fun p i => m (cell p i)

def setEntry (M : Pages) (p : Page) (i : BitVec 10) (w : Word) : Pages :=
  Function.update M p (Function.update (M p) i w)

theorem setEntry_self (M : Pages) (p : Page) (i : BitVec 10) (w : Word) :
    setEntry M p i w p = Function.update (M p) i w := Function.update_self p _ M

theorem setEntry_of_ne (M : Pages) {p q : Page} (i : BitVec 10) (w : Word) (h : q ≠ p) :
    setEntry M p i w q = M q := Function.update_of_ne h _ M

/-! ## Addresses -/

theorem addr_toNat (p : Page) : (addr p).toNat = p.toNat * 4096 := by
  simp only [addr, BitVec.toNat_append, BitVec.toNat_ofNat, Nat.zero_mod, Nat.or_zero,
    Nat.shiftLeft_eq]

theorem cell_toNat (p : Page) (i : BitVec 10) : (cell p i).toNat = p.toNat * 1024 + i.toNat := by
  have hi := i.isLt
  simp only [cell, BitVec.toNat_append, BitVec.toNat_ofNat]
  rw [← Nat.shiftLeft_add_eq_or_of_lt hi]
  simp only [Nat.shiftLeft_eq, Nat.zero_mod, Nat.zero_mul, Nat.zero_or]

theorem cell_inj {p q : Page} {i j : BitVec 10} : cell p i = cell q j ↔ p = q ∧ i = j := by
  refine ⟨fun h => ?_, by rintro ⟨rfl, rfl⟩; rfl⟩
  have h' := congrArg BitVec.toNat h
  rw [cell_toNat, cell_toNat] at h'
  have hi := i.isLt
  have hj := j.isLt
  exact ⟨BitVec.eq_of_toNat_eq (by omega), BitVec.eq_of_toNat_eq (by omega)⟩

theorem addr_inj {p q : Page} (h : addr p = addr q) : p = q := by
  have h' := congrArg BitVec.toNat h
  rw [addr_toNat, addr_toNat] at h'
  exact BitVec.eq_of_toNat_eq (by omega)

theorem vpnOf_addr (p : Page) : vpnOf (addr p) = p := by
  apply BitVec.eq_of_toNat_eq
  have hp := p.isLt
  simp only [vpnOf, BitVec.extractLsb'_toNat, addr_toNat, Nat.shiftRight_eq_div_pow]
  omega

/-- A multiple of the page size is the first byte of its page. -/
theorem addr_vpnOf {a : Word} (h : a % pgSize = 0#32) : addr (vpnOf a) = a := by
  apply BitVec.eq_of_toNat_eq
  have h' := congrArg BitVec.toNat h
  have ha := a.isLt
  simp only [pgSize, BitVec.toNat_umod, BitVec.toNat_ofNat, Nat.reducePow, Nat.reduceMod] at h'
  rw [addr_toNat]
  simp only [vpnOf, BitVec.extractLsb'_toNat, Nat.shiftRight_eq_div_pow, Nat.reducePow]
  omega

theorem addr_aligned (p : Page) : addr p % pgSize = 0#32 := by
  apply BitVec.eq_of_toNat_eq
  simp only [pgSize, BitVec.toNat_umod, BitVec.toNat_ofNat, addr_toNat, Nat.reducePow,
    Nat.reduceMod]
  omega

theorem addr_ne_zero {p : Page} (h : p ≠ 0#20) : addr p ≠ 0#32 := by
  intro h0
  exact h (addr_inj (h0.trans rfl))

/-- The words of a page, one after the other. -/
theorem addr_shift (p : Page) : addr p >>> 2 = cell p 0#10 := by
  apply BitVec.eq_of_toNat_eq
  rw [cell_toNat]
  simp only [BitVec.toNat_ushiftRight, addr_toNat, Nat.shiftRight_eq_div_pow, BitVec.toNat_ofNat]
  omega

theorem pteAt_shift (p : Page) (i : BitVec 10) :
    pteAt (addr p) (i.setWidth 32) >>> 2 = cell p i := by
  apply BitVec.eq_of_toNat_eq
  have hp := p.isLt
  have hi := i.isLt
  rw [cell_toNat]
  simp only [pteAt, BitVec.toNat_ushiftRight, BitVec.toNat_add, BitVec.toNat_shiftLeft, addr_toNat,
    BitVec.toNat_setWidth, Nat.shiftLeft_eq, Nat.shiftRight_eq_div_pow]
  omega

theorem pteAt_ne_zero {p : Page} (h : p ≠ 0#20) (i : BitVec 10) :
    pteAt (addr p) (i.setWidth 32) ≠ 0#32 := by
  intro h0
  have h0' := congrArg (fun a : Word => (a >>> 2).toNat) h0
  simp only [pteAt_shift, cell_toNat] at h0'
  have hp : p.toNat ≠ 0 := fun hz => h (BitVec.eq_of_toNat_eq hz)
  simp only [BitVec.toNat_ushiftRight, BitVec.toNat_ofNat, Nat.zero_mod, Nat.zero_shiftRight] at h0'
  omega

theorem px_one (va : Word) : px 1 va = (vpn1Of va).setWidth 32 := by
  apply BitVec.eq_of_getLsbD_eq
  intro k hk
  simp only [px, vpn1Of, BitVec.getLsbD_and, flagsMask_getLsbD, BitVec.getLsbD_ushiftRight,
    BitVec.getLsbD_setWidth, BitVec.getLsbD_extractLsb', hk, decide_true, Bool.true_and]
  rw [Bool.and_comm]

theorem px_zero (va : Word) : px 0 va = (vpn0Of va).setWidth 32 := by
  apply BitVec.eq_of_getLsbD_eq
  intro k hk
  simp only [px, vpn0Of, BitVec.getLsbD_and, flagsMask_getLsbD, BitVec.getLsbD_ushiftRight,
    BitVec.getLsbD_setWidth, BitVec.getLsbD_extractLsb', hk, decide_true, Bool.true_and]
  rw [Bool.and_comm]

theorem addr_add_pgSize (p : Page) : addr p + pgSize = addr (p + 1#20) := by
  apply BitVec.eq_of_toNat_eq
  have hp := p.isLt
  simp only [pgSize, BitVec.toNat_add, addr_toNat, BitVec.toNat_ofNat]
  omega

theorem page_succ_toNat {p : Page} (h : p.toNat + 1 < 2 ^ 20) :
    (p + 1#20).toNat = p.toNat + 1 := by
  rw [BitVec.toNat_add, BitVec.toNat_ofNat]
  omega

theorem addr_add_pgSize_toNat {p : Page} (h : p.toNat + 1 < 2 ^ 20) :
    (addr p + pgSize).toNat = p.toNat * 4096 + 4096 := by
  rw [addr_add_pgSize, addr_toNat, page_succ_toNat h]
  omega

/-- `PGROUNDDOWN` is the page of an address. -/
theorem pgRoundDown_eq (a : Word) : pgRoundDown a = addr (vpnOf a) := by
  apply BitVec.eq_of_getLsbD_eq
  intro k hk
  simp only [pgRoundDown, pgSize, addr, vpnOf, BitVec.getLsbD_and, BitVec.getLsbD_not,
    BitVec.getLsbD_append, BitVec.getLsbD_extractLsb', hk, decide_true, Bool.true_and,
    show (4096#32 - 1#32) = 0xFFF#32 from rfl, offsetMask_getLsbD]
  by_cases hk12 : k < 12
  · simp [hk12]
  · simp [hk12, show 12 + (k - 12) = k by omega, show k - 12 < 20 by omega]

theorem addr_vpnOf_pgRoundUp (a : Word) : addr (vpnOf (pgRoundUp a)) = pgRoundUp a := by
  rw [show pgRoundUp a = pgRoundDown (a + pgSize - 1#32) from rfl, pgRoundDown_eq, vpnOf_addr]

/-- `PGROUNDUP` is the next page boundary. -/
theorem pgRoundUp_toNat {a : Word} (h : a.toNat ≤ 2 ^ 32 - 4096) :
    (pgRoundUp a).toNat = (a.toNat + 4095) / 4096 * 4096 := by
  rw [show pgRoundUp a = pgRoundDown (a + pgSize - 1#32) from rfl, pgRoundDown_eq, addr_toNat]
  have ha := a.isLt
  simp only [vpnOf, BitVec.extractLsb'_toNat, pgSize, BitVec.toNat_sub, BitVec.toNat_add,
    BitVec.toNat_ofNat, Nat.shiftRight_eq_div_pow, Nat.reducePow, Nat.reduceMod]
  omega

/-! ## Accesses -/

theorem pages_update (m : BitVec 32 → Word) (p : Page) (i : BitVec 10) (w : Word) :
    pages (Function.update m (cell p i) w) = setEntry (pages m) p i w := by
  funext q j
  by_cases hq : q = p
  · subst hq
    rw [setEntry, Function.update_self]
    by_cases hj : j = i
    · subst hj
      rw [Function.update_self, pages, Function.update_self]
    · rw [Function.update_of_ne hj, pages, Function.update_of_ne fun h => hj (cell_inj.1 h).2]
      rfl
  · rw [setEntry, Function.update_of_ne hq, pages,
      Function.update_of_ne fun h => hq (cell_inj.1 h).1]
    rfl

/-- The distance from the first word of a page is small for its words only. -/
theorem shift_eq_cell (pa : Word) : pa >>> 2 = cell (vpnOf pa) (pa.extractLsb' 2 10) := by
  apply BitVec.eq_of_toNat_eq
  rw [cell_toNat]
  simp only [vpnOf, BitVec.toNat_ushiftRight, BitVec.extractLsb'_toNat, Nat.shiftRight_eq_div_pow,
    Nat.reducePow]
  omega

/-- A word is written to another page. -/
theorem pages_store (m : BitVec 32 → Word) {pa : Word} {p : Page} (w : Word) (h : p ≠ vpnOf pa) :
    pages (Function.update m (pa >>> 2) w) p = pages m p := by
  rw [shift_eq_cell, pages_update, setEntry, Function.update_of_ne h]

theorem sub_lt_page {a : BitVec 32} {p : Page} :
    a - cell p 0#10 < pgSize >>> 2 ↔ ∃ i, a = cell p i := by
  have hp := p.isLt
  have ha := a.isLt
  have h0 := cell_toNat p 0#10
  simp only [BitVec.toNat_ofNat, Nat.zero_mod, Nat.add_zero] at h0
  have hsize : (pgSize >>> 2).toNat = 1024 := rfl
  rw [BitVec.lt_def, hsize, BitVec.toNat_sub, h0]
  constructor
  · intro hlt
    refine ⟨BitVec.ofNat 10 (a.toNat - p.toNat * 1024), BitVec.eq_of_toNat_eq ?_⟩
    rw [cell_toNat, BitVec.toNat_ofNat]
    omega
  · rintro ⟨i, rfl⟩
    have hi := i.isLt
    rw [cell_toNat]
    omega

/-- What is done to the words of one page. -/
theorem pages_ite (m f : BitVec 32 → Word) (p : Page) :
    pages (fun a => if a - (addr p >>> 2) < pgSize >>> 2 then f a else m a)
      = Function.update (pages m) p fun i => f (cell p i) := by
  funext q j
  by_cases hq : q = p
  · subst hq
    rw [Function.update_self, pages, addr_shift, if_pos (sub_lt_page.2 ⟨j, rfl⟩)]
  · rw [Function.update_of_ne hq, pages, addr_shift,
      if_neg fun h => hq (cell_inj.1 (sub_lt_page.1 h).choose_spec).1]
    rfl

/-- Four bytes of `c`. -/
def fill (c : BitVec 8) : BitVec 10 → Word := fun _ => c ++ c ++ c ++ c

variable {s : Kmem} {p q : Page} {i : BitVec 10} {w : Word}

theorem load_pte : load (pteAt (addr p) (i.setWidth 32)) s = .ok (pages s.mem p i, s) := by
  rw [load, pteAt_shift]
  rfl

theorem load_first : load (addr p) s = .ok (pages s.mem p 0#10, s) := by
  rw [load, addr_shift]
  rfl

theorem gives_store_pte : Gives (store (pteAt (addr p) (i.setWidth 32)) w) s fun _ t =>
    pages t.mem = setEntry (pages s.mem) p i w ∧ t.freelist = s.freelist := by
  refine .of_eq (a := ()) rfl ⟨?_, rfl⟩
  rw [pteAt_shift]
  exact pages_update s.mem p i w

theorem gives_store_first : Gives (store (addr p) w) s fun _ t =>
    pages t.mem = setEntry (pages s.mem) p 0#10 w ∧ t.freelist = s.freelist := by
  refine .of_eq (a := ()) rfl ⟨?_, rfl⟩
  rw [addr_shift]
  exact pages_update s.mem p 0#10 w

theorem gives_memset (c : BitVec 8) : Gives (memset (addr p) c pgSize) s fun _ t =>
    pages t.mem = Function.update (pages s.mem) p (fill c) ∧ t.freelist = s.freelist :=
  .of_eq (a := ()) rfl ⟨pages_ite s.mem (fun _ => c ++ c ++ c ++ c) p, rfl⟩

theorem gives_memmove : Gives (memmove (addr p) (addr q) pgSize) s fun _ t =>
    pages t.mem = Function.update (pages s.mem) p (pages s.mem q) ∧ t.freelist = s.freelist := by
  refine .of_eq (a := ()) rfl ⟨?_, rfl⟩
  rw [pages_ite s.mem (fun a => s.mem ((addr q >>> 2) + (a - (addr p >>> 2)))) p]
  congr 1
  funext j
  have hj := j.isLt
  have hp := p.isLt
  have hq := q.isLt
  have hsum : (addr q >>> 2) + (cell p j - (addr p >>> 2)) = cell q j := by
    apply BitVec.eq_of_toNat_eq
    rw [addr_shift, addr_shift, BitVec.toNat_add, BitVec.toNat_sub, cell_toNat, cell_toNat,
      cell_toNat, cell_toNat]
    simp only [BitVec.toNat_ofNat, Nat.zero_mod]
    omega
  rw [hsum]
  rfl

/-- Part of a page is overwritten. -/
theorem gives_memmove_part {src n : Word} (hn : n ≤ pgSize) :
    Gives (memmove (addr p) src n) s fun _ t =>
      (∀ q, q ≠ p → pages t.mem q = pages s.mem q) ∧ t.freelist = s.freelist := by
  refine .of_eq (a := ()) rfl ⟨fun q hq => ?_, rfl⟩
  funext j
  refine if_neg fun hlt => hq ?_
  have hsize : n >>> 2 ≤ pgSize >>> 2 := by
    have hn' := BitVec.le_def.1 hn
    rw [BitVec.le_def, BitVec.toNat_ushiftRight, BitVec.toNat_ushiftRight,
      Nat.shiftRight_eq_div_pow, Nat.shiftRight_eq_div_pow]
    exact Nat.div_le_div_right hn'
  rw [addr_shift] at hlt
  have hin : cell q j - cell p 0#10 < pgSize >>> 2 :=
    BitVec.lt_def.2 ((BitVec.lt_def.1 hlt).trans_le (BitVec.le_def.1 hsize))
  exact (cell_inj.1 (sub_lt_page.1 hin).choose_spec).1

/-- A word of a page is overwritten. -/
theorem gives_store_offset {n : ℕ} (hn : n < 4096) : Gives (store (addr p + BitVec.ofNat 32 n) w) s
    fun _ t => (∀ q, q ≠ p → pages t.mem q = pages s.mem q) ∧ t.freelist = s.freelist := by
  refine .of_eq (a := ()) rfl ⟨fun q hq => ?_, rfl⟩
  have hp := p.isLt
  have hcell : (addr p + BitVec.ofNat 32 n) >>> 2 = cell p (BitVec.ofNat 10 (n / 4)) := by
    apply BitVec.eq_of_toNat_eq
    rw [cell_toNat]
    simp only [BitVec.toNat_ushiftRight, BitVec.toNat_add, addr_toNat, BitVec.toNat_ofNat,
      Nat.shiftRight_eq_div_pow]
    omega
  show pages (Function.update s.mem ((addr p + BitVec.ofNat 32 n) >>> 2) w) q = _
  rw [hcell, pages_update, setEntry, Function.update_of_ne hq]

/-! ## Page-table entries -/

/-- The page an entry points to, as the kernel reads it. -/
def frameOf (e : Word) : Page := e.extractLsb' 10 20

/-- The entry for a table. -/
def pointerTo (c : Page) : Word := pa2pte (addr c) ||| flagV

/-- The entry for a page with these permissions. -/
def leafTo (p : Page) (perm : Word) : Word := pa2pte (addr p) ||| perm ||| flagV

theorem pte2pa_eq (e : Word) : pte2pa e = addr (frameOf e) := by
  apply BitVec.eq_of_toNat_eq
  have he := e.isLt
  rw [addr_toNat]
  simp only [pte2pa, frameOf, BitVec.toNat_shiftLeft, BitVec.toNat_ushiftRight,
    BitVec.extractLsb'_toNat, Nat.shiftLeft_eq, Nat.shiftRight_eq_div_pow]
  omega

theorem pa2pte_getLsbD (p : Page) (k : ℕ) :
    (pa2pte (addr p)).getLsbD k = (decide (10 ≤ k) && p.getLsbD (k - 10)) := by
  simp only [pa2pte, addr, BitVec.getLsbD_shiftLeft, BitVec.getLsbD_ushiftRight,
    BitVec.getLsbD_append]
  by_cases hk : k < 10
  · simp [hk, show ¬ 10 ≤ k by omega]
  · have hp : 32 ≤ k → p.getLsbD (k - 10) = false := fun h =>
      BitVec.getLsbD_of_ge p (k - 10) (by omega)
    by_cases h32 : k < 32
    · simp [hk, h32, show 10 ≤ k by omega]
    · simp [h32, hp (by omega)]

theorem leafTo_getLsbD (p : Page) {perm : Word} (h : perm.toNat < 1024) {k : ℕ} (hk : k < 32) :
    (leafTo p perm).getLsbD k
      = if k < 10 then perm.getLsbD k || decide (k = 0) else p.getLsbD (k - 10) := by
  simp only [leafTo, flagV, BitVec.getLsbD_or, pa2pte_getLsbD, BitVec.getLsbD_one]
  by_cases hk10 : k < 10
  · simp [hk10, show ¬ 10 ≤ k by omega]
  · have hperm : perm.getLsbD k = false := by
      rw [BitVec.getLsbD, Nat.testBit_lt_two_pow]
      exact h.trans_le (Nat.pow_le_pow_right (n := 2) (by omega) (show 10 ≤ k by omega))
    simp [hk10, hperm, show 10 ≤ k by omega, show ¬ k = 0 by omega]

theorem pointerTo_eq (c : Page) : pointerTo c = leafTo c 0#32 := by
  rw [pointerTo, leafTo, BitVec.or_zero]

variable {perm : Word} {c : Page}

theorem frameOf_leafTo (h : perm.toNat < 1024) : frameOf (leafTo p perm) = p := by
  apply BitVec.eq_of_getLsbD_eq
  intro k hk
  rw [frameOf, BitVec.getLsbD_extractLsb', leafTo_getLsbD p h (by omega), if_neg (by omega),
    show 10 + k - 10 = k by omega]
  simp [hk]

theorem flag_leafTo (h : perm.toNat < 1024) {k : ℕ} (hk : k < 10) (h0 : k ≠ 0) :
    (leafTo p perm).getLsbD k = perm.getLsbD k := by
  rw [leafTo_getLsbD p h (by omega), if_pos hk, decide_eq_false h0, Bool.or_false]

theorem pteV_leafTo (h : perm.toNat < 1024) : pteV (leafTo p perm) = true := by
  rw [pteV, leafTo_getLsbD p h (by omega), if_pos (by omega), decide_eq_true rfl, Bool.or_true]

theorem pteFlags_leafTo (h : perm.toNat < 1024) : pteFlags (leafTo p perm) = perm ||| flagV := by
  apply BitVec.eq_of_getLsbD_eq
  intro k hk
  rw [pteFlags, BitVec.getLsbD_and, leafTo_getLsbD p h hk, flagsMask_getLsbD, BitVec.getLsbD_or,
    flagV, BitVec.getLsbD_one]
  by_cases hk10 : k < 10
  · simp [hk10]
  · have hperm : perm.getLsbD k = false := by
      rw [BitVec.getLsbD, Nat.testBit_lt_two_pow]
      exact h.trans_le (Nat.pow_le_pow_right (n := 2) (by omega) (show 10 ≤ k by omega))
    simp [hk10, hperm, show ¬ k = 0 by omega]

theorem frameOf_pointerTo : frameOf (pointerTo c) = c := by
  rw [pointerTo_eq]
  exact frameOf_leafTo (by decide)

theorem pteV_pointerTo : pteV (pointerTo c) = true := by
  rw [pointerTo_eq]
  exact pteV_leafTo (by decide)

theorem pteFlags_lt (e : Word) : (pteFlags e).toNat < 1024 := by
  rw [pteFlags, BitVec.toNat_and]
  exact Nat.lt_succ_of_le Nat.and_le_right

theorem pteFlags_getLsbD (e : Word) {k : ℕ} (hk : k < 10) : (pteFlags e).getLsbD k = e.getLsbD k := by
  rw [pteFlags, BitVec.getLsbD_and, flagsMask_getLsbD, decide_eq_true hk, Bool.and_true]

/-- The test of a flag. -/
theorem and_flag_ne_zero {e : Word} {n : ℕ} (hn : n < 32) :
    e &&& (1#32 <<< n) ≠ 0#32 ↔ e.getLsbD n = true := by
  constructor
  · intro h
    by_contra hno
    apply h
    apply BitVec.eq_of_getLsbD_eq
    intro k hk
    simp only [BitVec.getLsbD_and, BitVec.getLsbD_shiftLeft, BitVec.getLsbD_one,
      BitVec.getLsbD_zero]
    by_cases hkn : k = n
    · subst hkn
      simp [Bool.eq_false_of_not_eq_true hno]
    · by_cases hlt : k < n
      · simp [hlt]
      · simp [show ¬ k - n = 0 by omega]
  · intro h h0
    have h0' := congrArg (fun w : Word => w.getLsbD n) h0
    simp only [BitVec.getLsbD_and, h] at h0'
    simp [hn] at h0'

theorem and_flagV {e : Word} : e &&& flagV ≠ 0#32 ↔ pteV e = true :=
  and_flag_ne_zero (n := 0) (by omega)

theorem and_flagV_eq {e : Word} : e &&& flagV = 0#32 ↔ pteV e = false := by
  rw [← not_iff_not, Bool.not_eq_false]
  exact and_flagV

end Xv6Mem

end KianRiscV
