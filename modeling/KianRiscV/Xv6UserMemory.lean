/-
# Growing, shrinking and freeing address spaces

`uvmunmap`, `uvmdealloc`, `uvmalloc`, `uvmcreate` and `uvmfree` on images: a range of pages is cut
out, a range of zeroed pages is added or, without memory for all of them, none is, and a space
without mappings is taken apart.
-/
import KianRiscV.Xv6Leaves

namespace KianRiscV

namespace Xv6Mem

open StateProgram

variable {κ : Type} {sym : Symbols} {own own' : Page → Owner κ} {s t u : Kmem}
  {k : κ} {r c p q : Page} {i : BitVec 10} {v w : BitVec 20} {e perm xperm oldsz newsz : Word}
  {I : Image} {a b n : ℕ} {doFree : Bool}

/-! ## Ranges of pages -/

/-- The page of this number. -/
def pg (n : ℕ) : Page := BitVec.ofNat 20 n

/-- How many pages hold `sz` bytes. -/
def pagesOf (sz : Word) : ℕ := (sz.toNat + 4095) / 4096

theorem pg_toNat (h : n < 2 ^ 20) : (pg n).toNat = n := by
  rw [pg, BitVec.toNat_ofNat, Nat.mod_eq_of_lt h]

theorem pg_self (v : Page) : pg v.toNat = v := by
  rw [pg, BitVec.ofNat_toNat, BitVec.setWidth_eq]

theorem addr_pg_succ (n : ℕ) : addr (pg n) + pgSize = addr (pg (n + 1)) := by
  rw [addr_add_pgSize]
  congr 1
  apply BitVec.eq_of_toNat_eq
  simp only [pg, BitVec.toNat_add, BitVec.toNat_ofNat]
  omega

theorem addr_pg_toNat (h : n < 2 ^ 20) : (addr (pg n)).toNat = n * 4096 := by
  rw [addr_toNat, pg_toNat h]

theorem addr_pg_lt {sz : Word} (h : n < 2 ^ 20) : addr (pg n) < sz ↔ n < pagesOf sz := by
  rw [BitVec.lt_def, addr_pg_toNat h, pagesOf]
  omega

theorem pagesOf_lt {sz : Word} (h : sz ≤ trapframeVa) : pagesOf sz < 2 ^ 20 - 1 := by
  have h' : sz.toNat ≤ 0xFFFFE000 := BitVec.le_def.1 h
  rw [pagesOf]
  omega

theorem pgRoundUp_eq {sz : Word} (h : sz ≤ trapframeVa) : pgRoundUp sz = addr (pg (pagesOf sz)) := by
  have h' : sz.toNat ≤ 0xFFFFE000 := BitVec.le_def.1 h
  have hlt := pagesOf_lt h
  apply BitVec.eq_of_toNat_eq
  rw [addr_pg_toNat (by omega), pgRoundUp_toNat (by omega), pagesOf]

theorem pagesOf_addr (h : n < 2 ^ 20) : pagesOf (addr (pg n)) = n := by
  rw [pagesOf, addr_pg_toNat h]
  omega

theorem pagesOf_mono (h : oldsz ≤ newsz) : pagesOf oldsz ≤ pagesOf newsz := by
  have h' := BitVec.le_def.1 h
  rw [pagesOf, pagesOf]
  omega

/-- The image without the pages from `a` below `b`. -/
def cut (I : Image) (a b : ℕ) : Image := fun w =>
  if a ≤ w.toNat ∧ w.toNat < b then none else I w

/-- The image with zeroed pages from `a` below `b`. -/
def grown (I : Image) (a b : ℕ) (flags : Word) : Image := fun w =>
  if a ≤ w.toNat ∧ w.toNat < b then some (.page flags (fill 0#8)) else I w

theorem cut_of_le (h : b ≤ a) : cut I a b = I := by
  funext w
  exact if_neg (by omega)

theorem cut_succ (hab : a ≤ b) (hb : b < 2 ^ 20) :
    Function.update (cut I a b) (pg b) none = cut I a (b + 1) := by
  funext w
  by_cases hw : w = pg b
  · subst hw
    rw [Function.update_self, cut, if_pos]
    rw [pg_toNat hb]
    omega
  · have hne : w.toNat ≠ b := fun h => hw (by rw [← h, pg_self])
    rw [Function.update_of_ne hw]
    simp only [cut]
    congr 1
    rw [eq_iff_iff]
    omega

theorem grown_succ (flags : Word) (hab : a ≤ b) (hb : b < 2 ^ 20) :
    Function.update (grown I a b flags) (pg b) (some (.page flags (fill 0#8)))
      = grown I a (b + 1) flags := by
  funext w
  by_cases hw : w = pg b
  · subst hw
    rw [Function.update_self, grown, if_pos]
    rw [pg_toNat hb]
    omega
  · have hne : w.toNat ≠ b := fun h => hw (by rw [← h, pg_self])
    rw [Function.update_of_ne hw]
    simp only [grown]
    congr 1
    rw [eq_iff_iff]
    omega

theorem grown_of_le (flags : Word) (h : b ≤ a) : grown I a b flags = I := by
  funext w
  exact if_neg (by omega)

/-- Cutting what was added. -/
theorem cut_grown (flags : Word) (hI : ∀ w : BitVec 20, a ≤ w.toNat → w.toNat < b → I w = none) :
    cut (grown I a b flags) a b = I := by
  funext w
  rw [cut]
  split_ifs with h
  · exact (hI w h.1 h.2).symm
  · exact if_neg h

/-! ## `uvmunmap` and `uvmdealloc` -/

/-- The state of a space in the middle of a function. -/
structure Shown (sym : Symbols) (s t : Kmem) (own own' : Page → Owner κ) (k : κ) (r : Page)
    (I : Image) : Prop where
  inv : Inv sym t own'
  space : Space (pages t.mem) own' k r I
  keeps : Keeps (Owner.In k) s t own own'

theorem Shown.refl (h : Inv sym s own) (hS : Space (pages s.mem) own k r I) :
    Shown sym s s own own k r I := ⟨h, hS, .refl _ s own⟩

theorem Shown.trans {own'' : Page → Owner κ} {J : Image} (h : Shown sym s t own own' k r I)
    (h' : Shown sym t u own' own'' k r J) : Shown sym s u own own'' k r J :=
  ⟨h'.inv, h'.space, h.keeps.trans h'.keeps⟩

theorem shift_addr (v : BitVec 20) : addr v >>> 12 = BitVec.ofNat 32 v.toNat := by
  apply BitVec.eq_of_toNat_eq
  have hv := v.isLt
  simp only [BitVec.toNat_ushiftRight, addr_toNat, Nat.shiftRight_eq_div_pow, BitVec.toNat_ofNat]
  omega

theorem addr_shift_left (h : n < 2 ^ 20) : BitVec.ofNat 32 n <<< 12 = addr (pg n) := by
  apply BitVec.eq_of_toNat_eq
  rw [addr_pg_toNat h]
  simp only [BitVec.toNat_shiftLeft, BitVec.toNat_ofNat, Nat.shiftLeft_eq]
  omega

/-- A range of pages is cut out. -/
theorem Inv.uvmunmap (h : Inv sym s own) (hS : Space (pages s.mem) own k r I) (v : BitVec 20)
    (n : ℕ) (doFree : Bool) (hn : v.toNat + n ≤ 2 ^ 20)
    (hI : ∀ w m, v.toNat ≤ w.toNat → w.toNat < v.toNat + n → I w = some m → m.isPage = doFree) :
    Gives (Xv6Mem.uvmunmap sym (addr r) (addr v) (BitVec.ofNat 32 n) doFree) s fun _ t =>
      ∃ own', Shown sym s t own own' k r (cut I v.toNat (v.toNat + n)) := by
  unfold Xv6Mem.uvmunmap
  refine gives_ite (fun hno => absurd (addr_aligned v) hno) fun _ => ?_
  rw [shift_addr]
  have hbound : (BitVec.ofNat 32 v.toNat + BitVec.ofNat 32 n).toNat = v.toNat + n := by
    rw [BitVec.toNat_add, BitVec.toNat_ofNat, BitVec.toNat_ofNat]
    omega
  refine gives_loop (fun m x y => ∃ j, j + m = n ∧ x = BitVec.ofNat 32 (v.toNat + j) ∧
    ∃ own', Shown sym s y own own' k r (cut I v.toNat (v.toNat + j))) ?_ rounds n _ _
    ⟨0, by omega, rfl, own, ?_⟩ (by rw [rounds]; omega)
  · rintro m _ y ⟨j, hj, rfl, own₁, hshown⟩
    have hx : (BitVec.ofNat 32 (v.toNat + j)).toNat = v.toNat + j := by
      rw [BitVec.toNat_ofNat]
      omega
    refine gives_ite (fun hlt => ?_) fun hge => gives_pure ?_
    · rw [BitVec.lt_def, hbound, hx] at hlt
      have hpg : v.toNat + j < 2 ^ 20 := by omega
      rw [addr_shift_left hpg]
      refine (hshown.inv.unmapPage hshown.space fun m' hm' => ?_).bind fun _ z hz => ?_
      · rw [cut, pg_toNat hpg, if_neg (by omega)] at hm'
        refine hI (pg (v.toNat + j)) m' ?_ ?_ hm'
        · rw [pg_toNat hpg]
          omega
        · rw [pg_toNat hpg]
          omega
      · obtain ⟨own₂, hinv, hspace, hkeep⟩ := hz
        refine gives_pure ?_
        rw [cut_succ (by omega) hpg] at hspace
        refine ⟨m - 1, by omega, j + 1, by omega, ?_, own₂, hshown.trans ⟨hinv, hspace, hkeep⟩⟩
        apply BitVec.eq_of_toNat_eq
        simp only [BitVec.toNat_add, BitVec.toNat_ofNat]
        omega
    · rw [BitVec.not_lt, BitVec.le_def, hbound, hx] at hge
      obtain rfl : j = n := by omega
      exact ⟨own₁, hshown⟩
  · rw [Nat.add_zero, cut_of_le le_rfl]
    exact .refl h hS

/-- The pages from the new size on are cut out. -/
theorem Inv.uvmdealloc (h : Inv sym s own) (hS : Space (pages s.mem) own k r I)
    (hold : oldsz ≤ trapframeVa) (newsz : Word)
    (hI : ∀ w m, w.toNat < pagesOf oldsz → I w = some m → m.isPage = true) :
    Gives (Xv6Mem.uvmdealloc sym (addr r) oldsz newsz) s fun x t =>
      x = (if oldsz ≤ newsz then oldsz else newsz) ∧
        ∃ own', Shown sym s t own own' k r (cut I (pagesOf newsz) (pagesOf oldsz)) := by
  have hold' := pagesOf_lt hold
  unfold Xv6Mem.uvmdealloc
  refine gives_ite (fun hle => gives_pure ⟨(if_pos hle).symm, own, ?_⟩) fun hgt => ?_
  · rw [cut_of_le (pagesOf_mono hle)]
    exact .refl h hS
  · have hlt := BitVec.not_le.1 hgt
    have hnew : newsz ≤ trapframeVa := BitVec.le_trans (BitVec.le_of_lt hlt) hold
    have hnew' := pagesOf_lt hnew
    rw [if_neg hgt, pgRoundUp_eq hold, pgRoundUp_eq hnew]
    refine gives_ite (fun hlt => ?_) fun hge => gives_pure ⟨rfl, own, ?_⟩
    · rw [BitVec.lt_def, addr_pg_toNat (by omega), addr_pg_toNat (by omega)] at hlt
      have hcount : (addr (pg (pagesOf oldsz)) - addr (pg (pagesOf newsz))) / pgSize
          = BitVec.ofNat 32 (pagesOf oldsz - pagesOf newsz) := by
        apply BitVec.eq_of_toNat_eq
        rw [BitVec.toNat_udiv, BitVec.toNat_sub, addr_pg_toNat (by omega), addr_pg_toNat (by omega),
          BitVec.toNat_ofNat, show pgSize.toNat = 4096 from rfl]
        omega
      rw [hcount]
      have hstart : (pg (pagesOf newsz)).toNat = pagesOf newsz := pg_toNat (by omega)
      have hrun := h.uvmunmap hS (pg (pagesOf newsz)) (pagesOf oldsz - pagesOf newsz) true (by omega)
        fun w m _ hw hm => hI w m (by omega) hm
      rw [hstart, show pagesOf newsz + (pagesOf oldsz - pagesOf newsz) = pagesOf oldsz by omega]
        at hrun
      exact hrun.bind fun _ t ht => gives_pure ⟨rfl, ht⟩
    · rw [BitVec.not_lt, BitVec.le_def, addr_pg_toNat (by omega), addr_pg_toNat (by omega)] at hge
      rw [cut_of_le (by omega)]
      exact .refl h hS

/-! ## `uvmalloc` -/

/-- The permissions of the kernel for pages: readable, and no bits beyond the flags. -/
structure GoodPerm (perm : Word) : Prop where
  small : perm.toNat < 1024
  readable : perm.getLsbD 1 = true

/-- A page outside of all spaces does not matter. -/
theorem Space.relabel {M M' : Pages} {o : Owner κ} (hS : Space M own k r I) (hwf : Wf M own)
    (hq : (own q).inSpace = none) (ho : o.inSpace = none) (hM : ∀ p, p ≠ q → M' p = M p) :
    Space M' (Function.update own q o) k r I := by
  have hne : ∀ p o' k', own p = o' → o'.inSpace = some k' → p ≠ q := by
    rintro p _ k' rfl ho' rfl
    rw [hq] at ho'
    cases ho'
  have hrq := hne r _ k hS.root rfl
  refine hS.congr (by rw [Function.update_of_ne hrq]; exact hS.root) (fun v => ?_) (fun p v => ?_)
    fun p v hp => hM p (hne p _ k hp rfl)
  · rw [lookup, lookup, hM r hrq]
    rcases hwf.dir r k hS.root (hi v) with ⟨hinv, -⟩ | ⟨c, he, hsole⟩
    · rw [hinv]
      rfl
    · rw [he, frameOf_pointerTo, hM c (hne c _ k ((hsole c).2 rfl) rfl)]
  · by_cases hpq : p = q
    · subst hpq
      rw [Function.update_self]
      refine iff_of_false ?_ fun hp => hne p _ k hp rfl rfl
      rintro rfl
      cases ho
    · rw [Function.update_of_ne hpq]

/-- A page that was just allocated and filled is mapped, or it is given back. -/
theorem Inv.map_new {α : Type} {x y : α} (h : Inv sym s own) (hS : Space (pages s.mem) own k r I)
    (hI : I v = none) (hperm : GoodPerm perm) (hfree : own q = .free)
    (hinv : Inv sym u (Function.update own q .kernel))
    (hpages : ∀ p, p ≠ q → pages u.mem p = pages s.mem p) :
    Gives (do
        let mapped ← mappages (addr r) (addr v) pgSize (addr q) perm
        if mapped then pure x
        else do
          Xv6Mem.kfree sym (addr q)
          pure y) u fun z t =>
      (z = x ∧ ∃ own', Shown sym s t own own' k r
        (Function.update I v (some (.page (perm ||| flagV) (pages u.mem q))))) ∨
      (z = y ∧ ∃ own', Shown sym s t own own' k r I) := by
  have hqp := h.pool q (by rw [hfree]; nofun)
  have hq : Function.update own q .kernel q = .kernel := Function.update_self q _ own
  have hSu := hS.relabel (o := .kernel) h.wf (by rw [hfree]; rfl) rfl hpages
  rw [mappages_one]
  refine (hinv.mappage_page hSu hI hq hqp hperm.small hperm.readable).bind fun mapped t ht => ?_
  rcases ht with ⟨rfl, rfl⟩ | ⟨rfl, own', hinvt, hSt, hkeep⟩
  · refine gives_ite (fun hno => absurd hno Bool.false_ne_true) fun _ => ?_
    refine (hinv.kfree hq hqp).bind fun _ z ⟨hinvz, hz⟩ => gives_pure (.inr ⟨rfl, own, ?_⟩)
    have hzs : ∀ p, p ≠ q → pages z.mem p = pages s.mem p := fun p hp =>
      (hz p hp).trans (hpages p hp)
    have hown : Function.update own q .free = own := by
      rw [← hfree, Function.update_eq_self]
    rw [Function.update_idem, hown] at hinvz
    have hSz := hS.relabel (o := .free) h.wf (by rw [hfree]; rfl) rfl hzs
    rw [hown] at hSz
    refine ⟨hinvz, hSz, fun p hf _ => ⟨hzs p ?_, rfl⟩, fun p => .inl rfl⟩
    rintro rfl
    exact hf hfree
  · refine gives_ite (fun _ => gives_pure (.inl ⟨rfl, own', hinvt, hSt, ?_⟩)) fun hno => absurd rfl hno
    rw [Function.update_idem] at hkeep
    exact (Keeps.take hfree (show Owner.In k (.frame k v) from rfl) hpages).trans hkeep

/-- A zeroed page is added, or there is no memory for it. -/
theorem Inv.uvmallocPage (h : Inv sym s own) (hS : Space (pages s.mem) own k r I) (hI : I v = none)
    (hperm : GoodPerm (flagR ||| flagU ||| xperm)) :
    Gives (Xv6Mem.uvmallocPage sym (addr r) (addr v) xperm) s fun got t =>
      (got = true ∧ ∃ own', Shown sym s t own own' k r
        (Function.update I v (some (.page (flagR ||| flagU ||| xperm ||| flagV) (fill 0#8))))) ∨
      (got = false ∧ ∃ own', Shown sym s t own own' k r I) := by
  unfold Xv6Mem.uvmallocPage
  refine h.kalloc.bind fun x t ht => ?_
  rcases ht with ⟨rfl, rfl⟩ | ⟨q, rfl, hfree, hinv, hothers⟩
  · exact gives_ite (fun _ => gives_pure (.inr ⟨rfl, own, .refl h hS⟩)) fun hno => absurd rfl hno
  · have hqp := h.pool q (by rw [hfree]; nofun)
    refine gives_ite (fun h0 => absurd h0 (addr_ne_zero hqp.ne_zero)) fun _ => ?_
    refine (hinv.memset (Function.update_self q _ own) 0#8).bind fun _ u ⟨hinvu, hzero, hu⟩ => ?_
    rw [← hzero]
    exact h.map_new hS hI hperm hfree hinvu fun p hp => (hu p hp).trans (hothers p hp)

/-- Zeroed pages are added up to the new size, or none are. -/
theorem Inv.uvmalloc (h : Inv sym s own) (hS : Space (pages s.mem) own k r I)
    (hnew : newsz ≤ trapframeVa) (hle : oldsz ≤ newsz)
    (hI : ∀ w : BitVec 20, pagesOf oldsz ≤ w.toNat → w.toNat < pagesOf newsz → I w = none)
    (hpages : ∀ w m, w.toNat < pagesOf newsz → I w = some m → m.isPage = true)
    (hperm : GoodPerm (flagR ||| flagU ||| xperm)) :
    Gives (Xv6Mem.uvmalloc sym (addr r) oldsz newsz xperm) s fun x t =>
      (x = newsz ∧ ∃ own', Shown sym s t own own' k r
        (grown I (pagesOf oldsz) (pagesOf newsz) (flagR ||| flagU ||| xperm ||| flagV))) ∨
      (x = 0#32 ∧ ∃ own', Shown sym s t own own' k r I) := by
  have hold : oldsz ≤ trapframeVa := BitVec.le_trans hle hnew
  have hnew' := pagesOf_lt hnew
  have hmono := pagesOf_mono hle
  unfold Xv6Mem.uvmalloc
  refine gives_ite (fun hlt => absurd hlt (BitVec.not_lt.2 hle)) fun _ => ?_
  rw [pgRoundUp_eq hold]
  refine gives_loop (fun m x y => ∃ j, pagesOf oldsz + j + m = pagesOf newsz ∧
    x = addr (pg (pagesOf oldsz + j)) ∧ ∃ own', Shown sym s y own own' k r
      (grown I (pagesOf oldsz) (pagesOf oldsz + j) (flagR ||| flagU ||| xperm ||| flagV))) ?_ rounds
    (pagesOf newsz - pagesOf oldsz) _ _ ⟨0, by omega, rfl, own, ?_⟩ (by rw [rounds]; omega)
  · rintro m _ y ⟨j, hj, rfl, own₁, hshown⟩
    have hsmall : pagesOf oldsz + j < 2 ^ 20 := by omega
    refine gives_ite (fun hmore => ?_) fun hdone => gives_pure (.inl ⟨rfl, own₁, ?_⟩)
    · rw [addr_pg_lt hsmall] at hmore
      have hnone : grown I (pagesOf oldsz) (pagesOf oldsz + j)
          (flagR ||| flagU ||| xperm ||| flagV) (pg (pagesOf oldsz + j)) = none := by
        rw [grown, pg_toNat hsmall, if_neg (by omega)]
        refine hI _ ?_ ?_ <;> rw [pg_toNat hsmall] <;> omega
      refine (hshown.inv.uvmallocPage hshown.space hnone hperm).bind fun got z hz => ?_
      rcases hz with ⟨rfl, own₂, hnext⟩ | ⟨rfl, own₂, hnext⟩
      · refine gives_ite (fun _ => gives_pure ?_) fun hno => absurd rfl hno
        rw [grown_succ _ (by omega) hsmall] at hnext
        exact ⟨m - 1, by omega, j + 1, by omega, addr_pg_succ _, own₂, hshown.trans hnext⟩
      · refine gives_ite (fun hno => absurd hno Bool.false_ne_true) fun _ => ?_
        have hle₁ : addr (pg (pagesOf oldsz + j)) ≤ trapframeVa := by
          rw [BitVec.le_def, addr_pg_toNat hsmall]
          show _ ≤ 0xFFFFE000
          omega
        have hback := hnext.inv.uvmdealloc hnext.space hle₁ (addr (pg (pagesOf oldsz))) fun w m' hw hm' => by
          rw [pagesOf_addr hsmall] at hw
          rw [grown] at hm'
          split_ifs at hm' with hin
          · obtain rfl := Option.some.inj hm'
            rfl
          · exact hpages w m' (by omega) hm'
        rw [pagesOf_addr hsmall, pagesOf_addr (by omega), cut_grown _ fun w h1 h2 =>
          hI w h1 (by omega)] at hback
        refine hback.bind fun _ z' hz' => ?_
        obtain ⟨-, own₃, hz'⟩ := hz'
        exact gives_pure (.inr ⟨rfl, own₃, (hshown.trans hnext).trans hz'⟩)
    · rw [addr_pg_lt hsmall] at hdone
      obtain rfl : m = 0 := by omega
      rw [show pagesOf newsz = pagesOf oldsz + j by omega]
      exact hshown
  · rw [Nat.add_zero, grown_of_le _ le_rfl]
    exact .refl h hS

end Xv6Mem

end KianRiscV
