/-
# Creating, copying and taking apart address spaces

`uvmcreate` makes a space without mappings, `uvmcopy` gives one space the image of another, and
`freewalk` and `uvmfree` give all pages of a space back.
-/
import KianRiscV.Xv6UserMemory

namespace KianRiscV

namespace Xv6Mem

open StateProgram

variable {κ : Type} {sym : Symbols} {own own' : Page → Owner κ} {s t u : Kmem}
  {k k' : κ} {r r' c p q : Page} {i : BitVec 10} {v w : BitVec 20} {e sz : Word} {I J : Image}
  {n depth : ℕ}

/-- No pages are mapped. -/
def noImage : Image := fun _ => none

/-! ## `uvmcreate` -/

/-- A space without mappings, or no memory. -/
theorem Inv.uvmcreate (h : Inv sym s own) (hno : ∀ p, own p ≠ .root k) :
    Gives Xv6Mem.uvmcreate s fun x t => (x = 0#32 ∧ t = s) ∨ ∃ r own', x = addr r ∧
      own r = .free ∧ Shown sym s t own own' k r noImage := by
  unfold Xv6Mem.uvmcreate
  refine h.kalloc.bind fun x t ht => ?_
  rcases ht with ⟨rfl, rfl⟩ | ⟨q, rfl, hfree, hinv, hothers⟩
  · exact gives_ite (fun _ => gives_pure (.inl ⟨rfl, rfl⟩)) fun hno => absurd rfl hno
  · have hqp := h.pool q (by rw [hfree]; nofun)
    refine gives_ite (fun h0 => absurd h0 (addr_ne_zero hqp.ne_zero)) fun _ => ?_
    refine (hinv.memset (Function.update_self q _ own) 0#8).bind fun _ u ⟨hinvu, hzero, hu⟩ => ?_
    have hpages : ∀ p, p ≠ q → pages u.mem p = pages s.mem p := fun p hp =>
      (hu p hp).trans (hothers p hp)
    have hinvalid : ∀ j, pteV (pages u.mem q j) = false := fun j => by
      rw [hzero]
      exact pteV_fill_zero j
    have hroot : ∀ p, Function.update own q (.root k) p = .root k → p = q := fun p hp => by
      by_contra hpq
      rw [Function.update_of_ne hpq] at hp
      exact hno p hp
    have hown : ∀ p o k', o.inSpace = some k' → o ≠ .root k →
        (Function.update own q (.root k) p = o ↔ Function.update own q .kernel p = o) := by
      intro p o k' ho hor
      by_cases hpq : p = q
      · subst hpq
        rw [Function.update_self, Function.update_self]
        refine iff_of_false (fun heq => hor heq.symm) ?_
        rintro rfl
        exact nomatch ho
      · rw [Function.update_of_ne hpq, Function.update_of_ne hpq]
    have hnone : ∀ c i, Function.update own q .kernel c ≠ .table k i := fun c i hc => by
      obtain ⟨p, hp⟩ := hinvu.wf.table c k i hc
      by_cases hpq : p = q
      · subst hpq
        rw [Function.update_self] at hp
        exact nomatch hp
      · rw [Function.update_of_ne hpq] at hp
        exact hno p hp
    have hwf : Wf (pages u.mem) (Function.update own q (.root k)) :=
      hinvu.wf.set_root (fun p k' _ _ => rfl) (fun p k' i _ => rfl) hown hnone
        (fun p x hp hx => (hroot p hp).trans (hroot x hx).symm) fun p hp i => by
          rw [hroot p hp]
          exact hinvalid i
    refine gives_pure (.inr ⟨q, Function.update own q (.root k), rfl, hfree,
      ⟨hinvu.list.congr (fun p _ => rfl) fun p => ?_, hwf, fun p hp => ?_⟩,
      ⟨Function.update_self q _ own, fun v => ?_⟩,
      Keeps.take hfree (show Owner.In k (.root k) from rfl) hpages⟩)
    · by_cases hpq : p = q
      · subst hpq
        rw [Function.update_self, Function.update_self]
        exact iff_of_false nofun nofun
      · rw [Function.update_of_ne hpq, Function.update_of_ne hpq]
    · by_cases hpq : p = q
      · subst hpq
        exact hqp
      · rw [Function.update_of_ne hpq] at hp
        exact h.pool p hp
    · show lookup (pages u.mem) q v = none
      rw [lookup, hinvalid]
      rfl

/-! ## `freewalk` and `uvmfree` -/

theorem ofNat_setWidth {i : ℕ} (hi : i < 1024) :
    BitVec.ofNat 32 i = (BitVec.ofNat 10 i).setWidth 32 := by
  apply BitVec.eq_of_toNat_eq
  simp only [BitVec.toNat_setWidth, BitVec.toNat_ofNat]
  omega

/-- A table without valid entries is given back. -/
theorem gives_freewalk_invalid (hinvalid : ∀ j, pteV (pages s.mem c j) = false)
    (hlist : FreeList sym (pages s.mem) s.freelist own) (hc : own c ≠ .free)
    (hpool : InPool sym c) : Gives (freewalk sym (depth + 1) (addr c)) s fun _ t =>
      (∀ q, q ≠ c → pages t.mem q = pages s.mem q) ∧
        FreeList sym (pages t.mem) t.freelist (Function.update own c .free) := by
  rw [freewalk]
  refine (gives_forRange (fun _ t => t = s) rfl ?_).bind fun _ t ht => ?_
  · rintro i hi _ rfl
    rw [ofNat_setWidth hi]
    refine Gives.bind_eq load_pte ?_
    have hv := and_flagV_eq.2 (hinvalid (BitVec.ofNat 10 i))
    refine gives_ite (fun hno => absurd hv hno.1) fun _ => ?_
    exact gives_ite (fun hno => absurd hv hno) fun _ => gives_pure rfl
  · subst ht
    exact gives_kfree hlist hc hpool

/-- A table is given back and its entry cleared. -/
theorem Inv.free_table (h : Inv sym s own) (hS : Space (pages s.mem) own k r noImage)
    (hc : own c = .table k i) (ht : ∀ x, x ≠ c → pages t.mem x = pages s.mem x)
    (hlist : FreeList sym (pages t.mem) t.freelist (Function.update own c .free))
    (hu : pages u.mem = setEntry (pages t.mem) r i 0#32) (hul : u.freelist = t.freelist) :
    Shown sym s u own (Function.update own c .free) k r noImage := by
  have hrc : r ≠ c := by
    rintro rfl
    rw [hS.root] at hc
    cases hc
  have hM : ∀ x, x ≠ r → x ≠ c → pages u.mem x = pages s.mem x := fun x hxr hxc => by
    rw [hu, setEntry_of_ne _ _ _ hxr, ht x hxc]
  have hMr : pages u.mem r = Function.update (pages s.mem r) i 0#32 := by
    rw [hu, setEntry_self, ht r hrc]
  have hne : ∀ x, own x ≠ .table k i → x ≠ c := by
    rintro x hx rfl
    exact hx hc
  have hgone : ∀ x, Function.update own c .free x ≠ .table k i := fun x hx => by
    by_cases hxc : x = c
    · subst hxc
      rw [Function.update_self] at hx
      cases hx
    · rw [Function.update_of_ne hxc] at hx
      exact hxc (h.wf.table_unique hx hc)
  have hown : ∀ x o k', o.inSpace = some k' → o ≠ .table k i →
      (Function.update own c .free x = o ↔ own x = o) := by
    intro x o k' ho hot
    by_cases hxc : x = c
    · subst hxc
      rw [Function.update_self, hc]
      refine iff_of_false ?_ fun heq => hot heq.symm
      rintro rfl
      cases ho
    · rw [Function.update_of_ne hxc]
  have hwf : Wf (pages u.mem) (Function.update own c .free) := by
    refine h.wf.set_dir hS.root (.inl ⟨rfl, hgone⟩) hMr
      (fun p k' hp hpr => hM p hpr (hne p (by rw [hp]; simp))) (fun p k' i' hp hne' => ?_) hown
      (fun x hx => absurd hx (hgone x)) fun q v hq => absurd hq (hS.no_frame h.wf rfl q)
    refine hM p ?_ (hne p (by rw [hp]; exact hne'))
    rintro rfl
    rw [hS.root] at hp
    cases hp
  refine ⟨⟨?_, hwf, fun x hx => ?_⟩, ⟨?_, fun v => ?_⟩, fun x hf hk => ?_, fun x => ?_⟩
  · rw [hul]
    refine hlist.congr (fun x hx => ?_) fun x => Iff.rfl
    rw [hu, setEntry_of_ne]
    rintro rfl
    rw [Function.update_of_ne hrc, hS.root] at hx
    cases hx
  · by_cases hxc : x = c
    · subst hxc
      exact h.pool x (by rw [hc]; simp)
    · rw [Function.update_of_ne hxc] at hx
      exact h.pool x hx
  · rw [Function.update_of_ne hrc]
    exact hS.root
  · have hv := hS.lookup_eq_none.2 (show noImage v = none from rfl)
    show lookup (pages u.mem) r v = none
    by_cases hvi : hi v = i
    · rw [lookup, hMr, hvi, Function.update_self]
      rfl
    · rw [← hv, lookup, lookup, hMr, Function.update_of_ne hvi]
      rcases h.wf.dir r k hS.root (hi v) with ⟨hinvalid, -⟩ | ⟨d, hd, hsole⟩
      · rw [hinvalid]
        rfl
      · have hdk := (hsole d).2 rfl
        rw [hd, frameOf_pointerTo, hM d]
        · rintro rfl
          rw [hS.root] at hdk
          cases hdk
        · exact hne d (by rw [hdk]; exact fun heq => hvi (Owner.table.inj heq).2)
  · have hxc : x ≠ c := hne x fun heq => hk (by rw [heq]; rfl)
    refine ⟨hM x ?_ hxc, Function.update_of_ne hxc _ _⟩
    rintro rfl
    exact hk (by rw [hS.root]; rfl)
  · by_cases hxc : x = c
    · subst hxc
      rw [Function.update_self]
      exact .inr (.inl rfl)
    · exact .inl (Function.update_of_ne hxc _ _)

/-- A root without tables is given back. -/
theorem Inv.free_root (h : Inv sym s own) (hr : own r = .root k)
    (hno : ∀ c i, own c ≠ .table k i) (ht : ∀ x, x ≠ r → pages t.mem x = pages s.mem x)
    (hlist : FreeList sym (pages t.mem) t.freelist (Function.update own r .free)) :
    Inv sym t (Function.update own r .free) ∧
      Keeps (Owner.In k) s t own (Function.update own r .free) ∧
      ∀ p, ¬ Owner.In k (Function.update own r .free p) := by
  have hgone : ∀ p, Function.update own r .free p ≠ .root k := fun p hp => by
    by_cases hpr : p = r
    · subst hpr
      rw [Function.update_self] at hp
      exact nomatch hp
    · rw [Function.update_of_ne hpr] at hp
      exact hpr (h.wf.root p r k hp hr)
  have hown : ∀ x o k', o.inSpace = some k' → o ≠ .root k →
      (Function.update own r .free x = o ↔ own x = o) := by
    intro x o k' ho hor
    by_cases hxr : x = r
    · subst hxr
      rw [Function.update_self, hr]
      refine iff_of_false ?_ fun heq => hor heq.symm
      rintro rfl
      exact nomatch ho
    · rw [Function.update_of_ne hxr]
  have hwf : Wf (pages t.mem) (Function.update own r .free) := by
    refine h.wf.set_root (fun p k' hp hk => ht p ?_) (fun p k' i hp => ht p ?_) hown hno
      (fun p q hp => absurd hp (hgone p)) fun p hp => absurd hp (hgone p)
    · rintro rfl
      rw [hr] at hp
      exact hk (Owner.root.inj hp).symm
    · rintro rfl
      rw [hr] at hp
      exact nomatch hp
  refine ⟨⟨hlist, hwf, fun x hx => ?_⟩, ⟨fun x hf hk => ?_, fun x => ?_⟩, fun p hp => ?_⟩
  · by_cases hxr : x = r
    · subst hxr
      exact h.pool x (by rw [hr]; nofun)
    · rw [Function.update_of_ne hxr] at hx
      exact h.pool x hx
  · have hxr : x ≠ r := by
      rintro rfl
      exact hk (by rw [hr]; rfl)
    exact ⟨ht x hxr, Function.update_of_ne hxr _ _⟩
  · by_cases hxr : x = r
    · subst hxr
      rw [Function.update_self]
      exact .inr (.inl rfl)
    · exact .inl (Function.update_of_ne hxr _ _)
  · cases ho : Function.update own r .free p with
    | root k' =>
      rw [ho] at hp
      obtain rfl := Option.some.inj (show some k' = some k from hp)
      exact hgone p ho
    | table k' i =>
      rw [ho] at hp
      obtain rfl := Option.some.inj (show some k' = some k from hp)
      exact hno p i ((hown p (.table k' i) k' rfl nofun).1 ho)
    | frame k' v =>
      rw [ho] at hp
      obtain rfl := Option.some.inj (show some k' = some k from hp)
      obtain ⟨c, hc⟩ := h.wf.frame p k' v ((hown p (.frame k' v) k' rfl nofun).1 ho)
      exact hno c _ hc
    | kernel =>
      rw [ho] at hp
      exact nomatch hp
    | free =>
      rw [ho] at hp
      exact nomatch hp
    | trapframe k' =>
      rw [ho] at hp
      exact nomatch hp

theorem pointerTo_flags (c : Page) : pointerTo c &&& (flagR ||| flagW ||| flagX) = 0#32 := by
  apply BitVec.eq_of_getLsbD_eq
  intro k hk
  have hmask : (flagR ||| flagW ||| flagX).getLsbD k = true → k < 10 ∧ k ≠ 0 := by
    have h : ∀ k : Fin 32, (flagR ||| flagW ||| flagX).getLsbD k = true → k.val < 10 ∧ k.val ≠ 0 := by
      decide
    exact h ⟨k, hk⟩
  rw [BitVec.getLsbD_and, BitVec.getLsbD_zero]
  cases hm : (flagR ||| flagW ||| flagX).getLsbD k with
  | false => rw [Bool.and_false]
  | true =>
    obtain ⟨hk10, h0⟩ := hmask hm
    rw [pointerTo_eq, flag_leafTo (by decide) hk10 h0, BitVec.getLsbD_zero, Bool.false_and]

/-- A space without mappings is taken apart: nothing of it is left. -/
theorem Inv.freewalk (h : Inv sym s own) (hS : Space (pages s.mem) own k r noImage) :
    Gives (Xv6Mem.freewalk sym (depth + 2) (addr r)) s fun _ t => ∃ own', Inv sym t own' ∧
      Keeps (Owner.In k) s t own own' ∧ ∀ p, ¬ Owner.In k (own' p) := by
  rw [Xv6Mem.freewalk]
  refine (gives_forRange (fun n t => ∃ own', Shown sym s t own own' k r noImage ∧
    ∀ m < n, ∀ c, own' c ≠ .table k (BitVec.ofNat 10 m)) ⟨own, .refl h hS, nofun⟩ ?_).bind
    fun _ t ⟨own₁, hshown, hgone⟩ => ?_
  · rintro n hn t ⟨own₁, hshown, hgone⟩
    rw [ofNat_setWidth hn]
    refine Gives.bind_eq load_pte ?_
    rcases hshown.inv.wf.dir r k hshown.space.root (BitVec.ofNat 10 n) with
      ⟨hinvalid, hno⟩ | ⟨c, he, hsole⟩
    · have hv := and_flagV_eq.2 hinvalid
      refine gives_ite (fun hno' => absurd hv hno'.1) fun _ => gives_ite (fun hno' => absurd hv hno')
        fun _ => gives_pure ⟨own₁, hshown, fun m hm c hc => ?_⟩
      rcases Nat.lt_succ_iff_lt_or_eq.1 hm with hlt | rfl
      · exact hgone m hlt c hc
      · exact hno c hc
    · rw [he]
      refine gives_ite (fun _ => ?_) fun hno =>
        absurd ⟨and_flagV.2 pteV_pointerTo, pointerTo_flags c⟩ hno
      have hc := (hsole c).2 rfl
      rw [pte2pa_eq, frameOf_pointerTo]
      have hinvalid : ∀ j, pteV (pages t.mem c j) = false := fun j => by
        have hl := hshown.inv.wf.leaf c k _ hc j
        rcases hl with ⟨hv, -⟩ | ⟨hleaf, -⟩
        · exact hv
        · have hlk := hshown.inv.wf.lookup_table (v := BitVec.ofNat 10 n ++ j) hshown.space.root
            (by rw [hi_append]; exact hc)
          rw [lo_append, if_pos hleaf.valid, hshown.space.lookup_eq_none.2 rfl] at hlk
          exact nomatch hlk
      refine (gives_freewalk_invalid hinvalid hshown.inv.list (by rw [hc]; nofun)
        (hshown.inv.pool c (by rw [hc]; nofun))).bind fun _ x ⟨hx, hlist⟩ => ?_
      refine gives_store_pte.mono fun _ y ⟨hy, hyl⟩ => ?_
      have hnext := hshown.inv.free_table hshown.space hc hx hlist hy hyl
      refine ⟨_, hshown.trans hnext, fun m hm d hd => ?_⟩
      by_cases hdc : d = c
      · subst hdc
        rw [Function.update_self] at hd
        exact nomatch hd
      · rw [Function.update_of_ne hdc] at hd
        rcases Nat.lt_succ_iff_lt_or_eq.1 hm with hlt | rfl
        · exact hgone m hlt d hd
        · exact hdc ((hsole d).1 hd)
  · have hno : ∀ c i, own₁ c ≠ .table k i := fun c i hc => by
      refine hgone i.toNat i.isLt c ?_
      rw [BitVec.ofNat_toNat, BitVec.setWidth_eq]
      exact hc
    have hr := hshown.space.root
    refine (gives_kfree hshown.inv.list (by rw [hr]; nofun)
      (hshown.inv.pool r (by rw [hr]; nofun))).mono fun _ x ⟨hx, hlist⟩ => ?_
    obtain ⟨hinv, hkeep, hnone⟩ := hshown.inv.free_root hr hno hx hlist
    exact ⟨_, hinv, hshown.keeps.trans hkeep, hnone⟩

/-- A space whose pages are below `sz` is taken apart. -/
theorem Inv.uvmfree (h : Inv sym s own) (hS : Space (pages s.mem) own k r I)
    (hsz : sz ≤ trapframeVa)
    (hI : ∀ w m, I w = some m → w.toNat < pagesOf sz ∧ m.isPage = true) :
    Gives (Xv6Mem.uvmfree sym (addr r) sz) s fun _ t => ∃ own', Inv sym t own' ∧
      Keeps (Owner.In k) s t own own' ∧ ∀ p, ¬ Owner.In k (own' p) := by
  have hlt := pagesOf_lt hsz
  unfold Xv6Mem.uvmfree
  refine gives_ite (fun _ => ?_) fun hzero => ?_
  · have hcount : pgRoundUp sz / pgSize = BitVec.ofNat 32 (pagesOf sz) := by
      rw [pgRoundUp_eq hsz]
      apply BitVec.eq_of_toNat_eq
      rw [BitVec.toNat_udiv, addr_pg_toNat (by omega), BitVec.toNat_ofNat,
        show pgSize.toNat = 4096 from rfl]
      omega
    have hrun := h.uvmunmap hS 0#20 (pagesOf sz) true
      (by rw [show (0#20).toNat = 0 from rfl]; omega) fun w m _ _ hm => (hI w m hm).2
    have hcut : cut I (0#20).toNat ((0#20).toNat + pagesOf sz) = noImage := by
      funext w
      rw [cut, show (0#20).toNat = 0 from rfl, Nat.zero_add]
      split_ifs with hw
      · rfl
      · cases hm : I w with
        | none => rfl
        | some m => exact absurd ⟨Nat.zero_le _, (hI w m hm).1⟩ hw
    rw [hcut] at hrun
    rw [hcount]
    refine hrun.bind fun _ t ht => ?_
    obtain ⟨own₁, hshown⟩ := ht
    refine (hshown.inv.freewalk hshown.space).mono fun _ u hu => ?_
    obtain ⟨own₂, hinv, hkeep, hnone⟩ := hu
    exact ⟨own₂, hinv, hshown.keeps.trans hkeep, hnone⟩
  · have hsz0 : sz = 0#32 := by
      rw [BitVec.lt_def] at hzero
      apply BitVec.eq_of_toNat_eq
      rw [show (0#32).toNat = 0 from rfl] at hzero ⊢
      omega
    have hempty : I = noImage := by
      funext w
      cases hm : I w with
      | none => rfl
      | some m =>
        have hw := (hI w m hm).1
        rw [hsz0] at hw
        exact absurd hw (Nat.not_lt_zero _)
    rw [hempty] at hS
    exact h.freewalk hS

/-! ## `uvmcopy` -/

/-- The image `J` with the pages of `I` below `n`. -/
def copied (I J : Image) (n : ℕ) : Image := fun w => if w.toNat < n then I w else J w

theorem copied_zero : copied I J 0 = J := by
  funext w
  exact if_neg (Nat.not_lt_zero _)

theorem copied_succ (hn : n < 2 ^ 20) :
    Function.update (copied I J n) (pg n) (I (pg n)) = copied I J (n + 1) := by
  funext w
  by_cases hw : w = pg n
  · subst hw
    rw [Function.update_self, copied, if_pos]
    rw [pg_toNat hn]
    omega
  · have hne : w.toNat ≠ n := fun h => hw (by rw [← h, pg_self])
    rw [Function.update_of_ne hw]
    simp only [copied]
    congr 1
    rw [eq_iff_iff]
    omega

/-- Two spaces in the middle of a function that works on the second. -/
structure Pair (sym : Symbols) (s t : Kmem) (own own' : Page → Owner κ) (k k' : κ) (r r' : Page)
    (I J : Image) : Prop extends Shown sym s t own own' k' r' J where
  old : Space (pages t.mem) own' k r I

theorem Pair.next {own'' : Page → Owner κ} {J' : Image} (h : Pair sym s t own own' k k' r r' I J)
    (hk : k ≠ k') (h' : Shown sym t u own' own'' k' r' J') : Pair sym s u own own'' k k' r r' I J' :=
  ⟨h.toShown.trans h', h.old.kept h'.keeps h.inv.wf h'.inv.wf (Owner.not_in hk)⟩

theorem or_flagV {e : Word} (he : pteV e = true) : pteFlags e ||| flagV = pteFlags e := by
  apply BitVec.eq_of_getLsbD_eq
  intro k hk
  rw [BitVec.getLsbD_or, flagV, BitVec.getLsbD_one]
  by_cases h0 : k = 0
  · subst h0
    rw [pteFlags_getLsbD e (by omega), show e.getLsbD 0 = true from he, Bool.true_or]
  · rw [decide_eq_false h0, Bool.and_false, Bool.or_false]

/-- One page is copied, if it is mapped and there is memory. -/
theorem Inv.uvmcopyPage (h : Inv sym s own) (hS : Space (pages s.mem) own k r I)
    (hS' : Space (pages s.mem) own k' r' J) (hI : ∀ m, I v = some m → m.isPage = true)
    (hJ : J v = none) :
    Gives (Xv6Mem.uvmcopyPage sym (addr r) (addr r') (addr v)) s fun ok t =>
      (ok = true ∧ ∃ own', Shown sym s t own own' k' r' (Function.update J v (I v))) ∨
      (ok = false ∧ ∃ own', Shown sym s t own own' k' r' J) := by
  unfold Xv6Mem.uvmcopyPage
  refine (h.walk hS.root (addr_lt_maxVa v)).bind ?_
  rintro pte t ⟨rfl, hpte⟩
  rw [vpnOf_addr] at hpte
  have hsame : I v = none → ∃ own', Shown sym t t own own' k' r' (Function.update J v (I v)) := by
    intro hnone
    rw [hnone]
    exact ⟨own, h, hS'.update_none hJ, .refl _ t own⟩
  rcases hpte with ⟨rfl, hno⟩ | ⟨c, hc, rfl⟩
  · have hnone := hS.lookup_eq_none.1 (h.wf.lookup_none hS.root hno)
    exact gives_ite (fun _ => gives_pure (.inl ⟨rfl, hsame hnone⟩)) fun hno => absurd rfl hno
  · refine gives_ite (fun h0 => absurd h0 (pteAt_ne_zero (h.table_ne_zero hc) _)) fun _ => ?_
    refine Gives.bind_eq load_pte ?_
    have hlookup := h.wf.lookup_table hS.root hc
    refine gives_ite (fun hv => ?_) fun hv => ?_
    · rw [and_flagV_eq.1 hv] at hlookup
      exact gives_pure (.inl ⟨rfl, hsame (hS.lookup_eq_none.1 hlookup)⟩)
    · rw [and_flagV_eq, Bool.not_eq_false] at hv
      rw [if_pos hv] at hlookup
      have hleaf := (h.wf.lookup_some hS.root hlookup).1
      refine h.kalloc.bind fun x u hu => ?_
      rcases hu with ⟨rfl, rfl⟩ | ⟨q, rfl, hfree, hinv, hothers⟩
      · exact gives_ite (fun _ => gives_pure (.inr ⟨rfl, own, .refl h hS'⟩)) fun hno => absurd rfl hno
      · have hqp := h.pool q (by rw [hfree]; nofun)
        refine gives_ite (fun h0 => absurd h0 (addr_ne_zero hqp.ne_zero)) fun _ => ?_
        rw [pte2pa_eq]
        refine gives_memmove.bind fun _ y ⟨hy, hyl⟩ => ?_
        have hyo : ∀ p, p ≠ q → pages y.mem p = pages t.mem p := fun p hp => by
          rw [hy, Function.update_of_ne hp, hothers p hp]
        have hinvy : Inv sym y (Function.update own q .kernel) := by
          refine hinv.congr hyl fun p hp => ?_
          have hpq : p ≠ q := by
            rintro rfl
            rw [Function.update_self] at hp
            exact hp
          rw [hy, Function.update_of_ne hpq]
        have hperm : GoodPerm (pteFlags (pages t.mem c (lo v))) := by
          refine ⟨pteFlags_lt _, ?_⟩
          rw [pteFlags_getLsbD _ (by omega)]
          exact hleaf.readable
        have himage : I v = some (.page (pteFlags (pages t.mem c (lo v)) ||| flagV)
            (pages y.mem q)) := by
          obtain ⟨m, hm⟩ := Option.ne_none_iff_exists'.1 fun hnone => by
            rw [hS.lookup_eq_none.2 hnone] at hlookup
            exact nomatch hlookup
          have hpage := hI m hm
          cases m with
          | supervisor e => exact nomatch hpage
          | page flags data =>
            obtain ⟨e, he, hown, hflags, hdata⟩ := hS.frame hm
            rw [hlookup] at he
            obtain rfl := Option.some.inj he
            have hne : frameOf (pages t.mem c (lo v)) ≠ q := fun heq => by
              rw [heq, hfree] at hown
              exact nomatch hown
            rw [hm, or_flagV hleaf.valid, hflags, hy, Function.update_self, hothers _ hne, hdata]
        rw [himage]
        exact h.map_new hS' hJ hperm hfree hinvy hyo

/-- The pages below `sz` are copied, or none are. -/
theorem Inv.uvmcopy (h : Inv sym s own) (hS : Space (pages s.mem) own k r I)
    (hS' : Space (pages s.mem) own k' r' J) (hk : k ≠ k') (hsz : sz ≤ trapframeVa)
    (hI : ∀ w m, w.toNat < pagesOf sz → I w = some m → m.isPage = true)
    (hJ : ∀ w : BitVec 20, w.toNat < pagesOf sz → J w = none) :
    Gives (Xv6Mem.uvmcopy sym (addr r) (addr r') sz) s fun ok t =>
      (ok = true ∧ ∃ own', Pair sym s t own own' k k' r r' I (copied I J (pagesOf sz))) ∨
      (ok = false ∧ ∃ own', Pair sym s t own own' k k' r r' I J) := by
  have hlt := pagesOf_lt hsz
  unfold Xv6Mem.uvmcopy
  refine gives_loop (fun m x y => ∃ j, j + m = pagesOf sz ∧ x = addr (pg j) ∧
    ∃ own', Pair sym s y own own' k k' r r' I (copied I J j)) ?_ rounds (pagesOf sz) _ _
    ⟨0, by omega, rfl, own, ?_⟩ (by rw [rounds]; omega)
  · rintro m _ y ⟨j, hj, rfl, own₁, hpair⟩
    have hsmall : j < 2 ^ 20 := by omega
    refine gives_ite (fun hmore => ?_) fun hdone => gives_pure (.inl ⟨rfl, own₁, ?_⟩)
    · rw [addr_pg_lt hsmall] at hmore
      have hJj : copied I J j (pg j) = none := by
        rw [copied, pg_toNat hsmall, if_neg (lt_irrefl j)]
        exact hJ _ (by rw [pg_toNat hsmall]; exact hmore)
      refine (hpair.inv.uvmcopyPage hpair.old hpair.space (fun m' hm' =>
        hI _ m' (by rw [pg_toNat hsmall]; exact hmore) hm') hJj).bind fun ok z hz => ?_
      rcases hz with ⟨rfl, own₂, hnext⟩ | ⟨rfl, own₂, hnext⟩
      · refine gives_ite (fun _ => gives_pure ?_) fun hno => absurd rfl hno
        rw [copied_succ hsmall] at hnext
        exact ⟨m - 1, by omega, j + 1, by omega, addr_pg_succ j, own₂, hpair.next hk hnext⟩
      · refine gives_ite (fun hno => absurd hno Bool.false_ne_true) fun _ => ?_
        have hcount : addr (pg j) / pgSize = BitVec.ofNat 32 j := by
          apply BitVec.eq_of_toNat_eq
          rw [BitVec.toNat_udiv, addr_pg_toNat hsmall, BitVec.toNat_ofNat,
            show pgSize.toNat = 4096 from rfl]
          omega
        have hback := hnext.inv.uvmunmap hnext.space 0#20 j true
          (by rw [show (0#20).toNat = 0 from rfl]; omega) fun w m' _ hw hm' => by
            rw [show (0#20).toNat = 0 from rfl, Nat.zero_add] at hw
            rw [copied, if_pos hw] at hm'
            exact hI w m' (by omega) hm'
        have hcut : cut (copied I J j) (0#20).toNat ((0#20).toNat + j) = J := by
          funext w
          rw [cut, show (0#20).toNat = 0 from rfl, Nat.zero_add, copied]
          split_ifs with hw hwj
          · exact (hJ w (by omega)).symm
          · exact absurd ⟨Nat.zero_le _, hwj⟩ hw
          · rfl
        rw [hcut] at hback
        rw [hcount]
        refine hback.bind fun _ z' hz' => ?_
        obtain ⟨own₃, hz'⟩ := hz'
        refine gives_pure (.inr ⟨rfl, own₃, ?_⟩)
        exact (hpair.next hk hnext).next hk hz'
    · rw [addr_pg_lt hsmall] at hdone
      obtain rfl : j = pagesOf sz := by omega
      exact hpair
  · rw [copied_zero]
    exact ⟨.refl h hS', hS⟩

end Xv6Mem

end KianRiscV
