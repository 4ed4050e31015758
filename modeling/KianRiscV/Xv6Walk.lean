/-
# The functions for one page

`kalloc`, `kfree` and `walk` under the invariant of the tables, and with them what `mappages` and
`uvmunmap` do for one page: the image of the space changes at that page.
-/
import KianRiscV.Xv6Spaces

namespace KianRiscV

namespace Xv6Mem

open StateProgram

variable {κ : Type} {sym : Symbols} {M M' : Pages} {own own' : Page → Owner κ} {s t : Kmem}
  {k : κ} {r c p q : Page} {i : BitVec 10} {v : BitVec 20} {e va perm : Word} {I : Image}
  {o : Owner κ}

/-! ## Pages outside of the spaces -/

/-- A page that is part of no space changes its mark. -/
theorem Wf.relabel (h : Wf M own) (hq : (own q).inSpace = none) (ho : o.inSpace = none)
    (hM : ∀ p, p ≠ q → M' p = M p) : Wf M' (Function.update own q o) := by
  have hne : ∀ p o' k, own p = o' → o'.inSpace = some k → p ≠ q := by
    rintro p _ k rfl ho' rfl
    rw [hq] at ho'
    exact nomatch ho'
  refine h.congr (fun p k hp => hM p (hne p _ k hp rfl)) (fun p k i hp => hM p (hne p _ k hp rfl))
    fun p o' k' ho' => ?_
  by_cases hpq : p = q
  · subst hpq
    rw [Function.update_self]
    refine iff_of_false ?_ fun hp => hne p o' k' hp ho' rfl
    rintro rfl
    rw [ho] at ho'
    exact nomatch ho'
  · rw [Function.update_of_ne hpq]

/-- The contents of a page count if it is free, a root or a table. -/
def Owner.Structural : Owner κ → Prop
  | .free => True
  | .root _ => True
  | .table _ _ => True
  | _ => False

theorem Inv.congr (h : Inv sym s own) (hlist : t.freelist = s.freelist)
    (hM : ∀ p, (own p).Structural → pages t.mem p = pages s.mem p) : Inv sym t own := by
  refine ⟨?_, ?_, h.pool⟩
  · rw [hlist]
    exact h.list.congr (fun p hp => hM p (by rw [hp]; trivial)) fun p => Iff.rfl
  · exact h.wf.congr (fun p k hp => hM p (by rw [hp]; trivial))
      (fun p k i hp => hM p (by rw [hp]; trivial)) fun p o k _ => Iff.rfl

theorem Inv.kalloc (h : Inv sym s own) : Gives kalloc s fun r t =>
    (r = 0#32 ∧ t = s) ∨ ∃ q, r = addr q ∧ own q = .free ∧
      Inv sym t (Function.update own q .kernel) ∧ ∀ p, p ≠ q → pages t.mem p = pages s.mem p := by
  refine (gives_kalloc h.list).mono fun r t ht => ?_
  rcases ht with ⟨hr, ht, -⟩ | ⟨q, hr, hfree, hpages, hlist⟩
  · exact .inl ⟨hr, ht⟩
  · have hothers : ∀ p, p ≠ q → pages t.mem p = pages s.mem p := fun p hp => by
      rw [hpages, Function.update_of_ne hp]
    refine .inr ⟨q, hr, hfree, ⟨hlist .kernel nofun, ?_, fun p hp => ?_⟩, hothers⟩
    · exact h.wf.relabel (by rw [hfree]; rfl) rfl hothers
    · by_cases hpq : p = q
      · subst hpq
        exact absurd (Function.update_self p _ own) hp
      · rw [Function.update_of_ne hpq] at hp
        exact h.pool p hp

/-- A page of the kernel goes back to the pool. -/
theorem Inv.kfree (h : Inv sym s own) (hp : own p = .kernel) (hpool : InPool sym p) :
    Gives (kfree sym (addr p)) s fun _ t => Inv sym t (Function.update own p .free) ∧
      ∀ q, q ≠ p → pages t.mem q = pages s.mem q := by
  refine (gives_kfree h.list (by rw [hp]; nofun) hpool).mono fun _ t ⟨hpages, hlist⟩ => ?_
  refine ⟨⟨hlist, h.wf.relabel (by rw [hp]; rfl) rfl hpages, fun q hq => ?_⟩, hpages⟩
  by_cases hqp : q = p
  · subst hqp
    exact hpool
  · rw [Function.update_of_ne hqp] at hq
    exact h.pool q hq

theorem Inv.memset (h : Inv sym s own) (hp : own p = .kernel) (b : BitVec 8) :
    Gives (memset (addr p) b pgSize) s fun _ t => Inv sym t own ∧ pages t.mem p = fill b ∧
      ∀ q, q ≠ p → pages t.mem q = pages s.mem q := by
  refine (gives_memset b).mono fun _ t ⟨hpages, hlist⟩ => ?_
  have hothers : ∀ q, q ≠ p → pages t.mem q = pages s.mem q := fun q hq => by
    rw [hpages, Function.update_of_ne hq]
  refine ⟨h.congr hlist fun q hq => hothers q ?_, by rw [hpages, Function.update_self], hothers⟩
  rintro rfl
  rw [hp] at hq
  exact hq

/-- A free page is taken into use. -/
theorem Keeps.take {mine : Owner κ → Prop} (hq : own q = .free) (ho : mine o)
    (hpages : ∀ p, p ≠ q → pages t.mem p = pages s.mem p) :
    Keeps mine s t own (Function.update own q o) := by
  refine ⟨fun p hf _ => ?_, fun p => ?_⟩
  · have hpq : p ≠ q := by
      rintro rfl
      exact hf hq
    exact ⟨hpages p hpq, Function.update_of_ne hpq _ _⟩
  · by_cases hpq : p = q
    · subst hpq
      rw [Function.update_self]
      exact .inr (.inr ho)
    · exact .inl (Function.update_of_ne hpq _ _)

/-- A page of this use is given back. -/
theorem Keeps.give {mine : Owner κ → Prop} (hq : mine (own q))
    (hpages : ∀ p, p ≠ q → pages t.mem p = pages s.mem p) :
    Keeps mine s t own (Function.update own q .free) := by
  refine ⟨fun p _ hm => ?_, fun p => ?_⟩
  · have hpq : p ≠ q := by
      rintro rfl
      exact hm hq
    exact ⟨hpages p hpq, Function.update_of_ne hpq _ _⟩
  · by_cases hpq : p = q
    · subst hpq
      rw [Function.update_self]
      exact .inr (.inl rfl)
    · exact .inl (Function.update_of_ne hpq _ _)

/-! ## `walk` -/

theorem addr_lt_maxVa (v : BitVec 20) : ¬ maxVa ≤ addr v := by
  have hv := v.isLt
  rw [BitVec.not_le, BitVec.lt_def, addr_toNat]
  show v.toNat * 4096 < 4294967295
  omega

/-- Without `alloc` the entry is found if the space has the table. -/
theorem Inv.walk (h : Inv sym s own) (hr : own r = .root k) (hva : ¬ maxVa ≤ va) :
    Gives (walk (addr r) va false) s fun pte t => t = s ∧
      ((pte = 0#32 ∧ ∀ q, own q ≠ .table k (hi (vpnOf va))) ∨
        ∃ c, own c = .table k (hi (vpnOf va)) ∧
          pte = pteAt (addr c) ((lo (vpnOf va)).setWidth 32)) := by
  unfold Xv6Mem.walk
  rw [px_one, px_zero, vpn1Of_eq, vpn0Of_eq]
  refine gives_ite (fun hno => absurd hno hva) fun _ => ?_
  refine Gives.bind_eq load_pte ?_
  rcases h.wf.dir r k hr (hi (vpnOf va)) with ⟨hinv, hno⟩ | ⟨c, he, hsole⟩
  · refine gives_ite (fun hv => ?_) fun _ => ?_
    · rw [and_flagV.1 hv] at hinv
      exact absurd hinv nofun
    · exact gives_ite (fun _ => gives_pure ⟨rfl, .inl ⟨rfl, hno⟩⟩) fun hno => absurd rfl hno
  · rw [he]
    refine gives_ite (fun _ => ?_) fun hno => absurd (and_flagV.2 pteV_pointerTo) hno
    refine gives_pure ⟨rfl, .inr ⟨c, (hsole c).2 rfl, ?_⟩⟩
    rw [pte2pa_eq, frameOf_pointerTo]

theorem Inv.table_ne_zero (h : Inv sym s own) (hc : own c = .table k i) : c ≠ 0#20 :=
  (h.pool c (by rw [hc]; nofun)).ne_zero

theorem pteV_fill_zero (j : BitVec 10) : pteV (fill 0#8 j) = false := by
  show pteV (0#8 ++ 0#8 ++ 0#8 ++ 0#8) = false
  decide

/-- A free page becomes a table without entries. -/
theorem Inv.add_table (h : Inv sym s own) (hS : Space (pages s.mem) own k r I)
    (hno : ∀ c, own c ≠ .table k i) (hq : own q = .free)
    (hlist : FreeList sym (pages t.mem) t.freelist (Function.update own q .kernel))
    (hMr : pages t.mem r = Function.update (pages s.mem r) i (pointerTo q))
    (hMq : pages t.mem q = fill 0#8)
    (hM : ∀ p, p ≠ r → p ≠ q → pages t.mem p = pages s.mem p) :
    Inv sym t (Function.update own q (.table k i)) ∧
      Space (pages t.mem) (Function.update own q (.table k i)) k r I ∧
      Keeps (Owner.In k) s t own (Function.update own q (.table k i)) := by
  have hne : ∀ p, own p ≠ .free → p ≠ q := by
    rintro p hp rfl
    exact hp hq
  have hrq : r ≠ q := hne r (by rw [hS.root]; nofun)
  have hown : ∀ p o, o ≠ .free → o ≠ .table k i →
      (Function.update own q (.table k i) p = o ↔ own p = o) := by
    intro p o hof hot
    by_cases hpq : p = q
    · subst hpq
      rw [Function.update_self, hq]
      exact iff_of_false (fun heq => hot heq.symm) fun heq => hof heq.symm
    · rw [Function.update_of_ne hpq]
  have hsole : Sole (Function.update own q (.table k i)) (.table k i) q := by
    intro p
    by_cases hpq : p = q
    · subst hpq
      exact iff_of_true (Function.update_self p _ own) rfl
    · rw [Function.update_of_ne hpq]
      exact iff_of_false (hno p) hpq
  have hwf : Wf (pages t.mem) (Function.update own q (.table k i)) := by
    refine h.wf.set_dir hS.root (.inr ⟨q, rfl, hsole⟩) hMr (fun p k' hp hpr => ?_)
      (fun p k' i' hp hne' => ?_) (fun p o k' ho hot => hown p o (by rintro rfl; exact nomatch ho) hot)
      (fun c hc j => ?_) fun p w hp hw => ?_
    · exact hM p hpr (hne p (by rw [hp]; nofun))
    · refine hM p ?_ (hne p (by rw [hp]; nofun))
      rintro rfl
      rw [hS.root] at hp
      exact nomatch hp
    · rw [(hsole c).1 hc, hMq]
      exact pteV_fill_zero j
    · obtain ⟨c, hc⟩ := h.wf.frame p k w hp
      rw [hw] at hc
      exact hno c hc
  refine ⟨⟨hlist.congr (fun p _ => rfl) fun p => ?_, hwf, fun p hp => ?_⟩, ?_, fun p hf hk => ?_,
    fun p => ?_⟩
  · by_cases hpq : p = q
    · subst hpq
      rw [Function.update_self, Function.update_self]
      exact iff_of_false nofun nofun
    · rw [Function.update_of_ne hpq, Function.update_of_ne hpq]
  · by_cases hpq : p = q
    · subst hpq
      exact h.pool p (by rw [hq]; nofun)
    · rw [Function.update_of_ne hpq] at hp
      exact h.pool p hp
  · have hroot := (hown r (.root k) nofun nofun).2 hS.root
    refine hS.congr hroot (fun w => ?_) (fun p w => hown p (.frame k w) nofun nofun) fun p w hp => ?_
    · by_cases hnow : ∀ c, own c ≠ .table k (hi w)
      · rw [h.wf.lookup_none hS.root hnow]
        by_cases hwi : hi w = i
        · rw [hwf.lookup_table hroot (c := q) (by rw [hwi, Function.update_self]), hMq,
            pteV_fill_zero]
          rfl
        · refine hwf.lookup_none hroot fun c hc => hnow c ((hown c (.table k (hi w)) nofun fun heq => ?_).1 hc)
          exact hwi (Owner.table.inj heq).2
      · obtain ⟨c, hc⟩ := not_forall_not.1 hnow
        have hwi : Owner.table k (hi w) ≠ .table k i := by
          intro heq
          rw [heq] at hc
          exact hno c hc
        have hcr : c ≠ r := by
          rintro rfl
          rw [hS.root] at hc
          exact nomatch hc
        rw [h.wf.lookup_table hS.root hc, hwf.lookup_table hroot ((hown c (.table k (hi w)) nofun hwi).2 hc),
          hM c hcr (hne c (by rw [hc]; nofun))]
    · refine hM p ?_ (hne p (by rw [hp]; nofun))
      rintro rfl
      rw [hS.root] at hp
      exact nomatch hp
  · refine ⟨hM p ?_ (hne p hf), Function.update_of_ne (hne p hf) _ _⟩
    rintro rfl
    rw [hS.root] at hk
    exact hk rfl
  · by_cases hpq : p = q
    · subst hpq
      rw [Function.update_self]
      exact .inr (.inr rfl)
    · exact .inl (Function.update_of_ne hpq _ _)

/-- With `alloc` the entry is found, in a new table if need be, or there is no memory. -/
theorem Inv.walk_alloc (h : Inv sym s own) (hS : Space (pages s.mem) own k r I)
    (hva : ¬ maxVa ≤ va) : Gives (Xv6Mem.walk (addr r) va true) s fun pte t =>
      (pte = 0#32 ∧ t = s) ∨ ∃ c own', pte = pteAt (addr c) ((lo (vpnOf va)).setWidth 32) ∧
        own' c = .table k (hi (vpnOf va)) ∧ Inv sym t own' ∧ Space (pages t.mem) own' k r I ∧
        Keeps (Owner.In k) s t own own' := by
  unfold Xv6Mem.walk
  rw [px_one, px_zero, vpn1Of_eq, vpn0Of_eq]
  refine gives_ite (fun hno => absurd hno hva) fun _ => ?_
  refine Gives.bind_eq load_pte ?_
  rcases h.wf.dir r k hS.root (hi (vpnOf va)) with ⟨hinv, hno⟩ | ⟨c, he, hsole⟩
  · refine gives_ite (fun hv => ?_) fun _ => gives_ite nofun fun _ => ?_
    · rw [and_flagV.1 hv] at hinv
      exact absurd hinv nofun
    · refine h.kalloc.bind fun x t ht => ?_
      rcases ht with ⟨rfl, rfl⟩ | ⟨q, rfl, hfree, hinv', hothers⟩
      · exact gives_ite (fun _ => gives_pure (.inl ⟨rfl, rfl⟩)) fun hno => absurd rfl hno
      · have hqp := h.pool q (by rw [hfree]; nofun)
        refine gives_ite (fun h0 => absurd h0 (addr_ne_zero hqp.ne_zero)) fun _ => ?_
        refine (hinv'.memset (Function.update_self q _ own) 0#8).bind ?_
        rintro _ u ⟨hinvu, hzero, hu⟩
        refine gives_store_pte.bind ?_
        rintro _ x ⟨hx, hlist⟩
        have hrq : r ≠ q := by
          rintro rfl
          rw [hS.root] at hfree
          exact nomatch hfree
        have hMr : pages x.mem r = Function.update (pages s.mem r) (hi (vpnOf va)) (pointerTo q) := by
          rw [hx, setEntry_self, hu r hrq, hothers r hrq]
          rfl
        have hMq : pages x.mem q = fill 0#8 := by
          rw [hx, setEntry_of_ne _ _ _ hrq.symm, hzero]
        have hM : ∀ p, p ≠ r → p ≠ q → pages x.mem p = pages s.mem p := fun p hpr hpq => by
          rw [hx, setEntry_of_ne _ _ _ hpr, hu p hpq, hothers p hpq]
        have hfl : FreeList sym (pages x.mem) x.freelist (Function.update own q .kernel) := by
          rw [hlist]
          refine hinvu.list.congr (fun p hp => ?_) fun p => Iff.rfl
          rw [hx, setEntry_of_ne]
          rintro rfl
          rw [Function.update_of_ne hrq, hS.root] at hp
          exact nomatch hp
        obtain ⟨hinvx, hSx, hkeep⟩ := h.add_table hS hno hfree hfl hMr hMq hM
        exact gives_pure (.inr ⟨q, _, rfl, Function.update_self q _ own, hinvx, hSx, hkeep⟩)
  · rw [he]
    refine gives_ite (fun _ => ?_) fun hno => absurd (and_flagV.2 pteV_pointerTo) hno
    refine gives_pure (.inr ⟨c, own, ?_, (hsole c).2 rfl, h, hS, .refl _ s own⟩)
    rw [pte2pa_eq, frameOf_pointerTo]

end Xv6Mem

end KianRiscV
