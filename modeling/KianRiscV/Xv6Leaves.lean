/-
# Mapping and unmapping a page

One round of `mappages` and one of `uvmunmap`: an entry of a table is written, and the page it
maps joins the space or goes back to the pool.  On the image both change one page, and everything
else is kept.
-/
import KianRiscV.Xv6Walk

namespace KianRiscV

namespace Xv6Mem

open StateProgram

variable {κ : Type} {sym : Symbols} {M M' : Pages} {own own' : Page → Owner κ} {s t u : Kmem}
  {k : κ} {r c p q : Page} {v : BitVec 20} {e perm : Word} {I : Image} {m : Option Mapping}

/-- An entry of a table is written. -/
theorem Wf.put_leaf (hwf : Wf M own) (hS : Space M own k r I) (hc : own c = .table k (hi v))
    (hMc : M' c = Function.update (M c) (lo v) e)
    (hM : ∀ p, (own p).Structural → p ≠ c → M' p = M p)
    (hframes : ∀ q w, own q = .frame k w → w ≠ v → M' q = M q)
    (hown : ∀ p o k', o.inSpace = some k' → o ≠ .frame k v → (own' p = o ↔ own p = o))
    (hleaf : LeafEntry own' k v e) (hm : Shows M' own' k v (if pteV e then some e else none) m) :
    Wf M' own' ∧ Space M' own' k r (Function.update I v m) := by
  have hrc : r ≠ c := by
    rintro rfl
    rw [hS.root] at hc
    exact nomatch hc
  have hroot : ∀ p k', own p = .root k' → M' p = M p := fun p k' hp => by
    refine hM p (by rw [hp]; trivial) ?_
    rintro rfl
    rw [hp] at hc
    exact nomatch hc
  have htable : ∀ p k' i', own p = .table k' i' → p ≠ c → M' p = M p := fun p k' i' hp =>
    hM p (by rw [hp]; trivial)
  refine ⟨hwf.set_leaf (i := hi v) (j := lo v) hc ?_ hMc hroot htable fun p o k' ho hne => ?_,
    hS.set hwf hc ((hown r (.root k) k rfl nofun).2 hS.root) (hroot r k hS.root) hMc
      (fun d i hd => htable d k i hd) (fun q w hw => hown q (.frame k w) k rfl fun heq => hw ?_)
      hframes hm⟩
  · rw [append_hi_lo]
    exact hleaf
  · rw [append_hi_lo] at hne
    exact hown p o k' ho hne
  · exact (Owner.frame.inj heq).2

/-- Where nothing is mapped no page belongs. -/
theorem Space.no_frame (hS : Space M own k r I) (hwf : Wf M own) (hI : I v = none) :
    ∀ q, own q ≠ .frame k v := by
  intro q hq
  obtain ⟨c, hc⟩ := hwf.frame q k v hq
  have hnone := hS.lookup_eq_none.2 hI
  rw [hwf.lookup_table hS.root hc] at hnone
  have hl := hwf.leaf c k (hi v) hc (lo v)
  rw [append_hi_lo] at hl
  rcases hl with ⟨-, hno⟩ | ⟨hleaf, -⟩
  · exact hno q hq
  · rw [if_pos hleaf.valid] at hnone
    exact nomatch hnone

theorem isLeaf_leafTo (h : perm.toNat < 1024) (hR : perm.getLsbD 1 = true) : IsLeaf (leafTo q perm) := by
  refine ⟨pteV_leafTo h, ?_, ?_⟩
  · rw [pteR, flag_leafTo h (by omega) (by omega)]
    exact hR
  · have hhigh : ∀ k, 30 ≤ k → (leafTo q perm).getLsbD k = false := by
      intro k hk
      by_cases hk32 : k < 32
      · rw [leafTo_getLsbD q h hk32, if_neg (by omega)]
        exact BitVec.getLsbD_of_ge q _ (by omega)
      · exact BitVec.getLsbD_of_ge _ _ (by omega)
    apply Nat.lt_pow_two_of_testBit
    intro k hk
    by_cases hk22 : k < 22
    · have := hhigh (10 + k) (by omega)
      rw [BitVec.testBit_toNat, ppnOf, BitVec.getLsbD_extractLsb', this, Bool.and_false]
    · rw [BitVec.testBit_toNat]
      exact BitVec.getLsbD_of_ge _ _ (by omega)

/-! ## `mappages` -/

/-- The entry for `v` is found and written, in a state that shows the same image. -/
theorem Inv.mappage_entry (h : Inv sym s own) (hS : Space (pages s.mem) own k r I)
    (hI : I v = none) : Gives (mappage (addr r) (addr v) (addr q) perm) s fun b u =>
      (b = false ∧ u = s) ∨ b = true ∧ ∃ t c own', own' c = .table k (hi v) ∧ Inv sym t own' ∧
        Space (pages t.mem) own' k r I ∧ Keeps (Owner.In k) s t own own' ∧
        pages u.mem = setEntry (pages t.mem) c (lo v) (leafTo q perm) ∧
        u.freelist = t.freelist := by
  unfold mappage
  refine (h.walk_alloc hS (addr_lt_maxVa v)).bind fun pte t ht => ?_
  rw [vpnOf_addr] at ht
  rcases ht with ⟨rfl, rfl⟩ | ⟨c, own', rfl, hc, hinv, hSt, hkeep⟩
  · exact gives_ite (fun _ => gives_pure (.inl ⟨rfl, rfl⟩)) fun hno => absurd rfl hno
  · refine gives_ite (fun h0 => absurd h0 (pteAt_ne_zero (hinv.table_ne_zero hc) _)) fun _ => ?_
    refine Gives.bind_eq load_pte ?_
    have hnone := hSt.lookup_eq_none.2 hI
    rw [hinv.wf.lookup_table hSt.root hc] at hnone
    refine gives_ite (fun hv => ?_) fun _ => ?_
    · rw [if_pos (and_flagV.1 hv)] at hnone
      exact nomatch hnone
    · refine gives_store_pte.bind fun _ u ⟨hu, hlist⟩ => ?_
      exact gives_pure (.inr ⟨rfl, t, c, own', hc, hinv, hSt, hkeep, hu, hlist⟩)

/-- A table is written and nothing else. -/
theorem Inv.set_leaf (h : Inv sym t own) (hS : Space (pages t.mem) own k r I)
    (hc : own c = .table k (hi v)) (hu : pages u.mem = setEntry (pages t.mem) c (lo v) e)
    (hlist : u.freelist = t.freelist) (hfree : ∀ p, own' p = .free ↔ own p = .free)
    (hpool : ∀ p, own' p ≠ .kernel → InPool sym p)
    (hown : ∀ p o k', o.inSpace = some k' → o ≠ .frame k v → (own' p = o ↔ own p = o))
    (hleaf : LeafEntry own' k v e)
    (hm : Shows (pages u.mem) own' k v (if pteV e then some e else none) m) :
    Inv sym u own' ∧ Space (pages u.mem) own' k r (Function.update I v m) := by
  have hM : ∀ p, p ≠ c → pages u.mem p = pages t.mem p := fun p hp => by
    rw [hu, setEntry_of_ne _ _ _ hp]
  have hne : ∀ p, (∀ i, own p ≠ .table k i) → p ≠ c := by
    rintro p hp rfl
    exact hp _ hc
  have hMc : pages u.mem c = Function.update (pages t.mem c) (lo v) e := by
    rw [hu, setEntry_self]
  obtain ⟨hwf, hSu⟩ := h.wf.put_leaf hS hc hMc (fun p _ hpc => hM p hpc)
    (fun p w hp _ => hM p (hne p (by rw [hp]; nofun))) hown hleaf hm
  refine ⟨⟨?_, hwf, hpool⟩, hSu⟩
  rw [hlist]
  exact h.list.congr (fun p hp => hM p (hne p (by rw [hp]; nofun))) hfree

/-- A written table is part of the space. -/
theorem Keeps.set_leaf {i : BitVec 10} {w : Word} (h : Keeps (Owner.In k) s t own own')
    (hc : own' c = .table k (hi v)) (hu : pages u.mem = setEntry (pages t.mem) c i w) :
    Keeps (Owner.In k) s u own own' := by
  refine ⟨fun p hf hk => ?_, h.given⟩
  obtain ⟨hpage, hop⟩ := h.kept p hf hk
  refine ⟨?_, hop⟩
  rw [hu, setEntry_of_ne, hpage]
  rintro rfl
  rw [← hop, hc] at hk
  exact hk rfl

/-- A page of the kernel joins the space at `v`. -/
theorem Inv.mappage_page (h : Inv sym s own) (hS : Space (pages s.mem) own k r I)
    (hI : I v = none) (hq : own q = .kernel) (hpool : InPool sym q) (hperm : perm.toNat < 1024)
    (hR : perm.getLsbD 1 = true) :
    Gives (mappage (addr r) (addr v) (addr q) perm) s fun b u =>
      (b = false ∧ u = s) ∨ b = true ∧ ∃ own', Inv sym u own' ∧
        Space (pages u.mem) own' k r
          (Function.update I v (some (.page (perm ||| flagV) (pages s.mem q)))) ∧
        Keeps (Owner.In k) s u (Function.update own q (.frame k v)) own' := by
  refine (h.mappage_entry hS hI).mono fun b u hb => ?_
  rcases hb with hb | ⟨rfl, t, c, own₁, hc, hinv, hSt, hkeep, hu, hlist⟩
  · exact .inl hb
  · have hq₁ : own₁ q = .kernel := hkeep.kernel.2 hq
    have hqc : q ≠ c := by
      rintro rfl
      rw [hq₁] at hc
      exact nomatch hc
    have hdata : pages u.mem q = pages s.mem q := by
      rw [hu, setEntry_of_ne _ _ _ hqc]
      exact (hkeep.kept q (by rw [hq]; nofun) (by rw [hq]; nofun)).1
    have hown : ∀ p o, o ≠ .frame k v → o ≠ .kernel →
        (Function.update own₁ q (.frame k v) p = o ↔ own₁ p = o) := by
      intro p o hof hok
      by_cases hpq : p = q
      · subst hpq
        rw [Function.update_self, hq₁]
        exact iff_of_false (fun heq => hof heq.symm) fun heq => hok heq.symm
      · rw [Function.update_of_ne hpq]
    have hsole : Sole (Function.update own₁ q (.frame k v)) (.frame k v)
        (frameOf (leafTo q perm)) := by
      intro p
      rw [frameOf_leafTo hperm]
      by_cases hpq : p = q
      · subst hpq
        exact iff_of_true (Function.update_self p _ own₁) rfl
      · rw [Function.update_of_ne hpq]
        exact iff_of_false (hSt.no_frame hinv.wf hI p) hpq
    have hpool₁ : ∀ p, Function.update own₁ q (.frame k v) p ≠ .kernel → InPool sym p := by
      intro p hp
      by_cases hpq : p = q
      · subst hpq
        exact hpool
      · rw [Function.update_of_ne hpq] at hp
        exact hinv.pool p hp
    have hshows : Shows (pages u.mem) (Function.update own₁ q (.frame k v)) k v
        (if pteV (leafTo q perm) then some (leafTo q perm) else none)
        (some (.page (perm ||| flagV) (pages s.mem q))) := by
      rw [pteV_leafTo hperm]
      refine ⟨_, rfl, ?_, pteFlags_leafTo hperm, ?_⟩
      · rw [frameOf_leafTo hperm, Function.update_self]
      · rw [frameOf_leafTo hperm, hdata]
    obtain ⟨hinvu, hSu⟩ := hinv.set_leaf hSt hc hu hlist (fun p => hown p .free nofun nofun) hpool₁
      (fun p o k' ho hof => hown p o hof (by rintro rfl; exact nomatch ho))
      (.inr ⟨isLeaf_leafTo hperm hR, .inl hsole⟩) hshows
    have hkeepu := hkeep.set_leaf hc hu
    refine .inr ⟨rfl, _, hinvu, hSu, fun p hf hk => ?_, fun p => ?_⟩
    · have hpq : p ≠ q := by
        rintro rfl
        exact hk (by rw [Function.update_self]; rfl)
      rw [Function.update_of_ne hpq] at hf hk
      rw [Function.update_of_ne hpq, Function.update_of_ne hpq]
      exact hkeepu.kept p hf hk
    · by_cases hpq : p = q
      · subst hpq
        rw [Function.update_self, Function.update_self]
        exact .inl rfl
      · rw [Function.update_of_ne hpq, Function.update_of_ne hpq]
        exact hkeep.given p

/-- A page is mapped for the supervisor. -/
theorem Inv.mappage_supervisor (h : Inv sym s own) (hS : Space (pages s.mem) own k r I)
    (hI : I v = none) (hperm : perm.toNat < 1024) (hR : perm.getLsbD 1 = true)
    (hU : perm.getLsbD 4 = false) : Gives (mappage (addr r) (addr v) (addr q) perm) s fun b u =>
      (b = false ∧ u = s) ∨ b = true ∧ ∃ own', Inv sym u own' ∧
        Space (pages u.mem) own' k r
          (Function.update I v (some (.supervisor (leafTo q perm)))) ∧
        Keeps (Owner.In k) s u own own' := by
  refine (h.mappage_entry hS hI).mono fun b u hb => ?_
  rcases hb with hb | ⟨rfl, t, c, own₁, hc, hinv, hSt, hkeep, hu, hlist⟩
  · exact .inl hb
  · have hno := hSt.no_frame hinv.wf hI
    have huser : pteU (leafTo q perm) = false := by
      rw [pteU, flag_leafTo hperm (by omega) (by omega)]
      exact hU
    have hshows : Shows (pages u.mem) own₁ k v
        (if pteV (leafTo q perm) then some (leafTo q perm) else none)
        (some (.supervisor (leafTo q perm))) := by
      rw [pteV_leafTo hperm]
      exact ⟨rfl, huser, hno⟩
    obtain ⟨hinvu, hSu⟩ := hinv.set_leaf hSt hc hu hlist (fun p => Iff.rfl) hinv.pool
      (fun p o k' _ _ => Iff.rfl) (.inr ⟨isLeaf_leafTo hperm hR, .inr ⟨hno, huser⟩⟩) hshows
    exact .inr ⟨rfl, own₁, hinvu, hSu, hkeep.set_leaf hc hu⟩

/-- `mappages` for one page is one round. -/
theorem mappages_one (pagetable pa : Word) :
    mappages pagetable (addr v) pgSize pa perm = mappage pagetable (addr v) pa perm := by
  have hlast : addr v + pgSize - pgSize = addr v := BitVec.add_sub_cancel (addr v) pgSize
  unfold mappages
  rw [if_neg (not_not.2 (addr_aligned v)), if_neg (by decide), if_neg (by decide), hlast, rounds,
    show 2 ^ 32 = 4294967295 + 1 from rfl, loop]
  funext s
  cases hrun : mappage pagetable (addr v) pa perm s with
  | error stop => exact bind_error (bind_error hrun)
  | ok res =>
    obtain ⟨b, t⟩ := res
    have hbody : (mappage pagetable (addr v) pa perm >>= fun done =>
        if done = false then pure (.inr false)
        else if addr v = addr v then pure (.inr true)
        else pure (.inl (addr v + pgSize, pa + pgSize)) : Kernel (Word × Word ⊕ Bool)) s
          = .ok (.inr b, t) := by
      rw [bind_eq hrun]
      cases b with
      | false => rfl
      | true => rw [if_neg (by decide), if_pos rfl]; rfl
    exact (bind_eq hbody).trans rfl

/-! ## `uvmunmap` -/

/-- The mapped page is one of the space. -/
def Mapping.isPage : Mapping → Bool
  | .page _ _ => true
  | .supervisor _ => false

theorem Space.update_none (h : Space M own k r I) (hI : I v = none) :
    Space M own k r (Function.update I v none) := by
  rw [← hI, Function.update_eq_self]
  exact h

/-- The page of the space at `v` goes back to the pool. -/
theorem Inv.free_leaf (h : Inv sym s own) (hS : Space (pages s.mem) own k r I)
    (hc : own c = .table k (hi v)) (hp : own p = .frame k v)
    (hsole : Sole own (.frame k v) p)
    (ht : ∀ x, x ≠ p → pages t.mem x = pages s.mem x)
    (hlist : FreeList sym (pages t.mem) t.freelist (Function.update own p .free))
    (hu : pages u.mem = setEntry (pages t.mem) c (lo v) 0#32) (hul : u.freelist = t.freelist) :
    ∃ own', Inv sym u own' ∧ Space (pages u.mem) own' k r (Function.update I v none) ∧
      Keeps (Owner.In k) s u own own' := by
  have hcp : c ≠ p := by
    rintro rfl
    rw [hp] at hc
    exact nomatch hc
  have hM : ∀ x, x ≠ c → x ≠ p → pages u.mem x = pages s.mem x := fun x hxc hxp => by
    rw [hu, setEntry_of_ne _ _ _ hxc, ht x hxp]
  have hne : ∀ x, own x ≠ .frame k v → x ≠ p := by
    rintro x hx rfl
    exact hx hp
  have hMc : pages u.mem c = Function.update (pages s.mem c) (lo v) 0#32 := by
    rw [hu, setEntry_self, ht c hcp]
  have hown : ∀ x o k', o.inSpace = some k' → o ≠ .frame k v →
      (Function.update own p .free x = o ↔ own x = o) := by
    intro x o k' ho hof
    by_cases hxp : x = p
    · subst hxp
      rw [Function.update_self, hp]
      refine iff_of_false ?_ fun heq => hof heq.symm
      rintro rfl
      exact nomatch ho
    · rw [Function.update_of_ne hxp]
  have hleaf : LeafEntry (Function.update own p .free) k v 0#32 := by
    refine .inl ⟨rfl, fun x hx => ?_⟩
    by_cases hxp : x = p
    · subst hxp
      rw [Function.update_self] at hx
      exact nomatch hx
    · rw [Function.update_of_ne hxp] at hx
      exact hxp ((hsole x).1 hx)
  obtain ⟨hwf, hSu⟩ := h.wf.put_leaf hS hc hMc
    (fun x hx hxc => hM x hxc (hne x (by rintro heq; rw [heq] at hx; exact hx)))
    (fun x w hx hw => hM x (by rintro rfl; rw [hc] at hx; exact nomatch hx)
      (hne x (by rw [hx]; exact fun heq => hw (Owner.frame.inj heq).2)))
    hown hleaf (m := none) rfl
  refine ⟨_, ⟨?_, hwf, fun x hx => ?_⟩, hSu, fun x hf hk => ?_, fun x => ?_⟩
  · rw [hul]
    refine hlist.congr (fun x hx => ?_) fun x => Iff.rfl
    rw [hu, setEntry_of_ne]
    rintro rfl
    rw [Function.update_of_ne hcp, hc] at hx
    exact nomatch hx
  · by_cases hxp : x = p
    · subst hxp
      exact h.pool x (by rw [hp]; nofun)
    · rw [Function.update_of_ne hxp] at hx
      exact h.pool x hx
  · have hxp : x ≠ p := hne x fun heq => hk (by rw [heq]; rfl)
    refine ⟨hM x ?_ hxp, Function.update_of_ne hxp _ _⟩
    rintro rfl
    exact hk (by rw [hc]; rfl)
  · by_cases hxp : x = p
    · subst hxp
      rw [Function.update_self]
      exact .inr (.inl rfl)
    · exact .inl (Function.update_of_ne hxp _ _)

/-- A round of `uvmunmap`, with `do_free` for the pages of the space only. -/
theorem Inv.unmapPage {doFree : Bool} (h : Inv sym s own) (hS : Space (pages s.mem) own k r I)
    (hI : ∀ m, I v = some m → m.isPage = doFree) :
    Gives (unmapPage sym (addr r) (addr v) doFree) s fun _ u => ∃ own', Inv sym u own' ∧
      Space (pages u.mem) own' k r (Function.update I v none) ∧
      Keeps (Owner.In k) s u own own' := by
  unfold Xv6Mem.unmapPage
  refine (h.walk hS.root (addr_lt_maxVa v)).bind ?_
  rintro pte t ⟨rfl, hpte⟩
  rw [vpnOf_addr] at hpte
  have hsame : I v = none → ∃ own', Inv sym t own' ∧
      Space (pages t.mem) own' k r (Function.update I v none) ∧ Keeps (Owner.In k) t t own own' :=
    fun hnone => ⟨own, h, hS.update_none hnone, .refl _ t own⟩
  rcases hpte with ⟨rfl, hno⟩ | ⟨c, hc, rfl⟩
  · have hnone := hS.lookup_eq_none.1 (h.wf.lookup_none hS.root hno)
    exact gives_ite (fun _ => gives_pure (hsame hnone)) fun hno => absurd rfl hno
  · refine gives_ite (fun h0 => absurd h0 (pteAt_ne_zero (h.table_ne_zero hc) _)) fun _ => ?_
    refine Gives.bind_eq load_pte ?_
    have hlookup := h.wf.lookup_table hS.root hc
    refine gives_ite (fun hv => gives_pure (hsame (hS.lookup_eq_none.1 ?_))) fun hv => ?_
    · rw [hlookup, and_flagV_eq.1 hv]
      rfl
    · rw [and_flagV_eq, Bool.not_eq_false] at hv
      rw [if_pos hv] at hlookup
      have hshows := hS.shows v
      rw [hlookup] at hshows
      obtain ⟨m, hm⟩ := Option.ne_none_iff_exists'.1 fun hnone => by
        rw [hS.lookup_eq_none.2 hnone] at hlookup
        exact nomatch hlookup
      rw [hm] at hshows
      have hpage := hI m hm
      cases m with
      | page flags data =>
        rw [← hpage]
        refine gives_ite (fun _ => ?_) fun hno => absurd rfl hno
        obtain ⟨e, he, hown, -⟩ := hshows
        obtain rfl := Option.some.inj he
        rw [pte2pa_eq]
        refine (gives_kfree h.list (by rw [hown]; nofun) (h.pool _ (by rw [hown]; nofun))).bind
          fun _ t' ⟨ht, hlist⟩ => gives_store_pte.mono fun _ u ⟨hu, hul⟩ => ?_
        have hsole : Sole own (.frame k v) (frameOf (pages t.mem c (lo v))) := by
          rcases (h.wf.lookup_some hS.root hlookup).2 with hs | ⟨hno, -⟩
          · exact hs
          · exact absurd hown (hno _)
        exact h.free_leaf hS hc hown hsole ht hlist hu hul
      | supervisor e =>
        rw [← hpage]
        refine gives_ite (fun hno => absurd hno Bool.false_ne_true) fun _ => ?_
        refine gives_store_pte.mono fun _ u ⟨hu, hul⟩ => ?_
        obtain ⟨hinv, hSu⟩ := h.set_leaf hS hc hu hul (fun p => Iff.rfl) h.pool
          (fun p o k' _ _ => Iff.rfl) (.inl ⟨rfl, hshows.2.2⟩) (m := none) rfl
        exact ⟨own, hinv, hSu, (Keeps.refl _ t own).set_leaf hc hu⟩

end Xv6Mem

end KianRiscV
