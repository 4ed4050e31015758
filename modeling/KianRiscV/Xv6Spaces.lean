/-
# Address spaces

An address space is given by its image: which pages are mapped, with which flags and contents.
`Space` says that the tables in memory show an image.  `Keeps` is what a function leaves alone: all
pages but the free ones and those it works on keep their owner and their contents.  So a function
of `vm.c` is described by what it does to the image of one space, and the images of all other
spaces stay as they are.

This module has the functions for one page, `walk`, `mappage` and `unmapPage`.
-/
import KianRiscV.Xv6Tables

namespace KianRiscV

namespace Xv6Mem

open StateProgram

/-- A mapped page: one of the space, or any page for the supervisor only. -/
inductive Mapping where
  | page (flags : Word) (data : BitVec 10 → Word)
  | supervisor (pte : Word)

/-- The pages that are mapped. -/
abbrev Image := BitVec 20 → Option Mapping

variable {κ : Type} {sym : Symbols} {M M' : Pages} {own own' own'' : Page → Owner κ} {s t u : Kmem}
  {k k' : κ} {r c p q : Page} {i : BitVec 10} {v w : BitVec 20} {e : Word} {I : Image}

/-- What is found in the tables is what the image has. -/
def Shows (M : Pages) (own : Page → Owner κ) (k : κ) (v : BitVec 20) (found : Option Word) :
    Option Mapping → Prop
  | none => found = none
  | some (.page flags data) =>
      ∃ e, found = some e ∧ own (frameOf e) = .frame k v ∧ pteFlags e = flags ∧ M (frameOf e) = data
  | some (.supervisor e) => found = some e ∧ pteU e = false ∧ ∀ q, own q ≠ .frame k v

/-- The tables below `r` show the image. -/
structure Space (M : Pages) (own : Page → Owner κ) (k : κ) (r : Page) (I : Image) : Prop where
  root : own r = .root k
  shows : ∀ v, Shows M own k v (lookup M r v) (I v)

/-- The free list and the tables are in order, and the kernel owns what is not in the pool. -/
structure Inv (sym : Symbols) (s : Kmem) (own : Page → Owner κ) : Prop where
  list : FreeList sym (pages s.mem) s.freelist own
  wf : Wf (pages s.mem) own
  pool : ∀ p, own p ≠ .kernel → InPool sym p

/-- Pages keep their owner and contents, apart from the free ones and `mine`. -/
structure Keeps (mine : Owner κ → Prop) (s t : Kmem) (own own' : Page → Owner κ) : Prop where
  kept : ∀ p, own p ≠ .free → ¬ mine (own p) → pages t.mem p = pages s.mem p ∧ own' p = own p
  given : ∀ p, own' p = own p ∨ own' p = .free ∨ mine (own' p)

/-- The pages of a space. -/
def Owner.In (k : κ) (o : Owner κ) : Prop := o.inSpace = some k

theorem Owner.not_in {o : Owner κ} (hk : k' ≠ k) (ho : o.inSpace = some k') : ¬ o.In k :=
  fun ho' => hk (Option.some.inj (ho.symm.trans ho'))

/-! ## What is kept -/

section Keeps

variable {mine : Owner κ → Prop}

theorem Keeps.refl (mine : Owner κ → Prop) (s : Kmem) (own : Page → Owner κ) :
    Keeps mine s s own own := ⟨fun _ _ _ => ⟨rfl, rfl⟩, fun _ => .inl rfl⟩

theorem Keeps.trans (h : Keeps mine s t own own') (h' : Keeps mine t u own' own'') :
    Keeps mine s u own own'' := by
  refine ⟨fun p hf hm => ?_, fun p => ?_⟩
  · obtain ⟨hM, ho⟩ := h.kept p hf hm
    rw [← ho] at hf hm
    obtain ⟨hM', ho'⟩ := h'.kept p hf hm
    exact ⟨hM'.trans hM, ho'.trans ho⟩
  · rcases h'.given p with heq | hrest
    · rw [heq]
      exact h.given p
    · exact .inr hrest

/-- Nothing else gets or loses a mark that is neither free nor `mine`. -/
theorem Keeps.own_iff (h : Keeps mine s t own own') (o : Owner κ) (hf : o ≠ .free) (hm : ¬ mine o) :
    own' p = o ↔ own p = o := by
  constructor
  · rintro rfl
    rcases h.given p with heq | hfree | hmine
    · exact heq.symm
    · exact absurd hfree hf
    · exact absurd hmine hm
  · rintro rfl
    exact (h.kept p hf hm).2

theorem Keeps.mono {mine' : Owner κ → Prop} (h : Keeps mine s t own own')
    (hm : ∀ o, mine o → mine' o) : Keeps mine' s t own own' :=
  ⟨fun p hf hno => h.kept p hf fun hmine => hno (hm _ hmine),
    fun p => (h.given p).imp_right fun h' => h'.imp_right (hm _)⟩

/-- The pages of the kernel stay where they are. -/
theorem Keeps.kernel (h : Keeps (Owner.In k) s t own own') : own' p = .kernel ↔ own p = .kernel :=
  h.own_iff .kernel nofun nofun

end Keeps

/-- The same tables show the same image. -/
theorem Space.congr (h : Space M own k r I) (hroot : own' r = .root k)
    (hlookup : ∀ v, lookup M' r v = lookup M r v)
    (hown : ∀ q v, own' q = .frame k v ↔ own q = .frame k v)
    (hpages : ∀ q v, own q = .frame k v → M' q = M q) : Space M' own' k r I := by
  refine ⟨hroot, fun v => ?_⟩
  have hv := h.shows v
  rw [hlookup]
  cases hI : I v with
  | none =>
    rw [hI] at hv
    exact hv
  | some m =>
    rw [hI] at hv
    cases m with
    | page flags data =>
      obtain ⟨e, he, ho, hfl, hd⟩ := hv
      exact ⟨e, he, (hown _ v).2 ho, hfl, by rw [hpages _ v ho]; exact hd⟩
    | supervisor e =>
      obtain ⟨he, hu, hno⟩ := hv
      exact ⟨he, hu, fun q hq => hno q ((hown q v).1 hq)⟩

/-- Other spaces show what they have shown. -/
theorem Space.kept {mine : Owner κ → Prop} (h : Space (pages s.mem) own k' r I)
    (hkeep : Keeps mine s t own own') (hwf : Wf (pages s.mem) own) (hwf' : Wf (pages t.mem) own')
    (hother : ∀ {o : Owner κ}, o.inSpace = some k' → ¬ mine o) :
    Space (pages t.mem) own' k' r I := by
  have hroot : own' r = .root k' := (hkeep.own_iff (.root k') nofun (hother rfl)).2 h.root
  refine h.congr hroot (fun v => ?_) (fun q v => hkeep.own_iff (.frame k' v) nofun (hother rfl)) fun q v hq => ?_
  · by_cases hno : ∀ c, own c ≠ .table k' (hi v)
    · rw [hwf.lookup_none h.root hno, hwf'.lookup_none hroot fun c hc =>
        hno c ((hkeep.own_iff (.table k' (hi v)) nofun (hother rfl)).1 hc)]
    · obtain ⟨c, hc⟩ := not_forall_not.1 hno
      have hc' : own' c = .table k' (hi v) := (hkeep.own_iff (.table k' (hi v)) nofun (hother rfl)).2 hc
      have hpage : pages t.mem c = pages s.mem c :=
        (hkeep.kept c (by rw [hc]; nofun) (by rw [hc]; exact hother rfl)).1
      rw [hwf.lookup_table h.root hc, hwf'.lookup_table hroot hc', hpage]
  · exact (hkeep.kept q (by rw [hq]; nofun) (by rw [hq]; exact hother rfl)).1

/-- A page of the image is one of the space. -/
theorem Space.frame (h : Space M own k r I) {flags : Word} {data : BitVec 10 → Word}
    (hI : I v = some (.page flags data)) :
    ∃ e, lookup M r v = some e ∧ own (frameOf e) = .frame k v ∧ pteFlags e = flags ∧
      M (frameOf e) = data := by
  have hv := h.shows v
  rw [hI] at hv
  exact hv

theorem Space.lookup_eq_none (h : Space M own k r I) : lookup M r v = none ↔ I v = none := by
  have hv := h.shows v
  cases hI : I v with
  | none =>
    rw [hI] at hv
    exact iff_of_true hv rfl
  | some m =>
    rw [hI] at hv
    refine iff_of_false (fun hno => ?_) nofun
    cases m with
    | page flags data =>
      obtain ⟨e, he, -⟩ := hv
      rw [hno] at he
      exact absurd he nofun
    | supervisor e =>
      rw [hno] at hv
      exact absurd hv.1 nofun

/-- An entry is replaced: the image changes at its page. -/
theorem Space.set (h : Space M own k r I) (hwf : Wf M own) (hc : own c = .table k (hi v))
    {m : Option Mapping} (hroot : own' r = .root k) (hMr : M' r = M r)
    (hMc : M' c = Function.update (M c) (lo v) e)
    (hMd : ∀ d i, own d = .table k i → d ≠ c → M' d = M d)
    (hown : ∀ q w, w ≠ v → (own' q = .frame k w ↔ own q = .frame k w))
    (hpages : ∀ q w, own q = .frame k w → w ≠ v → M' q = M q)
    (hm : Shows M' own' k v (if pteV e then some e else none) m) :
    Space M' own' k r (Function.update I v m) := by
  have hdir := hwf.dir_eq h.root hc
  refine ⟨hroot, fun w => ?_⟩
  by_cases hwv : w = v
  · subst hwv
    rw [Function.update_self, lookup, hMr, hdir, if_pos pteV_pointerTo, frameOf_pointerTo, hMc,
      Function.update_self]
    exact hm
  · rw [Function.update_of_ne hwv]
    have hlookup : lookup M' r w = lookup M r w := by
      rw [lookup, lookup, hMr]
      by_cases hhi : hi w = hi v
      · have hlo : lo w ≠ lo v := fun hlo => hwv (vpn_ext hhi hlo)
        rw [hhi, hdir, frameOf_pointerTo, hMc, Function.update_of_ne hlo]
      · rcases hwf.dir r k h.root (hi w) with ⟨hinv, -⟩ | ⟨d, hd, hsole⟩
        · rw [hinv]
          rfl
        · have hdw := (hsole d).2 rfl
          have hdc : d ≠ c := by
            rintro rfl
            rw [hc] at hdw
            exact hhi (Owner.table.inj hdw).2.symm
          rw [hd, frameOf_pointerTo, hMd d _ hdw hdc]
    have hw := h.shows w
    rw [hlookup]
    cases hI : I w with
    | none =>
      rw [hI] at hw
      exact hw
    | some m' =>
      rw [hI] at hw
      cases m' with
      | page flags data =>
        obtain ⟨e', he, ho, hfl, hd⟩ := hw
        exact ⟨e', he, (hown _ w hwv).2 ho, hfl, by rw [hpages _ w ho hwv]; exact hd⟩
      | supervisor e' =>
        obtain ⟨he, hu, hno⟩ := hw
        exact ⟨he, hu, fun q hq => hno q ((hown q w hwv).1 hq)⟩

end Xv6Mem

end KianRiscV
