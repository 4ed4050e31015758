/-
# Page tables in the kernel's memory

An address space is a root table with a table for each of its entries that points to one.  `Wf`
says that the tables are made of the pages marked as theirs: an entry of a root is invalid or
points to the table that belongs there, and an entry of a table is invalid, or is a leaf for the
page that belongs to the space at this place, or is a leaf for the supervisor only.  A page has one
owner, so that no page is shared.

An entry is changed together with the owner of the page it points to; there is one lemma for an
entry of a table, one for an entry of a root and one for a root.
-/
import KianRiscV.Xv6FreeList

namespace KianRiscV

namespace Xv6Mem

/-- The indices of the two levels in a virtual page number. -/
def hi (v : BitVec 20) : BitVec 10 := v.extractLsb' 10 10

def lo (v : BitVec 20) : BitVec 10 := v.extractLsb' 0 10

/-- The entry of the leaf for the page `v`, if both levels are valid. -/
def lookup (M : Pages) (r : Page) (v : BitVec 20) : Option Word :=
  if pteV (M r (hi v)) then
    if pteV (M (frameOf (M r (hi v))) (lo v)) then some (M (frameOf (M r (hi v))) (lo v)) else none
  else none

theorem hi_append (i j : BitVec 10) : hi (i ++ j) = i := by
  apply BitVec.eq_of_getLsbD_eq
  intro k hk
  rw [hi, BitVec.getLsbD_extractLsb', decide_eq_true hk, Bool.true_and, BitVec.getLsbD_append]
  simp

theorem lo_append (i j : BitVec 10) : lo (i ++ j) = j := by
  apply BitVec.eq_of_getLsbD_eq
  intro k hk
  rw [lo, BitVec.getLsbD_extractLsb', decide_eq_true hk, Bool.true_and, BitVec.getLsbD_append]
  simp [hk]

theorem append_hi_lo (v : BitVec 20) : hi v ++ lo v = v := by
  apply BitVec.eq_of_getLsbD_eq
  intro k hk
  rw [BitVec.getLsbD_append, hi, lo]
  by_cases hk10 : k < 10
  · simp [hk10]
  · simp [hk10, show 10 + (k - 10) = k by omega, show k - 10 < 10 by omega]

theorem vpn_ext {v w : BitVec 20} (hhi : hi v = hi w) (hlo : lo v = lo w) : v = w := by
  rw [← append_hi_lo v, hhi, hlo, append_hi_lo]

theorem vpn1Of_eq (va : Word) : vpn1Of va = hi (vpnOf va) := by
  apply BitVec.eq_of_getLsbD_eq
  intro k hk
  simp [vpn1Of, hi, vpnOf, hk, show 10 + k < 20 by omega, show 12 + (10 + k) = 22 + k by omega]

theorem vpn0Of_eq (va : Word) : vpn0Of va = lo (vpnOf va) := by
  apply BitVec.eq_of_getLsbD_eq
  intro k hk
  simp [vpn0Of, lo, vpnOf, hk, show k < 20 by omega]

/-! ## Well-formed tables -/

variable {κ : Type}

/-- A leaf of the kernel's tables: valid and readable, for a page below `2^20`. -/
structure IsLeaf (e : Word) : Prop where
  valid : pteV e = true
  readable : pteR e = true
  small : (ppnOf e).toNat < 2 ^ 20

/-- The page owned as `o` is `c` and no other. -/
def Sole (own : Page → Owner κ) (o : Owner κ) (c : Page) : Prop := ∀ q, own q = o ↔ q = c

/-- An entry of the root of `k`. -/
def DirEntry (own : Page → Owner κ) (k : κ) (i : BitVec 10) (e : Word) : Prop :=
  (pteV e = false ∧ ∀ q, own q ≠ .table k i) ∨ ∃ c, e = pointerTo c ∧ Sole own (.table k i) c

/-- An entry of a table of `k`, for the page `v`. -/
def LeafEntry (own : Page → Owner κ) (k : κ) (v : BitVec 20) (e : Word) : Prop :=
  (pteV e = false ∧ ∀ q, own q ≠ .frame k v) ∨
    (IsLeaf e ∧ (Sole own (.frame k v) (frameOf e) ∨ ((∀ q, own q ≠ .frame k v) ∧ pteU e = false)))

/-- The page is part of an address space. -/
def Owner.inSpace : Owner κ → Option κ
  | .root k => some k
  | .table k _ => some k
  | .frame k _ => some k
  | _ => none

/-- The tables are made of the pages marked as theirs. -/
structure Wf (M : Pages) (own : Page → Owner κ) : Prop where
  root : ∀ p q k, own p = .root k → own q = .root k → p = q
  dir : ∀ r k, own r = .root k → ∀ i, DirEntry own k i (M r i)
  leaf : ∀ c k i, own c = .table k i → ∀ j, LeafEntry own k (i ++ j) (M c j)
  table : ∀ c k i, own c = .table k i → ∃ r, own r = .root k
  frame : ∀ q k v, own q = .frame k v → ∃ c, own c = .table k (hi v)

variable {M M' : Pages} {own own' : Page → Owner κ} {k k' : κ} {r c p q : Page} {i j : BitVec 10}
  {v w : BitVec 20} {e : Word}

/-- Only the marks of the space count. -/
theorem DirEntry.congr (h : DirEntry own k i e)
    (hown : ∀ q, own' q = .table k i ↔ own q = .table k i) : DirEntry own' k i e := by
  rcases h with ⟨he, hno⟩ | ⟨c, he, hc⟩
  · exact .inl ⟨he, fun q hq => hno q ((hown q).1 hq)⟩
  · exact .inr ⟨c, he, fun q => (hown q).trans (hc q)⟩

theorem LeafEntry.congr (h : LeafEntry own k v e)
    (hown : ∀ q, own' q = .frame k v ↔ own q = .frame k v) : LeafEntry own' k v e := by
  rcases h with ⟨he, hno⟩ | ⟨he, hc | ⟨hno, hu⟩⟩
  · exact .inl ⟨he, fun q hq => hno q ((hown q).1 hq)⟩
  · exact .inr ⟨he, .inl fun q => (hown q).trans (hc q)⟩
  · exact .inr ⟨he, .inr ⟨fun q hq => hno q ((hown q).1 hq), hu⟩⟩

/-- Only the tables, and the pages that are part of a space, matter. -/
theorem Wf.congr (h : Wf M own) (hroot : ∀ p k, own p = .root k → M' p = M p)
    (htable : ∀ p k i, own p = .table k i → M' p = M p)
    (hown : ∀ p o k, o.inSpace = some k → (own' p = o ↔ own p = o)) : Wf M' own' where
  root p q k hp hq := h.root p q k ((hown p _ k rfl).1 hp) ((hown q _ k rfl).1 hq)
  dir r k hr i := by
    have hr' := (hown r _ k rfl).1 hr
    rw [hroot r k hr']
    exact (h.dir r k hr' i).congr fun q => hown q _ k rfl
  leaf c k i hc j := by
    have hc' := (hown c _ k rfl).1 hc
    rw [htable c k i hc']
    exact (h.leaf c k i hc' j).congr fun q => hown q _ k rfl
  table c k i hc := by
    obtain ⟨r, hr⟩ := h.table c k i ((hown c _ k rfl).1 hc)
    exact ⟨r, (hown r _ k rfl).2 hr⟩
  frame q k v hq := by
    obtain ⟨c, hc⟩ := h.frame q k v ((hown q _ k rfl).1 hq)
    exact ⟨c, (hown c _ k rfl).2 hc⟩

/-- An entry of a table is replaced, and with it the page that belongs there. -/
theorem Wf.set_leaf (h : Wf M own) (hc : own c = .table k i) (he : LeafEntry own' k (i ++ j) e)
    (hM : M' c = Function.update (M c) j e)
    (hroot : ∀ p k, own p = .root k → M' p = M p)
    (htable : ∀ p k' i', own p = .table k' i' → p ≠ c → M' p = M p)
    (hown : ∀ p o k', o.inSpace = some k' → o ≠ .frame k (i ++ j) → (own' p = o ↔ own p = o)) :
    Wf M' own' where
  root p q k' hp hq :=
    h.root p q k' ((hown p (.root k') k' rfl nofun).1 hp) ((hown q (.root k') k' rfl nofun).1 hq)
  dir r k' hr i' := by
    have hr' := (hown r (.root k') k' rfl nofun).1 hr
    rw [hroot r k' hr']
    exact (h.dir r k' hr' i').congr fun q => hown q (.table k' i') k' rfl nofun
  leaf c' k' i' hc' j' := by
    have hc'' := (hown c' (.table k' _) k' rfl nofun).1 hc'
    by_cases hcc : c' = c
    · subst hcc
      obtain ⟨rfl, rfl⟩ : k = k' ∧ i = i' := by
        rw [hc] at hc''
        exact Owner.table.inj hc''
      rw [hM]
      by_cases hjj : j' = j
      · subst hjj
        rw [Function.update_self]
        exact he
      · rw [Function.update_of_ne hjj]
        refine (h.leaf c' k i hc'' j').congr fun q => hown q (.frame k _) k rfl fun heq => hjj ?_
        have hv := (Owner.frame.inj heq).2
        rw [← lo_append i j', hv, lo_append]
    · rw [htable c' k' i' hc'' hcc]
      refine (h.leaf c' k' i' hc'' j').congr fun q => hown q (.frame k' _) k' rfl fun heq => hcc ?_
      obtain ⟨rfl, hv⟩ := Owner.frame.inj heq
      have hii : i' = i := by rw [← hi_append i' j', hv, hi_append]
      subst hii
      obtain ⟨r, hr⟩ := h.table c k' i' hc
      rcases h.dir r k' hr i' with ⟨-, hno⟩ | ⟨d, -, hd⟩
      · exact absurd hc (hno c)
      · exact ((hd c').1 hc'').trans ((hd c).1 hc).symm
  table c' k' i' hc' := by
    obtain ⟨r, hr⟩ := h.table c' k' i' ((hown c' (.table k' _) k' rfl nofun).1 hc')
    exact ⟨r, (hown r (.root k') k' rfl nofun).2 hr⟩
  frame q k' v hq := by
    by_cases hv : Owner.frame k' v = Owner.frame k (i ++ j)
    · obtain ⟨rfl, rfl⟩ := Owner.frame.inj hv
      rw [hi_append]
      exact ⟨c, (hown c (.table k' _) k' rfl nofun).2 hc⟩
    · obtain ⟨c', hc'⟩ := h.frame q k' v ((hown q (.frame k' v) k' rfl hv).1 hq)
      exact ⟨c', (hown c' (.table k' _) k' rfl nofun).2 hc'⟩

/-- An entry of a root is replaced, and with it the table that belongs there, which has no valid
entries. -/
theorem Wf.set_dir (h : Wf M own) (hr : own r = .root k) (he : DirEntry own' k i e)
    (hM : M' r = Function.update (M r) i e)
    (hroot : ∀ p k', own p = .root k' → p ≠ r → M' p = M p)
    (htable : ∀ p k' i', own p = .table k' i' → Owner.table k' i' ≠ .table k i → M' p = M p)
    (hown : ∀ p o k', o.inSpace = some k' → o ≠ .table k i → (own' p = o ↔ own p = o))
    (hempty : ∀ c, own' c = .table k i → ∀ j, pteV (M' c j) = false)
    (hframe : ∀ q v, own q = .frame k v → hi v ≠ i) : Wf M' own' where
  root p q k' hp hq :=
    h.root p q k' ((hown p (.root k') k' rfl nofun).1 hp) ((hown q (.root k') k' rfl nofun).1 hq)
  dir r' k' hr' i' := by
    have hr'' := (hown r' (.root k') k' rfl nofun).1 hr'
    by_cases hrr : r' = r
    · subst hrr
      obtain rfl : k = k' := by
        rw [hr] at hr''
        exact Owner.root.inj hr''
      rw [hM]
      by_cases hii : i' = i
      · subst hii
        rw [Function.update_self]
        exact he
      · rw [Function.update_of_ne hii]
        exact (h.dir r' k hr'' i').congr fun q =>
          hown q (.table k _) k rfl fun heq => hii (Owner.table.inj heq).2
    · rw [hroot r' k' hr'' hrr]
      refine (h.dir r' k' hr'' i').congr fun q => hown q (.table k' _) k' rfl fun heq => hrr ?_
      obtain ⟨rfl, -⟩ := Owner.table.inj heq
      exact h.root r' r k' hr'' hr
  leaf c k' i' hc j := by
    by_cases hci : Owner.table k' i' = Owner.table k i
    · obtain ⟨rfl, rfl⟩ := Owner.table.inj hci
      refine .inl ⟨hempty c hc j, fun q hq => ?_⟩
      exact hframe q _ ((hown q (.frame k' _) k' rfl nofun).1 hq) (hi_append i' j)
    · have hc' := (hown c (.table k' i') k' rfl hci).1 hc
      rw [htable c k' i' hc' hci]
      exact (h.leaf c k' i' hc' j).congr fun q => hown q (.frame k' _) k' rfl nofun
  table c k' i' hc := by
    by_cases hci : Owner.table k' i' = Owner.table k i
    · obtain ⟨rfl, rfl⟩ := Owner.table.inj hci
      exact ⟨r, (hown r (.root k') k' rfl nofun).2 hr⟩
    · obtain ⟨r', hr'⟩ := h.table c k' i' ((hown c (.table k' i') k' rfl hci).1 hc)
      exact ⟨r', (hown r' (.root k') k' rfl nofun).2 hr'⟩
  frame q k' v hq := by
    have hq' := (hown q (.frame k' v) k' rfl nofun).1 hq
    obtain ⟨c, hc⟩ := h.frame q k' v hq'
    refine ⟨c, (hown c (.table k' _) k' rfl fun heq => ?_).2 hc⟩
    obtain ⟨rfl, hv⟩ := Owner.table.inj heq
    exact hframe q v hq' hv

/-- A root comes or goes, when the space has no tables. -/
theorem Wf.set_root (h : Wf M own) (hroot : ∀ p k', own p = .root k' → k' ≠ k → M' p = M p)
    (htable : ∀ p k' i, own p = .table k' i → M' p = M p)
    (hown : ∀ p o k', o.inSpace = some k' → o ≠ .root k → (own' p = o ↔ own p = o))
    (hnone : ∀ c i, own c ≠ .table k i) (hone : ∀ p q, own' p = .root k → own' q = .root k → p = q)
    (hempty : ∀ p, own' p = .root k → ∀ i, pteV (M' p i) = false) : Wf M' own' where
  root p q k' hp hq := by
    by_cases hk : Owner.root k' = Owner.root k
    · obtain rfl := Owner.root.inj hk
      exact hone p q hp hq
    · exact h.root p q k' ((hown p (.root k') k' rfl hk).1 hp) ((hown q (.root k') k' rfl hk).1 hq)
  dir r k' hr i := by
    by_cases hk : Owner.root k' = Owner.root k
    · obtain rfl := Owner.root.inj hk
      exact .inl ⟨hempty r hr i, fun q hq => hnone q i ((hown q (.table k' i) k' rfl nofun).1 hq)⟩
    · have hr' := (hown r (.root k') k' rfl hk).1 hr
      rw [hroot r k' hr' fun heq => hk (congrArg Owner.root heq)]
      exact (h.dir r k' hr' i).congr fun q => hown q (.table k' i) k' rfl nofun
  leaf c k' i hc j := by
    have hc' := (hown c (.table k' _) k' rfl nofun).1 hc
    rw [htable c k' i hc']
    exact (h.leaf c k' i hc' j).congr fun q => hown q (.frame k' _) k' rfl nofun
  table c k' i hc := by
    have hc' := (hown c (.table k' _) k' rfl nofun).1 hc
    obtain ⟨r, hr⟩ := h.table c k' i hc'
    refine ⟨r, (hown r (.root k') k' rfl fun heq => ?_).2 hr⟩
    obtain rfl := Owner.root.inj heq
    exact hnone c i hc'
  frame q k' v hq := by
    obtain ⟨c, hc⟩ := h.frame q k' v ((hown q (.frame k' v) k' rfl nofun).1 hq)
    exact ⟨c, (hown c (.table k' _) k' rfl nofun).2 hc⟩

/-! ## What a space maps -/

theorem Wf.table_unique (h : Wf M own) (hc : own c = .table k i) (hq : own q = .table k i) :
    c = q := by
  obtain ⟨r, hr⟩ := h.table c k i hc
  rcases h.dir r k hr i with ⟨-, hno⟩ | ⟨d, -, hd⟩
  · exact absurd hc (hno c)
  · exact ((hd c).1 hc).trans ((hd q).1 hq).symm

theorem Wf.dir_eq (h : Wf M own) (hr : own r = .root k) (hc : own c = .table k i) :
    M r i = pointerTo c := by
  rcases h.dir r k hr i with ⟨-, hno⟩ | ⟨d, he, hd⟩
  · exact absurd hc (hno c)
  · rw [he, (hd c).1 hc]

/-- With a table the entry there decides. -/
theorem Wf.lookup_table (h : Wf M own) (hr : own r = .root k) (hc : own c = .table k (hi v)) :
    lookup M r v = if pteV (M c (lo v)) then some (M c (lo v)) else none := by
  rw [lookup, h.dir_eq hr hc, frameOf_pointerTo, if_pos pteV_pointerTo]

theorem Wf.dir_invalid (h : Wf M own) (hr : own r = .root k) (hno : ∀ q, own q ≠ .table k i) :
    pteV (M r i) = false := by
  rcases h.dir r k hr i with ⟨he, -⟩ | ⟨d, -, hd⟩
  · exact he
  · exact absurd ((hd d).2 rfl) (hno d)

theorem Wf.lookup_none (h : Wf M own) (hr : own r = .root k) (hno : ∀ q, own q ≠ .table k (hi v)) :
    lookup M r v = none := by
  rw [lookup, h.dir_invalid hr hno]
  rfl

/-- A leaf that is found is the one of the page that belongs there, or for the supervisor. -/
theorem Wf.lookup_some (h : Wf M own) (hr : own r = .root k) (he : lookup M r v = some e) :
    IsLeaf e ∧ (Sole own (.frame k v) (frameOf e) ∨ ((∀ q, own q ≠ .frame k v) ∧ pteU e = false)) := by
  by_cases hno : ∀ q, own q ≠ .table k (hi v)
  · rw [h.lookup_none hr hno] at he
    exact absurd he nofun
  · obtain ⟨c, hc⟩ := not_forall_not.1 hno
    rw [h.lookup_table hr hc] at he
    split_ifs at he with hv
    obtain rfl := Option.some.inj he
    have hl := h.leaf c k (hi v) hc (lo v)
    rw [append_hi_lo] at hl
    rcases hl with ⟨hinv, -⟩ | hl
    · rw [hv] at hinv
      exact absurd hinv nofun
    · exact hl

end Xv6Mem

end KianRiscV
