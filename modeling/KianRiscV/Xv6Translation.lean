/-
# Address spaces and the walker of the hardware

The hardware walks the tables of a space as `lookup` does: an access is translated by the entry of
its page, if the flags permit it.  A store through the tables changes a word of one page of the
space.
-/
import KianRiscV.Xv6Spaces
import KianRiscV.Sv32Spec

namespace KianRiscV

namespace Xv6Mem

variable {κ : Type} {M : Pages} {own : Page → Owner κ} {s : Kmem} {k : κ} {r p q : Page}
  {v w : BitVec 20} {I : Image} {x e : Word} {i : BitVec 10}

/-! ## Addresses -/

theorem wordAddr_append (ppn : BitVec 22) (offset : BitVec 12) :
    (wordAddr (ppn ++ offset)).toNat = ppn.toNat * 1024 + offset.toNat / 4 := by
  have hp := ppn.isLt
  have ho := offset.isLt
  simp only [wordAddr, BitVec.extractLsb'_toNat, BitVec.toNat_append]
  rw [← Nat.shiftLeft_add_eq_or_of_lt ho]
  simp only [Nat.shiftLeft_eq, Nat.shiftRight_eq_div_pow]
  omega

/-- A table is read where the walker of the hardware reads it. -/
theorem wordAddr_entryAddr {ppn : BitVec 22} (hp : ppn.toNat = p.toNat) :
    wordAddr (entryAddr ppn i) = cell p i := by
  have hi := i.isLt
  have hp' := p.isLt
  apply BitVec.eq_of_toNat_eq
  rw [cell_toNat]
  simp only [wordAddr, BitVec.extractLsb'_toNat, entryAddr_toNat, Nat.shiftRight_eq_div_pow]
  omega

theorem satpPpnOf_makeSatp (p : Page) : (satpPpnOf (makeSatp (addr p))).toNat = p.toNat := by
  have h : satpPpnOf (makeSatp (addr p)) = p.setWidth 22 := by
    apply BitVec.eq_of_getLsbD_eq
    intro n hn
    simp only [satpPpnOf, makeSatp, addr, BitVec.getLsbD_extractLsb', BitVec.getLsbD_or,
      BitVec.getLsbD_ushiftRight, BitVec.getLsbD_append, BitVec.getLsbD_setWidth, hn,
      decide_true, Bool.true_and, Nat.zero_add, show ¬ 12 + n < 12 by omega,
      if_false, show 12 + n - 12 = n by omega]
    have hhigh : (0x80000000#32).getLsbD n = false := by
      have h : ∀ n : Fin 22, (0x80000000#32).getLsbD n = false := by decide
      exact h ⟨n, hn⟩
    rw [hhigh, Bool.false_or]
  rw [h, BitVec.toNat_setWidth]
  have := p.isLt
  omega

theorem satpModeOf_makeSatp (p : Page) : satpModeOf (makeSatp (addr p)) = true := by
  rw [satpModeOf, makeSatp, BitVec.getLsbD_or]
  rfl

theorem ppnOf_toNat {e : Word} (h : (ppnOf e).toNat < 2 ^ 20) : (ppnOf e).toNat = (frameOf e).toNat := by
  simp only [ppnOf, frameOf, BitVec.extractLsb'_toNat] at h ⊢
  omega

theorem isLeaf_pointerTo (c : Page) : (ppnOf (pointerTo c)).toNat = c.toNat ∧
    pteIsPointer (pointerTo c) = true := by
  constructor
  · have hc : ppnOf (pointerTo c) = c.setWidth 22 := by
      apply BitVec.eq_of_getLsbD_eq
      intro n hn
      rw [ppnOf, BitVec.getLsbD_extractLsb', pointerTo_eq, leafTo_getLsbD c (by decide) (by omega),
        if_neg (by omega), BitVec.getLsbD_setWidth, show 10 + n - 10 = n by omega]
    rw [hc, BitVec.toNat_setWidth]
    have := c.isLt
    omega
  · rw [pteIsPointer, pteR, pteW, pteX, pointerTo_eq]
    rw [flag_leafTo (by decide) (by decide) (by decide), flag_leafTo (by decide) (by decide)
      (by decide), flag_leafTo (by decide) (by decide) (by decide)]
    rfl

/-! ## The walk -/

theorem specPte1_eq {m : BitVec 32 → Word} (r : Page) (va : Word) :
    specPte1 m (makeSatp (addr r)) va = pages m r (hi (vpnOf va)) := by
  rw [specPte1, wordAddr_entryAddr (satpPpnOf_makeSatp r), vpn1Of_eq]
  rfl

theorem specPte0_eq {m : BitVec 32 → Word} {satp : Word} (c : Page) (va : Word)
    (h : specPte1 m satp va = pointerTo c) : specPte0 m satp va = pages m c (lo (vpnOf va)) := by
  rw [specPte0, h, wordAddr_entryAddr (isLeaf_pointerTo c).1, vpn0Of_eq]
  rfl

/-- The hardware walks the tables of a space as `lookup` does. -/
theorem specOutcome_eq (hS : Space (pages s.mem) own k r I) (hwf : Wf (pages s.mem) own)
    {req : CpuReq} (hsatp : req.satp = makeSatp (addr r)) :
    specOutcome s.mem req = match lookup (pages s.mem) r (vpnOf req.addr) with
      | none => .pageFault
      | some e => if permits req e then .physical (ppnOf e ++ offsetOf req.addr) else .pageFault := by
  have h1 := specPte1_eq (m := s.mem) r req.addr
  rw [specOutcome, hsatp, h1, lookup]
  rcases hwf.dir r k hS.root (hi (vpnOf req.addr)) with ⟨hinv, -⟩ | ⟨c, he, -⟩
  · rw [hinv]
    rfl
  · rw [specPte0_eq c req.addr (h1.trans he), he, pteV_pointerTo, (isLeaf_pointerTo c).2,
      frameOf_pointerTo]
    cases pteV (pages s.mem c (lo (vpnOf req.addr))) <;> rfl

/-- The tables are such that the walker of the hardware does what the architecture says. -/
theorem Space.wellFormedPath {m : BitVec 32 → Word} (hS : Space (pages m) own k r I)
    (hwf : Wf (pages m) own) (va : Word) : WellFormedPath m (makeSatp (addr r)) va := by
  have hroot : (satpPpnOf (makeSatp (addr r))).toNat < 2 ^ 20 := by
    rw [satpPpnOf_makeSatp]
    exact r.isLt
  have h1 := specPte1_eq (m := m) r va
  rcases hwf.dir r k hS.root (hi (vpnOf va)) with ⟨hinv, -⟩ | ⟨c, he, hc⟩
  · -- the walk ends at the root
    rw [← h1] at hinv
    refine ⟨hroot, fun hv => ?_, fun hv => ?_, fun hv => ?_⟩ <;>
    · rw [hinv] at hv
      exact absurd hv Bool.false_ne_true
  · have hptr := h1.trans he
    obtain ⟨hppn, hpointer⟩ := isLeaf_pointerTo c
    refine ⟨hroot, fun _ => ?_, fun _ hleaf => ?_, fun _ _ hv => ?_⟩
    · rw [hptr, hppn]
      exact c.isLt
    · rw [hptr, hpointer] at hleaf
      exact absurd hleaf Bool.true_eq_false.mp
    · rw [specPte0_eq c va hptr] at hv ⊢
      rcases hwf.leaf c k _ ((hc c).2 rfl) (lo (vpnOf va)) with ⟨hinv, -⟩ | ⟨hleaf, -⟩
      · rw [hinv] at hv
        exact absurd hv Bool.false_ne_true
      · refine ⟨hleaf.small, ?_, .inl hleaf.readable⟩
        rw [pteIsPointer, hleaf.readable]
        rfl

/-! ## Permissions -/

/-- The permissions are those of the flags. -/
theorem permits_flags (req : CpuReq) (e : Word) : permits req (pteFlags e) = permits req e := by
  have hbit : ∀ n < 10, (pteFlags e).getLsbD n = e.getLsbD n := fun n hn => pteFlags_getLsbD e hn
  simp only [permits, pteX, pteW, pteR, pteU, hbit 1 (by decide), hbit 2 (by decide),
    hbit 3 (by decide), hbit 4 (by decide)]

/-- The supervisor's pages are not for the user. -/
theorem permits_user {req : CpuReq} {e : Word} (hmode : req.privilegeMode = 0#2)
    (hu : pteU e = false) : permits req e = false := by
  have hs : isSupervisor req.privilegeMode = false := by
    rw [hmode]
    rfl
  rw [permits, hs, hu]
  exact Bool.and_false _

/-! ## Stores -/

theorem Space.frame_unique (hS : Space M own k r I) (hwf : Wf M own)
    (he : lookup M r v = some e) (hown : own (frameOf e) = .frame k v) (hq : own q = .frame k v) :
    q = frameOf e := by
  rcases (hwf.lookup_some hS.root he).2 with hsole | ⟨hno, -⟩
  · exact (hsole q).1 hq
  · exact absurd hown (hno _)

/-- A word of a page of the space is written. -/
theorem Space.write (hS : Space M own k r I) (hwf : Wf M own) (hq : own q = .frame k v)
    {flags : Word} {data : BitVec 10 → Word} (hI : I v = some (.page flags data)) :
    Space (setEntry M q i x) own k r
      (Function.update I v (some (.page flags (Function.update data i x)))) := by
  have hM : ∀ p, p ≠ q → setEntry M q i x p = M p := fun p hp => setEntry_of_ne M i x hp
  have hne : ∀ p, own p ≠ .frame k v → p ≠ q := by
    rintro p hp rfl
    exact hp hq
  have hlookup : ∀ w, lookup (setEntry M q i x) r w = lookup M r w := by
    intro w
    rw [lookup, lookup, hM r (hne r (by rw [hS.root]; simp))]
    rcases hwf.dir r k hS.root (hi w) with ⟨hinv, -⟩ | ⟨c, he, hsole⟩
    · rw [hinv]
      rfl
    · rw [he, frameOf_pointerTo, hM c (hne c (by rw [(hsole c).2 rfl]; simp))]
  refine ⟨hS.root, fun w => ?_⟩
  rw [hlookup]
  by_cases hwv : w = v
  · subst hwv
    obtain ⟨e, he, hown, hflags, hdata⟩ := hS.frame hI
    rw [Function.update_self]
    refine ⟨e, he, hown, hflags, ?_⟩
    rw [← hS.frame_unique hwf he hown hq, setEntry_self, hS.frame_unique hwf he hown hq, hdata]
  · rw [Function.update_of_ne hwv]
    have hw := hS.shows w
    cases hIw : I w with
    | none =>
      rw [hIw] at hw
      exact hw
    | some m =>
      rw [hIw] at hw
      cases m with
      | page flags' data' =>
        obtain ⟨e, he, hown, hflags, hdata⟩ := hw
        refine ⟨e, he, hown, hflags, ?_⟩
        rw [hM _ (hne _ (by rw [hown]; exact fun heq => hwv (Owner.frame.inj heq).2)), hdata]
      | supervisor e => exact hw

end Xv6Mem

end KianRiscV
