/-
# The system calls for memory

`kfork`, `sys_sbrk` and the page fault of memory that is allocated lazily, for a process whose size
stays below the trapframe.
-/
import KianRiscV.Xv6Processes

namespace KianRiscV

namespace Xv6Mem

open StateProgram

variable {κ : Type} {sym : Symbols} {M : Pages} {own own' : Page → Owner κ} {s t u : Kmem}
  {k k' : κ} {r tf c p q : Page} {v w : BitVec 20} {I J : Image} {n : ℕ} {pr np : Proc}
  {sz va x e : Word} {i : BitVec 10}

/-- The contents of a trapframe do not matter. -/
theorem Inv.write_trapframe (h : Inv sym s own) (htf : own tf = .trapframe k)
    (hpages : ∀ q, q ≠ tf → pages t.mem q = pages s.mem q) (hlist : t.freelist = s.freelist) :
    Inv sym t own ∧ Keeps (Owner.Mine k) s t own own ∧
      ∀ {k' r' I}, Space (pages s.mem) own k' r' I → Space (pages t.mem) own k' r' I := by
  have hne : ∀ q, own q ≠ .trapframe k → q ≠ tf := by
    rintro q hq rfl
    exact hq htf
  refine ⟨h.congr hlist fun q hq => hpages q (hne q fun heq => ?_),
    ⟨fun q _ hk => ⟨hpages q (hne q fun heq => hk (.inr heq)), rfl⟩, fun q => .inl rfl⟩,
    fun {k' r' I} hS => ?_⟩
  · rw [heq] at hq
    exact hq
  · have hS' := hS.relabel (o := .trapframe k) h.wf (by rw [htf]; rfl) rfl hpages
    rw [← htf, Function.update_eq_self] at hS'
    exact hS'

theorem copied_self (h : Below I n) : copied I noImage n = I := by
  funext w
  rw [copied]
  split_ifs with hw
  · rfl
  · exact (h.none (Nat.not_lt.1 hw)).symm

/-- `kfork` copies the memory of the process, or nothing of the child is left. -/
theorem Inv.kfork (h : Inv sym s own) (hl : Live sym s own k pr r tf I) (hno : Gone own k')
    (hk : k ≠ k') : Gives (Xv6Mem.kfork sym pr) s fun x t =>
      (x = none ∧ ∃ own', Inv sym t own' ∧ Keeps (Owner.Mine k') s t own own' ∧ Gone own' k') ∨
      ∃ np r' tf' own', x = some np ∧ np.sz = pr.sz ∧ Inv sym t own' ∧
        Keeps (Owner.Mine k') s t own own' ∧ Live sym t own' k' np r' tf' I := by
  have hlt := pagesOf_lt hl.size
  unfold Xv6Mem.kfork
  refine (h.allocproc hno).bind fun x y hy => ?_
  rcases hy with ⟨rfl, hgone⟩ | ⟨np, r', tf', own₁, rfl, hsz0, hinv₁, hkeep₁, hl'⟩
  · exact gives_pure (.inl ⟨rfl, hgone⟩)
  · have hold := hl.kept hkeep₁ h hinv₁ fun ho => ho.not hk
    have hbelow : ∀ w m, w.toNat < pagesOf pr.sz → procImage sym tf I w = some m →
        m.isPage = true := fun w m hw hm => by
      rw [procImage_of_lt (by omega)] at hm
      exact (hl.below w m hm).2
    have hempty : ∀ w : BitVec 20, w.toNat < pagesOf pr.sz → procImage sym tf' noImage w = none :=
      fun w hw => by rw [procImage_of_lt (by omega)]; rfl
    show Gives (Xv6Mem.uvmcopy sym pr.pagetable np.pagetable pr.sz >>= _) y _
    rw [hl.pagetable, hl'.pagetable]
    refine (hinv₁.uvmcopy hold.space hl'.space hk hl.size hbelow hempty).bind fun ok z hz => ?_
    rcases hz with ⟨rfl, own₂, hpair⟩ | ⟨rfl, own₂, hpair⟩
    · refine gives_ite (fun _ => ?_) fun hne => absurd rfl hne
      have htf₂ : own₂ tf' = .trapframe k' :=
        (hpair.keeps.own_iff (.trapframe k') nofun nofun).2 ((hl'.tf_sole tf').2 rfl)
      rw [hl'.trapframe]
      refine (gives_memmove_part (by decide)).bind fun _ z₁ ⟨hz₁, hl₁⟩ => ?_
      refine (gives_store_offset (n := 56) (by decide)).bind fun _ z₂ ⟨hz₂, hl₂⟩ => ?_
      obtain ⟨hinv₂, hkeep₂, hspaces⟩ := hpair.inv.write_trapframe htf₂
        (fun q hq => (hz₂ q hq).trans (hz₁ q hq)) (hl₂.trans hl₁)
      have hspace := hspaces hpair.space
      rw [copied_procImage (by omega), copied_self hl.below] at hspace
      refine gives_pure (.inr ⟨_, r', tf', own₂, rfl, rfl, hinv₂,
        (hkeep₁.trans hpair.keeps.to_mine).trans hkeep₂, rfl, rfl, fun q => ?_, hspace, hl.below,
        hl.size⟩)
      exact (hpair.keeps.own_iff (.trapframe k') nofun nofun).trans (hl'.tf_sole q)
    · refine gives_ite (fun hne => absurd hne Bool.false_ne_true) fun _ => ?_
      have hl₂ := hl'.of_shown hpair.toShown hl'.below hl'.size
      refine (hpair.inv.freeproc hl₂).bind fun _ z₁ ⟨_, own₃, hinv₃, hkeep₃, hgone₃⟩ =>
        gives_pure (.inl ⟨rfl, own₃, hinv₃, ?_, hgone₃⟩)
      exact (hkeep₁.trans hpair.keeps.to_mine).trans hkeep₃

/-! ## `sys_sbrk` -/

/-- The size and the pages after `sys_sbrk`, when it does not fail. -/
def sbrkImage (I : Image) (sz n : Word) (eager : Bool) : Word × Image :=
  if BitVec.slt n 0#32 then
    if sz ≤ sz + n then (sz, I) else (sz + n, cut I (pagesOf (sz + n)) (pagesOf sz))
  else if eager && BitVec.slt 0#32 n then
    if sz + n < sz then (sz, I)
    else (sz + n, grown I (pagesOf sz) (pagesOf (sz + n)) (flagR ||| flagU ||| flagW ||| flagV))
  else (sz + n, I)

theorem below_cut {a b : ℕ} (h : Below I b) : Below (cut I a b) a := fun w m hm => by
  rw [cut] at hm
  split_ifs at hm with hw
  obtain ⟨hlt, hpage⟩ := h w m hm
  exact ⟨by omega, hpage⟩

theorem below_grown {a b : ℕ} {flags : Word} (h : Below I a) (hab : a ≤ b) :
    Below (grown I a b flags) b := fun w m hm => by
  rw [grown] at hm
  split_ifs at hm with hw
  · obtain rfl := Option.some.inj hm
    exact ⟨hw.2, rfl⟩
  · obtain ⟨hlt, hpage⟩ := h w m hm
    exact ⟨by omega, hpage⟩

theorem Below.mono {m : ℕ} (h : Below I n) (hnm : n ≤ m) : Below I m := fun w x hx =>
  ⟨(h w x hx).1.trans_le hnm, (h w x hx).2⟩

/-- Growing a process at once. -/
theorem Inv.grow (h : Inv sym s own) (hl : Live sym s own k pr r tf I) {newsz : Word}
    (hle : pr.sz ≤ newsz) (hnew : newsz ≤ trapframeVa) :
    Gives (Xv6Mem.uvmalloc sym (addr r) pr.sz newsz flagW) s fun x t =>
      (x = newsz ∧ ∃ own', Shown sym s t own own' k r (procImage sym tf
        (grown I (pagesOf pr.sz) (pagesOf newsz) (flagR ||| flagU ||| flagW ||| flagV)))) ∨
      (x = 0#32 ∧ ∃ own', Shown sym s t own own' k r (procImage sym tf I)) := by
  have hlt := pagesOf_lt hnew
  have hperm : GoodPerm (flagR ||| flagU ||| flagW) := ⟨by decide, by decide⟩
  have hrun := h.uvmalloc hl.space hnew hle (fun w h1 h2 => by
      rw [procImage_of_lt (by omega)]
      exact hl.below.none h1)
    (fun w m hw hm => by
      rw [procImage_of_lt (by omega)] at hm
      exact (hl.below w m hm).2) hperm
  rw [grown_procImage _ (by omega)] at hrun
  exact hrun

/-- `sys_sbrk` resizes the process, or it changes nothing. -/
theorem Inv.sysSbrk (h : Inv sym s own) (hl : Live sym s own k pr r tf I) (n : Word) (eager : Bool)
    (hfits : ¬ BitVec.slt n 0#32 → pr.sz + n ≤ trapframeVa) :
    Gives (Xv6Mem.sysSbrk sym pr n eager) s fun x t =>
      (x = none ∧ ∃ own', Shown sym s t own own' k r (procImage sym tf I)) ∨
      ∃ own', x = some (sbrkImage I pr.sz n eager).1 ∧
        Shown sym s t own own' k r (procImage sym tf (sbrkImage I pr.sz n eager).2) ∧
        Below (sbrkImage I pr.sz n eager).2 (pagesOf (sbrkImage I pr.sz n eager).1) ∧
        (sbrkImage I pr.sz n eager).1 ≤ trapframeVa := by
  have hlt := pagesOf_lt hl.size
  unfold Xv6Mem.sysSbrk Xv6Mem.growproc sbrkImage
  rw [hl.pagetable]
  by_cases hneg : BitVec.slt n 0#32 = true
  · have hpos : ¬ BitVec.slt 0#32 n = true := by
      rw [BitVec.slt_eq_decide, decide_eq_true_eq] at hneg ⊢
      omega
    rw [if_pos hneg, hneg, Bool.or_true, if_pos rfl, if_neg hpos, if_pos rfl]
    have hrun := h.uvmdealloc hl.space hl.size (pr.sz + n) fun w m hw hm => by
      rw [procImage_of_lt (by omega)] at hm
      exact (hl.below w m hm).2
    rw [cut_procImage (by omega)] at hrun
    refine hrun.bind fun x t ⟨hx, own', hshown⟩ => gives_pure (.inr ⟨own', ?_⟩)
    by_cases hle : pr.sz ≤ pr.sz + n
    · rw [if_pos hle] at hx ⊢
      rw [cut_of_le (pagesOf_mono hle)] at hshown
      exact ⟨by rw [hx], hshown, hl.below, hl.size⟩
    · rw [if_neg hle] at hx ⊢
      exact ⟨by rw [hx], hshown, below_cut hl.below,
        BitVec.le_trans (BitVec.le_of_lt (BitVec.not_le.1 hle)) hl.size⟩
  · rw [if_neg hneg]
    rw [Bool.eq_false_of_not_eq_true hneg, Bool.or_false]
    have hfits' := hfits hneg
    cases eager with
    | true =>
      rw [if_pos rfl, Bool.true_and]
      refine gives_ite (fun hpos => ?_) fun hpos => ?_
      · rw [if_pos hpos]
        by_cases hwrap : pr.sz + n < pr.sz
        · have hrun : Xv6Mem.uvmalloc sym (addr r) pr.sz (pr.sz + n) flagW s = .ok (pr.sz, s) := by
            unfold Xv6Mem.uvmalloc
            rw [if_pos hwrap]
            rfl
          have hsz : pr.sz ≠ 0#32 := by
            intro h0
            rw [h0, BitVec.lt_def] at hwrap
            exact Nat.not_lt_zero _ hwrap
          rw [if_pos hwrap]
          refine Gives.bind_eq hrun (gives_pure (.inr ⟨own, ?_, .refl h hl.space, hl.below, hl.size⟩))
          rw [if_neg hsz, if_neg Bool.false_ne_true]
        · have hle := BitVec.not_lt.1 hwrap
          rw [if_neg hwrap]
          refine (h.grow hl hle hfits').bind fun x t ht => ?_
          rcases ht with ⟨rfl, own', hshown⟩ | ⟨rfl, own', hshown⟩
          · have hsz : pr.sz + n ≠ 0#32 := by
              intro h0
              rw [BitVec.slt_eq_decide, decide_eq_true_eq] at hpos
              have hn0 : n.toNat ≠ 0 := by
                intro hn0
                rw [BitVec.eq_of_toNat_eq (y := 0#32) hn0] at hpos
                exact absurd hpos (by decide)
              have h0' := congrArg BitVec.toNat h0
              have hle' := BitVec.le_def.1 hle
              rw [h0', show (0#32).toNat = 0 from rfl] at hle'
              rw [BitVec.toNat_add, show (0#32).toNat = 0 from rfl] at h0'
              have hn := n.isLt
              omega
            exact gives_pure (.inr ⟨own', if_neg hsz, hshown,
              below_grown hl.below (pagesOf_mono hle), hfits'⟩)
          · exact gives_pure (.inl ⟨if_pos rfl, own', hshown⟩)
      · rw [if_neg hpos]
        have hn0 : n = 0#32 := by
          have hneg' := hneg
          rw [BitVec.slt_eq_decide, decide_eq_true_eq] at hpos hneg'
          exact BitVec.eq_of_toInt_eq (by rw [BitVec.toInt_zero] at *; omega)
        rw [hn0, BitVec.add_zero]
        refine gives_pure (.inr ⟨own, ?_⟩)
        rw [if_neg Bool.false_ne_true]
        exact ⟨rfl, .refl h hl.space, hl.below, hl.size⟩
    | false =>
      rw [if_neg Bool.false_ne_true, Bool.false_and, if_neg Bool.false_ne_true]
      refine gives_ite (fun _ => gives_pure (.inl ⟨rfl, own, .refl h hl.space⟩)) fun hwrap => ?_
      exact gives_pure (.inr ⟨own, rfl, .refl h hl.space,
        hl.below.mono (pagesOf_mono (BitVec.not_lt.1 hwrap)), hfits'⟩)

/-! ## Page faults -/

/-- `ismapped` tells whether the image has the page. -/
theorem Inv.ismapped (h : Inv sym s own) (hS : Space (pages s.mem) own k r I) :
    Gives (Xv6Mem.ismapped (addr r) (addr v)) s fun b t => t = s ∧ (b = true ↔ I v ≠ none) := by
  unfold Xv6Mem.ismapped
  refine (h.walk hS.root (addr_lt_maxVa v)).bind ?_
  rintro pte t ⟨rfl, hpte⟩
  rw [vpnOf_addr] at hpte
  rcases hpte with ⟨rfl, hno⟩ | ⟨c, hc, rfl⟩
  · have hnone := hS.lookup_eq_none.1 (h.wf.lookup_none hS.root hno)
    exact gives_ite (fun _ => gives_pure ⟨rfl, iff_of_false Bool.false_ne_true (not_not.2 hnone)⟩)
      fun hne => absurd rfl hne
  · refine gives_ite (fun h0 => absurd h0 (pteAt_ne_zero (h.table_ne_zero hc) _)) fun _ => ?_
    refine Gives.bind_eq load_pte (gives_pure ⟨rfl, ?_⟩)
    rw [decide_eq_true_iff, and_flagV, ne_eq, ← hS.lookup_eq_none, h.wf.lookup_table hS.root hc]
    split_ifs with hv
    · exact iff_of_true hv nofun
    · exact iff_of_false hv (not_not.2 rfl)

theorem vpnOf_lt {a sz : Word} (h : a < sz) (hsz : sz ≤ trapframeVa) :
    (vpnOf a).toNat < pagesOf sz ∧ (vpnOf a).toNat < 0xFFFFE := by
  have h' := BitVec.lt_def.1 h
  have hsz' : sz.toNat ≤ 0xFFFFE000 := BitVec.le_def.1 hsz
  simp only [vpnOf, BitVec.extractLsb'_toNat, Nat.shiftRight_eq_div_pow, pagesOf, Nat.reducePow]
  omega

/-- A page fault below the size adds a zeroed page, if there was none and there is memory. -/
theorem Inv.vmfault (h : Inv sym s own) (hl : Live sym s own k pr r tf I) (va : Word) :
    Gives (Xv6Mem.vmfault sym pr va) s fun x t =>
      (x ≠ 0#32 ∧ va < pr.sz ∧ I (vpnOf va) = none ∧ ∃ own', Shown sym s t own own' k r
        (procImage sym tf (Function.update I (vpnOf va)
          (some (.page (flagW ||| flagU ||| flagR ||| flagV) (fill 0#8)))))) ∨
      (x = 0#32 ∧ ∃ own', Shown sym s t own own' k r (procImage sym tf I)) := by
  have hsame : ∃ own', Shown sym s s own own' k r (procImage sym tf I) := ⟨own, .refl h hl.space⟩
  unfold Xv6Mem.vmfault
  rw [hl.pagetable, pgRoundDown_eq]
  refine gives_ite (fun _ => gives_pure (.inr ⟨rfl, hsame⟩)) fun hlt => ?_
  have hlt := BitVec.not_le.1 hlt
  obtain ⟨-, hv⟩ := vpnOf_lt hlt hl.size
  refine (h.ismapped hl.space).bind ?_
  rintro mapped t ⟨rfl, hmapped⟩
  refine gives_ite (fun _ => gives_pure (.inr ⟨rfl, hsame⟩)) fun hno => ?_
  have hnone : procImage sym tf I (vpnOf va) = none := not_not.1 fun hne => hno (hmapped.2 hne)
  refine h.kalloc.bind fun x y hy => ?_
  rcases hy with ⟨rfl, rfl⟩ | ⟨q, rfl, hfree, hinv, hothers⟩
  · exact gives_ite (fun _ => gives_pure (.inr ⟨rfl, hsame⟩)) fun hne => absurd rfl hne
  · have hqp := h.pool q (by rw [hfree]; nofun)
    have hq0 := addr_ne_zero hqp.ne_zero
    refine gives_ite (fun h0 => absurd h0 hq0) fun _ => ?_
    refine (hinv.memset (Function.update_self q _ own) 0#8).bind fun _ z ⟨hinvz, hzero, hz⟩ => ?_
    refine (h.map_new hl.space hnone ⟨by decide, by decide⟩ hfree hinvz fun p hp =>
      (hz p hp).trans (hothers p hp)).mono fun x t' ht' => ?_
    rw [hzero, update_procImage hv] at ht'
    rcases ht' with ⟨rfl, hshown⟩ | hback
    · refine .inl ⟨hq0, hlt, ?_, hshown⟩
      rw [← hnone, procImage_of_lt hv]
    · exact .inr hback

end Xv6Mem

end KianRiscV
