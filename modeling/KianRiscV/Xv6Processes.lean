/-
# The memory of processes

What `proc.c` and `sysproc.c` do with address spaces.  The space of a process maps the trampoline
and its trapframe for the supervisor at the two highest pages, and below its size the pages of the
user.  Creating, forking, resizing and freeing a process, and the page faults of memory that is
allocated lazily, change the pages of that process and of no other.
-/
import KianRiscV.Xv6SpaceLife

namespace KianRiscV

namespace Xv6Mem

open StateProgram

variable {κ : Type} {sym : Symbols} {own own' : Page → Owner κ} {s t u : Kmem} {k k' : κ}
  {r tf c p q : Page} {v w : BitVec 20} {I J : Image} {a b n : ℕ} {pr np : Proc} {sz : Word}

/-! ## The image of a process -/

/-- The pages of `TRAMPOLINE` and `TRAPFRAME`. -/
def trampolinePage : BitVec 20 := 0xFFFFF#20

def trapframePage : BitVec 20 := 0xFFFFE#20

theorem addr_trampolinePage : trampolineVa = addr trampolinePage := by decide

theorem addr_trapframePage : trapframeVa = addr trapframePage := by decide

/-- The pages of the user with the two pages for the supervisor. -/
def procImage (sym : Symbols) (tf : Page) (I : Image) : Image :=
  Function.update
    (Function.update I trampolinePage
      (some (.supervisor (leafTo (vpnOf sym.trampoline) (flagR ||| flagX)))))
    trapframePage (some (.supervisor (leafTo tf (flagR ||| flagW))))

/-- Pages of the space only, below the page `n`. -/
def Below (I : Image) (n : ℕ) : Prop := ∀ w m, I w = some m → w.toNat < n ∧ m.isPage = true

theorem below_noImage : Below noImage n := fun _ _ h => nomatch h

theorem Below.none (h : Below I n) (hw : n ≤ w.toNat) : I w = none := by
  cases hm : I w with
  | none => rfl
  | some m =>
    have := (h w m hm).1
    omega

theorem procImage_of_lt (h : w.toNat < 0xFFFFE) : procImage sym tf I w = I w := by
  have htf : w ≠ trapframePage := by
    rintro rfl
    exact absurd h (by decide)
  have htr : w ≠ trampolinePage := by
    rintro rfl
    exact absurd h (by decide)
  rw [procImage, Function.update_of_ne htf, Function.update_of_ne htr]

/-- Changes below the two pages. -/
theorem procImage_congr (h : ∀ w : BitVec 20, 0xFFFFE ≤ w.toNat → I w = J w) :
    (fun w => if w.toNat < 0xFFFFE then J w else procImage sym tf I w) = procImage sym tf J := by
  funext w
  by_cases hw : w.toNat < 0xFFFFE
  · rw [if_pos hw, procImage_of_lt hw]
  · rw [if_neg hw, procImage, procImage]
    by_cases htf : w = trapframePage
    · rw [htf, Function.update_self, Function.update_self]
    · rw [Function.update_of_ne htf, Function.update_of_ne htf]
      by_cases htr : w = trampolinePage
      · rw [htr, Function.update_self, Function.update_self]
      · rw [Function.update_of_ne htr, Function.update_of_ne htr]
        exact h w (by omega)

theorem cut_procImage (hb : b ≤ 0xFFFFE) :
    cut (procImage sym tf I) a b = procImage sym tf (cut I a b) := by
  rw [← procImage_congr (I := I) (J := cut I a b) fun w hw => (if_neg (by omega)).symm]
  funext w
  by_cases hw : w.toNat < 0xFFFFE
  · rw [if_pos hw, cut, cut, procImage_of_lt hw]
  · rw [if_neg hw, cut, if_neg (by omega)]

theorem grown_procImage (flags : Word) (hb : b ≤ 0xFFFFE) :
    grown (procImage sym tf I) a b flags = procImage sym tf (grown I a b flags) := by
  rw [← procImage_congr (I := I) (J := grown I a b flags) fun w hw => (if_neg (by omega)).symm]
  funext w
  by_cases hw : w.toNat < 0xFFFFE
  · rw [if_pos hw, grown, grown, procImage_of_lt hw]
  · rw [if_neg hw, grown, if_neg (by omega)]

theorem copied_procImage {J : Image} {tf' : Page} (hn : n ≤ 0xFFFFE) :
    copied (procImage sym tf I) (procImage sym tf' J) n = procImage sym tf' (copied I J n) := by
  rw [← procImage_congr (I := J) (J := copied I J n) fun w hw => (if_neg (by omega)).symm]
  funext w
  by_cases hw : w.toNat < 0xFFFFE
  · rw [if_pos hw, copied, copied, procImage_of_lt hw, procImage_of_lt hw]
  · rw [if_neg hw, copied, if_neg (by omega)]

theorem update_procImage {m : Option Mapping} (hv : v.toNat < 0xFFFFE) :
    Function.update (procImage sym tf I) v m = procImage sym tf (Function.update I v m) := by
  have hne : ∀ w : BitVec 20, 0xFFFFE ≤ w.toNat → w ≠ v := by
    rintro w hw rfl
    omega
  rw [← procImage_congr (I := I) (J := Function.update I v m) fun w hw =>
    (Function.update_of_ne (hne w hw) _ _).symm]
  funext w
  by_cases hw : w.toNat < 0xFFFFE
  · rw [if_pos hw]
    by_cases hwv : w = v
    · rw [hwv, Function.update_self, Function.update_self]
    · rw [Function.update_of_ne hwv, Function.update_of_ne hwv, procImage_of_lt hw]
  · rw [if_neg hw, Function.update_of_ne (hne w (by omega))]

/-- The two pages are taken out again. -/
theorem update_update_procImage (hI : Below I 0xFFFFE) :
    Function.update (Function.update (procImage sym tf I) trampolinePage none) trapframePage none
      = I := by
  funext w
  by_cases htf : w = trapframePage
  · rw [htf, Function.update_self]
    exact (hI.none (w := trapframePage) (by decide)).symm
  · rw [Function.update_of_ne htf]
    by_cases htr : w = trampolinePage
    · rw [htr, Function.update_self]
      exact (hI.none (w := trampolinePage) (by decide)).symm
    · rw [Function.update_of_ne htr, procImage, Function.update_of_ne htf, Function.update_of_ne htr]

theorem cut_one : cut I v.toNat (v.toNat + 1) = Function.update I v none := by
  funext w
  by_cases hw : w = v
  · subst hw
    rw [Function.update_self, cut, if_pos (by omega)]
  · have hne : w.toNat ≠ v.toNat := fun h => hw (BitVec.eq_of_toNat_eq h)
    rw [Function.update_of_ne hw, cut, if_neg (by omega)]

/-! ## `proc_pagetable` and `proc_freepagetable` -/

/-- A page is taken out of the image. -/
theorem Inv.uvmunmap_one (h : Inv sym s own) (hS : Space (pages s.mem) own k r I)
    (doFree : Bool) (hI : ∀ m, I v = some m → m.isPage = doFree) :
    Gives (Xv6Mem.uvmunmap sym (addr r) (addr v) 1#32 doFree) s fun _ t =>
      ∃ own', Shown sym s t own own' k r (Function.update I v none) := by
  have hv := v.isLt
  have hrun := h.uvmunmap hS v 1 doFree (by omega) fun w m h1 h2 hm => hI m (by
    rw [← hm]
    congr 1
    exact BitVec.eq_of_toNat_eq (by omega))
  rw [cut_one] at hrun
  exact hrun

/-- An address space with the two pages for the supervisor, or nothing. -/
theorem Inv.procPagetable (h : Inv sym s own) (hno : ∀ p, ¬ Owner.In k (own p)) (tf : Page) :
    Gives (Xv6Mem.procPagetable sym (addr tf)) s fun x t =>
      (x = 0#32 ∧ ∃ own', Inv sym t own' ∧ Keeps (Owner.In k) s t own own' ∧
        ∀ p, ¬ Owner.In k (own' p)) ∨
      ∃ r own', x = addr r ∧ Shown sym s t own own' k r (procImage sym tf noImage) := by
  have htr : addr (vpnOf sym.trampoline) = sym.trampoline := addr_vpnOf sym.trampoline_page
  unfold Xv6Mem.procPagetable
  rw [addr_trampolinePage, addr_trapframePage, ← htr]
  refine (h.uvmcreate (k := k) fun p hp => hno p (by rw [hp]; rfl)).bind fun x t ht => ?_
  rcases ht with ⟨rfl, rfl⟩ | ⟨r, own₁, rfl, hfree, hshown⟩
  · exact gives_ite (fun _ => gives_pure (.inl ⟨rfl, own, h, .refl _ t own, hno⟩))
      fun hne => absurd rfl hne
  · have hrp := h.pool r (by rw [hfree]; nofun)
    refine gives_ite (fun h0 => absurd h0 (addr_ne_zero hrp.ne_zero)) fun _ => ?_
    rw [mappages_one]
    refine (hshown.inv.mappage_supervisor hshown.space rfl (by decide) (by decide) (by decide)).bind
      fun done y hy => ?_
    rcases hy with ⟨rfl, rfl⟩ | ⟨rfl, own₂, hinv, hspace, hkeep⟩
    · refine gives_ite (fun _ => ?_) fun hne => absurd rfl hne
      refine (hshown.inv.uvmfree hshown.space (show 0#32 ≤ trapframeVa by decide) nofun).bind
        fun _ z ⟨own', hinv, hkeep, hnone⟩ => gives_pure (.inl ⟨rfl, own', hinv, ?_, hnone⟩)
      exact hshown.keeps.trans hkeep
    · refine gives_ite nofun fun _ => ?_
      rw [mappages_one]
      have hnone : Function.update noImage trampolinePage
          (some (.supervisor (leafTo (vpnOf sym.trampoline) (flagR ||| flagX)))) trapframePage
            = none := Function.update_of_ne (by decide) _ _
      have hkeep₂ := hshown.keeps.trans hkeep
      refine (hinv.mappage_supervisor hspace hnone (by decide) (by decide) (by decide)).bind
        fun done z hz => ?_
      rcases hz with ⟨rfl, rfl⟩ | ⟨rfl, own₃, hinv', hspace', hkeep'⟩
      · refine gives_ite (fun _ => ?_) fun hne => absurd rfl hne
        have hback := hinv.uvmunmap_one (v := trampolinePage) hspace false fun m hm => by
          rw [Function.update_self] at hm
          obtain rfl := Option.some.inj hm
          rfl
        rw [Function.update_idem, show (none : Option Mapping) = noImage trampolinePage from rfl,
          Function.update_eq_self] at hback
        refine hback.bind fun _ z' ⟨own₃, hshown'⟩ => ?_
        refine (hshown'.inv.uvmfree hshown'.space (show 0#32 ≤ trapframeVa by decide) nofun).bind
          fun _ z'' ⟨own', hinv', hkeep', hgone⟩ => gives_pure (.inl ⟨rfl, own', hinv', ?_, hgone⟩)
        exact (hkeep₂.trans hshown'.keeps).trans hkeep'
      · refine gives_ite nofun fun _ => gives_pure (.inr ⟨r, own₃, rfl, hinv', hspace', ?_⟩)
        exact hkeep₂.trans hkeep'

/-- The address space of a process is taken apart. -/
theorem Inv.procFreepagetable (h : Inv sym s own)
    (hS : Space (pages s.mem) own k r (procImage sym tf I)) (hI : Below I (pagesOf sz))
    (hsz : sz ≤ trapframeVa) : Gives (Xv6Mem.procFreepagetable sym (addr r) sz) s fun _ t =>
      ∃ own', Inv sym t own' ∧ Keeps (Owner.In k) s t own own' ∧ ∀ p, ¬ Owner.In k (own' p) := by
  have hlt := pagesOf_lt hsz
  unfold Xv6Mem.procFreepagetable
  rw [addr_trampolinePage, addr_trapframePage]
  refine (h.uvmunmap_one (v := trampolinePage) hS false fun m hm => ?_).bind
    fun _ y ⟨own₁, hshown₁⟩ => ?_
  · rw [procImage, Function.update_of_ne (by decide), Function.update_self] at hm
    obtain rfl := Option.some.inj hm
    rfl
  refine (hshown₁.inv.uvmunmap_one (v := trapframePage) hshown₁.space false fun m hm => ?_).bind
    fun _ z ⟨own₂, hshown₂⟩ => ?_
  · rw [Function.update_of_ne (by decide), procImage, Function.update_self] at hm
    obtain rfl := Option.some.inj hm
    rfl
  have hspace := hshown₂.space
  rw [update_update_procImage fun w m hm => ⟨by have := (hI w m hm).1; omega, (hI w m hm).2⟩]
    at hspace
  refine (hshown₂.inv.uvmfree hspace hsz hI).mono fun _ z' ⟨own', hinv, hkeep, hgone⟩ => ?_
  exact ⟨own', hinv, (hshown₁.keeps.trans hshown₂.keeps).trans hkeep, hgone⟩

/-! ## Processes -/

/-- The pages of a process: its space and its trapframe. -/
def Owner.Mine (k : κ) (o : Owner κ) : Prop := o.In k ∨ o = .trapframe k

/-- A process with the pages `I`, all of them below its size. -/
structure Live (sym : Symbols) (s : Kmem) (own : Page → Owner κ) (k : κ) (pr : Proc) (r tf : Page)
    (I : Image) : Prop where
  pagetable : pr.pagetable = addr r
  trapframe : pr.trapframe = addr tf
  tf_sole : Sole own (.trapframe k) tf
  space : Space (pages s.mem) own k r (procImage sym tf I)
  below : Below I (pagesOf pr.sz)
  size : pr.sz ≤ trapframeVa

/-- Nothing of the process is left. -/
def Gone (own : Page → Owner κ) (k : κ) : Prop := ∀ p, ¬ Owner.Mine k (own p)

theorem Gone.not_in (h : Gone own k) (p : Page) : ¬ Owner.In k (own p) := fun hp => h p (.inl hp)

/-- No page is one of two processes. -/
theorem Owner.Mine.not {o : Owner κ} (h : Owner.Mine k o) (hk : k ≠ k') : ¬ Owner.Mine k' o := by
  rcases h with hin | rfl
  · rintro (hin' | rfl)
    · exact Owner.not_in hk hin hin'
    · exact nomatch hin
  · rintro (hin' | heq)
    · exact nomatch hin'
    · exact hk (Owner.trapframe.inj heq)

theorem Owner.Mine.ne_free {o : Owner κ} (h : Owner.Mine k o) : o ≠ .free := by
  rintro rfl
  rcases h with hin | heq
  · exact nomatch hin
  · exact nomatch heq

theorem Owner.Mine.ne_kernel {o : Owner κ} (h : Owner.Mine k o) : o ≠ .kernel := by
  rintro rfl
  rcases h with hin | heq
  · exact nomatch hin
  · exact nomatch heq

/-- A process is kept by what works on other pages. -/
theorem Live.kept {mine : Owner κ → Prop} (h : Live sym s own k pr r tf I)
    (hkeep : Keeps mine s t own own') (hinv : Inv sym s own) (hinv' : Inv sym t own')
    (hother : ∀ {o : Owner κ}, Owner.Mine k o → ¬ mine o) : Live sym t own' k pr r tf I :=
  ⟨h.pagetable, h.trapframe,
    fun q => (hkeep.own_iff (.trapframe k) nofun (hother (.inr rfl))).trans (h.tf_sole q),
    h.space.kept hkeep hinv.wf hinv'.wf fun ho => hother (.inl ho), h.below, h.size⟩

theorem Gone.kept {mine : Owner κ → Prop} (h : Gone own k) (hkeep : Keeps mine s t own own')
    (hother : ∀ {o : Owner κ}, Owner.Mine k o → ¬ mine o) : Gone own' k := by
  intro p hp
  rcases hkeep.given p with heq | hfree | hmine
  · rw [heq] at hp
    exact h p hp
  · exact hp.ne_free hfree
  · exact hother hp hmine

theorem Keeps.to_mine (h : Keeps (Owner.In k) s t own own') : Keeps (Owner.Mine k) s t own own' :=
  h.mono fun _ => .inl

/-- The process itself, after a function that works on its space. -/
theorem Live.of_shown (h : Live sym s own k pr r tf I) {J : Image} {sz : Word}
    (hshown : Shown sym s t own own' k r (procImage sym tf J)) (hbelow : Below J (pagesOf sz))
    (hsz : sz ≤ trapframeVa) : Live sym t own' k { pr with sz := sz } r tf J :=
  ⟨h.pagetable, h.trapframe,
    fun q => (hshown.keeps.own_iff (.trapframe k) nofun nofun).trans (h.tf_sole q), hshown.space,
    hbelow, hsz⟩

/-- The trapframe is given back. -/
theorem Inv.kfree_trapframe (h : Inv sym s own) (htf : own tf = .trapframe k) :
    Gives (Xv6Mem.kfree sym (addr tf)) s fun _ t => Inv sym t (Function.update own tf .free) ∧
      (∀ q, q ≠ tf → pages t.mem q = pages s.mem q) ∧
      Keeps (Owner.Mine k) s t own (Function.update own tf .free) := by
  have hpool := h.pool tf (by rw [htf]; nofun)
  refine (gives_kfree h.list (by rw [htf]; nofun) hpool).mono fun _ t ⟨hpages, hlist⟩ => ?_
  refine ⟨⟨hlist, h.wf.relabel (by rw [htf]; rfl) rfl hpages, fun q hq => ?_⟩, hpages,
    .give (.inr htf) hpages⟩
  by_cases hqt : q = tf
  · subst hqt
    exact hpool
  · rw [Function.update_of_ne hqt] at hq
    exact h.pool q hq

/-- `freeproc` gives everything back. -/
theorem Inv.freeproc (h : Inv sym s own) (hl : Live sym s own k pr r tf I) :
    Gives (Xv6Mem.freeproc sym pr) s fun np t => np = Proc.unused ∧ ∃ own', Inv sym t own' ∧
      Keeps (Owner.Mine k) s t own own' ∧ Gone own' k := by
  have htf := (hl.tf_sole tf).2 rfl
  have htp := (h.pool tf (by rw [htf]; nofun)).ne_zero
  have hrp := (h.pool r (by rw [hl.space.root]; nofun)).ne_zero
  unfold Xv6Mem.freeproc
  rw [hl.trapframe, hl.pagetable, if_pos (addr_ne_zero htp), if_pos (addr_ne_zero hrp)]
  refine (h.kfree_trapframe htf).bind fun _ y ⟨hinv, hpages, hkeep⟩ => ?_
  have hspace := hl.space.relabel (o := .free) h.wf (by rw [htf]; rfl) rfl hpages
  refine (hinv.procFreepagetable hspace hl.below hl.size).bind
    fun _ z ⟨own', hinv', hkeep', hgone⟩ => gives_pure ⟨rfl, own', hinv', ?_, ?_⟩
  · exact hkeep.trans hkeep'.to_mine
  · rintro p (hin | heq)
    · exact hgone p hin
    · have heq' := (hkeep'.own_iff (.trapframe k) nofun nofun).1 heq
      by_cases hpt : p = tf
      · subst hpt
        rw [Function.update_self] at heq'
        exact nomatch heq'
      · rw [Function.update_of_ne hpt] at heq'
        exact hpt ((hl.tf_sole p).1 heq')

/-- `allocproc` makes a process without memory, or nothing of it is left. -/
theorem Inv.allocproc (h : Inv sym s own) (hno : Gone own k) :
    Gives (Xv6Mem.allocproc sym) s fun x t =>
      (x = none ∧ ∃ own', Inv sym t own' ∧ Keeps (Owner.Mine k) s t own own' ∧ Gone own' k) ∨
      ∃ pr r tf own', x = some pr ∧ pr.sz = 0#32 ∧ Inv sym t own' ∧
        Keeps (Owner.Mine k) s t own own' ∧ Live sym t own' k pr r tf noImage := by
  unfold Xv6Mem.allocproc
  refine h.kalloc.bind fun x t ht => ?_
  rcases ht with ⟨rfl, rfl⟩ | ⟨q, rfl, hfree, hinv, hothers⟩
  · refine gives_ite (fun _ => ?_) fun hne => absurd rfl hne
    refine Gives.bind_eq (a := Proc.unused) (t := t) rfl ?_
    exact gives_pure (.inl ⟨rfl, own, h, .refl _ t own, hno⟩)
  · have hqp := h.pool q (by rw [hfree]; nofun)
    refine gives_ite (fun h0 => absurd h0 (addr_ne_zero hqp.ne_zero)) fun _ => ?_
    have hpool : ∀ p, Function.update own q (.trapframe k) p ≠ .kernel → InPool sym p :=
      fun p hp => by
        by_cases hpq : p = q
        · subst hpq
          exact hqp
        · rw [Function.update_of_ne hpq] at hp
          exact h.pool p hp
    have hlist : FreeList sym (pages t.mem) t.freelist (Function.update own q (.trapframe k)) := by
      refine hinv.list.congr (fun p _ => rfl) fun p => ?_
      by_cases hpq : p = q
      · subst hpq
        rw [Function.update_self, Function.update_self]
        exact iff_of_false nofun nofun
      · rw [Function.update_of_ne hpq, Function.update_of_ne hpq]
    have hinv₁ : Inv sym t (Function.update own q (.trapframe k)) :=
      ⟨hlist, h.wf.relabel (by rw [hfree]; rfl) rfl hothers, hpool⟩
    have hkeep₁ : Keeps (Owner.Mine k) s t own (Function.update own q (.trapframe k)) :=
      .take hfree (.inr rfl) hothers
    have hno₁ : ∀ p, ¬ Owner.In k (Function.update own q (.trapframe k) p) := fun p hp => by
      by_cases hpq : p = q
      · subst hpq
        rw [Function.update_self] at hp
        exact nomatch hp
      · rw [Function.update_of_ne hpq] at hp
        exact hno p (.inl hp)
    have hsole : Sole (Function.update own q (.trapframe k)) (.trapframe k) q := fun p => by
      by_cases hpq : p = q
      · subst hpq
        exact iff_of_true (Function.update_self p _ own) rfl
      · rw [Function.update_of_ne hpq]
        exact iff_of_false (fun heq => hno p (.inr heq)) hpq
    refine (hinv₁.procPagetable hno₁ q).bind fun x y hy => ?_
    rcases hy with ⟨rfl, own₂, hinv₂, hkeep₂, hgone⟩ | ⟨r, own₂, rfl, hshown⟩
    · refine gives_ite (fun _ => ?_) fun hne => absurd rfl hne
      have hsole₂ : Sole own₂ (.trapframe k) q := fun p =>
        (hkeep₂.own_iff (.trapframe k) nofun nofun).trans (hsole p)
      have hrun : Gives (Xv6Mem.freeproc sym ⟨addr q, 0#32, 0#32⟩) y fun _ t => ∃ own',
          Inv sym t own' ∧ Keeps (Owner.Mine k) y t own₂ own' ∧ Gone own' k := by
        unfold Xv6Mem.freeproc
        rw [if_pos (addr_ne_zero hqp.ne_zero), if_neg fun hne => hne rfl]
        refine (hinv₂.kfree_trapframe ((hsole₂ q).2 rfl)).bind fun _ z ⟨hinv₃, _, hkeep₃⟩ => ?_
        refine Gives.bind_eq (a := ()) (t := z) rfl (gives_pure ⟨_, hinv₃, hkeep₃, ?_⟩)
        rintro p (hin | heq)
        · by_cases hpq : p = q
          · subst hpq
            rw [Function.update_self] at hin
            exact nomatch hin
          · rw [Function.update_of_ne hpq] at hin
            exact hgone p hin
        · by_cases hpq : p = q
          · subst hpq
            rw [Function.update_self] at heq
            exact nomatch heq
          · rw [Function.update_of_ne hpq] at heq
            exact hpq ((hsole₂ p).1 heq)
      refine hrun.bind fun _ z ⟨own₃, hinv₃, hkeep₃, hgone₃⟩ =>
        gives_pure (.inl ⟨rfl, own₃, hinv₃, ?_, hgone₃⟩)
      exact (hkeep₁.trans hkeep₂.to_mine).trans hkeep₃
    · have hrp := (hshown.inv.pool r (by rw [hshown.space.root]; nofun)).ne_zero
      refine gives_ite (fun h0 => absurd h0 (addr_ne_zero hrp)) fun _ => ?_
      refine gives_pure (.inr ⟨_, r, q, own₂, rfl, rfl, hshown.inv,
        hkeep₁.trans hshown.keeps.to_mine, rfl, rfl, fun p => ?_, hshown.space, below_noImage, ?_⟩)
      · exact (hshown.keeps.own_iff (.trapframe k) nofun nofun).trans (hsole p)
      · show 0#32 ≤ trapframeVa
        decide

end Xv6Mem

end KianRiscV
