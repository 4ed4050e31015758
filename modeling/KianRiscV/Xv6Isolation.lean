/-
# Processes do not share memory

Every action of the kernel and of its users keeps the memories of the users apart.  So in all states
that can be reached the functions of the kernel return, an access of a user that the hardware
translates through the tables of its process finds the private memory of that process, and when no
process is left the pages that the kernel does not hold are free again.
-/
import KianRiscV.Xv6Users

namespace KianRiscV

namespace Xv6Mem

open StateProgram

section System

variable {π : Type} [DecidableEq π] {sym : Symbols} {s t : State π} {A : UserSpaces π} {p : π}
  {own own' : Page → Owner π} {u : UserSpace}

/-! ## Every action -/

/-- The kernel takes, gives back and writes pages of its own. -/
theorem Isolated.kernel_step (h : Isolated sym s own A) {a : PoolAction}
    (hallow : s.toClients.Allows sym a) :
    ∃ x own', s.toClients.step sym a = .ok x ∧ Isolated sym ⟨x, s.procs⟩ own' A := by
  cases a with
  | kalloc =>
    obtain ⟨r, t, hrun, hres⟩ := h.inv.kalloc
    refine ⟨⟨t, if r = 0#32 then s.held else insert (vpnOf r) s.held⟩, ?_⟩
    rcases hres with ⟨rfl, rfl⟩ | ⟨q, rfl, hfree, hinv, hpages⟩
    · refine ⟨own, by rw [Clients.step, hrun]; rfl, ?_⟩
      exact h.kernel h.inv (.refl _ s.kmem own) h.held
    · have hpool := h.inv.pool q (by rw [hfree]; simp)
      refine ⟨_, by rw [Clients.step, hrun]; rfl, h.kernel hinv (.take hfree rfl hpages) fun x => ?_⟩
      rw [if_neg (addr_ne_zero hpool.ne_zero), vpnOf_addr, Finset.mem_insert, h.held]
      by_cases hx : x = q
      · subst hx
        simp only [Function.update_self, hpool, true_or, and_true]
      · simp only [hx, false_or, Function.update_of_ne hx]
  | kfree pa =>
    obtain ⟨halign, hheld⟩ := hallow
    obtain ⟨hpool, hown⟩ := (h.held _).1 hheld
    obtain ⟨_, t, hrun, hinv, hpages⟩ := h.inv.kfree hown hpool
    rw [addr_vpnOf halign] at hrun
    refine ⟨⟨t, s.held.erase (vpnOf pa)⟩, _, by rw [Clients.step, hrun]; rfl,
      h.kernel hinv (.give hown hpages) fun x => ?_⟩
    rw [Finset.mem_erase, h.held]
    by_cases hx : x = vpnOf pa
    · subst hx
      simp only [Function.update_self, ne_eq, not_true_eq_false, false_and, reduceCtorEq, and_false]
    · simp only [ne_eq, hx, not_false_eq_true, true_and, Function.update_of_ne hx]
  | store pa w =>
    have hown : own (vpnOf pa) = .kernel := by
      rcases hallow with hheld | hout
      · exact ((h.held _).1 hheld).2
      · by_contra hne
        exact hout (h.inv.pool _ hne)
    have hpages : ∀ q, own q ≠ .kernel →
        pages (Function.update s.kmem.mem (pa >>> 2) w) q = pages s.kmem.mem q := fun q hq => by
      refine pages_store s.kmem.mem w ?_
      rintro rfl
      exact hq hown
    refine ⟨_, own, rfl, h.kernel (h.inv.congr rfl fun q hq => hpages q fun hk => ?_)
      ⟨fun q _ hq => ⟨hpages q hq, rfl⟩, fun q => .inl rfl⟩ h.held⟩
    rw [hk] at hq
    exact hq

omit [DecidableEq π] in
theorem Isolated.live (h : Isolated sym s own A) (hp : A p = some u) :
    (s.procs p).sz = u.sz ∧ ∃ r tf, Live sym s.kmem own p (s.procs p) r tf u.image := by
  have hag := h.agrees p
  rw [hp] at hag
  exact hag

omit [DecidableEq π] in
theorem Isolated.gone (h : Isolated sym s own A) (hp : A p = none) :
    s.procs p = Proc.unused ∧ Gone own p := by
  have hag := h.agrees p
  rw [hp] at hag
  exact hag

/-- The space of a process was worked on, and its image is that of the memory it is to have. -/
theorem Isolated.shown (h : Isolated sym s own A) {t : Kmem} {r tf : Page} {u' : UserSpace}
    (hl : Live sym s.kmem own p (s.procs p) r tf u.image)
    (hshown : Shown sym s.kmem t own own' p r (procImage sym tf u'.image))
    (hbelow : Below u'.image (pagesOf u'.sz)) (hsz : u'.sz ≤ trapframeVa) :
    Isolated sym (s.setProc t p { s.procs p with sz := u'.sz }) own'
      (Function.update A p (some u')) :=
  h.update _ hshown.inv hshown.keeps.to_mine ⟨rfl, r, tf, hl.of_shown hshown hbelow hsz⟩

theorem Isolated.shown_same (h : Isolated sym s own A) (hp : A p = some u) {t : Kmem} {r tf : Page}
    (hl : Live sym s.kmem own p (s.procs p) r tf u.image) (hsz : (s.procs p).sz = u.sz)
    (hshown : Shown sym s.kmem t own own' p r (procImage sym tf u.image)) :
    Isolated sym (s.setProc t p (s.procs p)) own' A := by
  refine h.same hshown.inv hshown.keeps.to_mine ?_
  rw [hp]
  exact ⟨hsz, r, tf, hl.of_shown hshown hl.below hl.size⟩

/-- One action returns and keeps the memories apart. -/
theorem Isolated.step {a : Action π} (h : Isolated sym s own A) (hallow : s.Allows sym A a) :
    ∃ t ok own', s.step sym a = .ok (t, ok) ∧ Isolated sym t own' (A.next a ok) := by
  obtain ⟨hallow, hkernel⟩ := hallow
  cases a with
  | kernel a =>
    obtain ⟨x, own', hrun, hiso⟩ := h.kernel_step (hkernel a rfl)
    refine ⟨⟨x, s.procs⟩, true, own', ?_, hiso⟩
    rw [State.step, hrun]
    rfl
  | allocproc p =>
    obtain ⟨-, hgone⟩ := h.gone hallow
    obtain ⟨x, t, hrun, hres⟩ := h.inv.allocproc hgone
    refine ⟨s.setProc t p (x.getD Proc.unused), x.isSome, ?_⟩
    rcases hres with ⟨rfl, own', hinv, hkeep, hgone'⟩ | ⟨pr, r, tf, own', rfl, hsz, hinv, hkeep, hl⟩
    · refine ⟨own', by rw [State.step, hrun]; rfl, ?_⟩
      have hnew := h.update _ (x := none) hinv hkeep ⟨rfl, hgone'⟩
      rw [← hallow, Function.update_eq_self] at hnew
      exact hnew
    · refine ⟨own', by rw [State.step, hrun]; rfl, ?_⟩
      exact h.update _ hinv hkeep (x := some .empty) ⟨hsz, r, tf, hl⟩
  | freeproc p =>
    obtain ⟨u, hu⟩ := Option.ne_none_iff_exists'.1 hallow
    obtain ⟨-, r, tf, hl⟩ := h.live hu
    obtain ⟨_, t, hrun, rfl, own', hinv, hkeep, hgone⟩ := h.inv.freeproc hl
    refine ⟨s.setProc t p Proc.unused, true, own', ?_, ?_⟩
    · rw [State.step, hrun]
      rfl
    · exact h.update _ hinv hkeep (x := none) ⟨rfl, hgone⟩
  | kfork p q =>
    obtain ⟨hp, hq⟩ := hallow
    obtain ⟨u, hu⟩ := Option.ne_none_iff_exists'.1 hp
    obtain ⟨hsz, r, tf, hl⟩ := h.live hu
    obtain ⟨-, hgone⟩ := h.gone hq
    have hpq : p ≠ q := by
      rintro rfl
      exact hp hq
    obtain ⟨x, t, hrun, hres⟩ := h.inv.kfork hl hgone hpq
    refine ⟨s.setProc t q (x.getD Proc.unused), x.isSome, ?_⟩
    rcases hres with ⟨rfl, own', hinv, hkeep, hgone'⟩ |
      ⟨np, r', tf', own', rfl, hnp, hinv, hkeep, hl'⟩
    · refine ⟨own', by rw [State.step, hrun]; rfl, ?_⟩
      have hnew := h.update _ (x := none) hinv hkeep ⟨rfl, hgone'⟩
      rw [← hq, Function.update_eq_self] at hnew
      exact hnew
    · refine ⟨own', by rw [State.step, hrun]; rfl, ?_⟩
      have hnew := h.update _ hinv hkeep (x := some u) ⟨hnp.trans hsz, r', tf', hl'⟩
      rw [← hu] at hnew
      exact hnew
  | sbrk p n eager =>
    obtain ⟨u, hu, hfits⟩ := hallow
    obtain ⟨hsz, r, tf, hl⟩ := h.live hu
    obtain ⟨x, t, hrun, hres⟩ := h.inv.sysSbrk hl n eager
      (by rw [hsz]; exact hfits)
    refine ⟨s.setProc t p { s.procs p with sz := x.getD (s.procs p).sz }, x.isSome, ?_⟩
    rw [hsz, image_sbrk] at hres
    rcases hres with ⟨rfl, own', hshown⟩ | ⟨own', rfl, hshown, hbelow, hsize⟩
    · refine ⟨own', by rw [State.step, hrun]; rfl, ?_⟩
      exact h.shown_same hu hl hsz hshown
    · refine ⟨own', by rw [State.step, hrun]; rfl, ?_⟩
      have hnew := h.shown hl hshown hbelow hsize
      show Isolated sym _ own' (A.change p (·.sbrk n eager))
      rw [UserSpaces.change, hu]
      exact hnew
  | fault p va =>
    obtain ⟨u, hu⟩ := Option.ne_none_iff_exists'.1 hallow
    obtain ⟨hsz, r, tf, hl⟩ := h.live hu
    obtain ⟨x, t, hrun, hres⟩ := h.inv.vmfault hl va
    refine ⟨s.setProc t p (s.procs p), x != 0#32, ?_⟩
    rcases hres with ⟨hx, hlt, -, own', hshown⟩ | ⟨rfl, own', hshown⟩
    · refine ⟨own', by rw [State.step, hrun]; rfl, ?_⟩
      have himage : (u.fault va).image = Function.update u.image (vpnOf va)
          (some (.page (flagW ||| flagU ||| flagR ||| flagV) (fill 0#8))) := by
        rw [UserSpace.fault, image_update, fill_zero]
        rfl
      have hpage := (vpnOf_lt hlt hl.size).1
      rw [hsz] at hpage
      rw [← himage] at hshown
      have hbelow : Below (u.fault va).image (pagesOf (u.fault va).sz) := fun w m hm => by
        rw [himage] at hm
        by_cases hw : w = vpnOf va
        · subst hw
          rw [Function.update_self] at hm
          obtain rfl := Option.some.inj hm
          exact ⟨hpage, rfl⟩
        · rw [Function.update_of_ne hw] at hm
          rw [show (u.fault va).sz = u.sz from rfl, ← hsz]
          exact hl.below w m hm
      have hnew := h.shown hl hshown hbelow (by
        rw [show (u.fault va).sz = u.sz from rfl, ← hsz]
        exact hl.size)
      rw [show (u.fault va).sz = (s.procs p).sz from hsz.symm] at hnew
      rw [UserSpaces.next, if_pos (bne_iff_ne.2 hx), UserSpaces.change, hu]
      exact hnew
    · refine ⟨own', by rw [State.step, hrun]; rfl, ?_⟩
      exact h.shown_same hu hl hsz hshown
  | store p mstatus va wdata wstrb =>
    obtain ⟨u, hu⟩ := Option.ne_none_iff_exists'.1 hallow
    refine ⟨_, _, own, rfl, ?_⟩
    have hnew := h.store (p := p) hu
      (userRequest (makeSatp (s.procs p).pagetable) mstatus va wdata wstrb false) rfl rfl
    rw [UserSpaces.next, UserSpaces.change, hu]
    exact hnew

theorem Reachable.isolated (h : Reachable sym s A) : ∃ own, Isolated sym s own A := by
  induction h with
  | kinit hrun => exact ⟨_, isolated_kinit hrun⟩
  | step hreach hallow hstep ih =>
    obtain ⟨own, hiso⟩ := ih
    obtain ⟨t, ok, own', hrun, hiso'⟩ := hiso.step hallow
    rw [hstep] at hrun
    obtain ⟨rfl, rfl⟩ := Prod.mk.inj (Except.ok.inj hrun)
    exact ⟨own', hiso'⟩

theorem Reachable.next {a : Action π} (h : Reachable sym s A) (hallow : s.Allows sym A a) :
    ∃ t ok, s.step sym a = .ok (t, ok) ∧ Reachable sym t (A.next a ok) := by
  obtain ⟨own, hiso⟩ := h.isolated
  obtain ⟨t, ok, -, hrun, -⟩ := hiso.step hallow
  exact ⟨t, ok, hrun, .step h hallow hrun⟩

/-! ## A run -/

/-- The state after an action that returns. -/
def State.after (sym : Symbols) (s : State π) (a : Action π) : State π :=
  match s.step sym a with
  | .ok (t, _) => t
  | .error _ => s

theorem State.step_after {a : Action π}
    (h : ((s.step sym a).toOption.map Prod.snd) = some true) :
    s.step sym a = .ok (s.after sym a, true) := by
  rw [State.after]
  cases hs : s.step sym a with
  | error e =>
    rw [hs] at h
    exact nomatch h
  | ok x =>
    rw [hs] at h
    obtain ⟨t, ok⟩ := x
    obtain rfl : ok = true := Option.some.inj h
    rfl

/-- A process is created, gets a page and writes a word. -/
def sampleAllocproc : Action Bool := .allocproc false

def sampleSbrk : Action Bool := .sbrk false 4096#32 true

def sampleStore : Action Bool := .store false 0#32 0x24#32 0x12345678#32 0xF#4

def sampleState : State Bool := ⟨⟨sampleKmem, ∅⟩, fun _ => Proc.unused⟩

def sampleState₁ : State Bool := sampleState.after sampleSymbols sampleAllocproc

def sampleState₂ : State Bool := sampleState₁.after sampleSymbols sampleSbrk

def sampleState₃ : State Bool := sampleState₂.after sampleSymbols sampleStore

def sampleSpaces₁ : UserSpaces Bool := UserSpaces.next (fun _ => none) sampleAllocproc true

def sampleSpaces₂ : UserSpaces Bool := sampleSpaces₁.next sampleSbrk true

def sampleSpaces₃ : UserSpaces Bool := sampleSpaces₂.next sampleStore true

theorem reachable_sample : Reachable sampleSymbols sampleState fun _ => none := by
  obtain ⟨_, t, hrun, -⟩ := gives_kinit (κ := Bool) sampleSymbols fun _ => 0#32
  have ht : sampleKmem = t := by rw [sampleKmem, hrun]
  rw [sampleState, ht]
  exact .kinit hrun

theorem reachable_sample₁ : Reachable sampleSymbols sampleState₁ sampleSpaces₁ := by
  have hstep : sampleState.step sampleSymbols sampleAllocproc = .ok (sampleState₁, true) :=
    State.step_after (by decide +kernel)
  exact .step reachable_sample ⟨rfl, fun _ h => nomatch h⟩ hstep

theorem reachable_sample₃ : Reachable sampleSymbols sampleState₃ sampleSpaces₃ := by
  have hstep₂ : sampleState₁.step sampleSymbols sampleSbrk = .ok (sampleState₂, true) :=
    State.step_after (by decide +kernel)
  have h₂ : Reachable sampleSymbols sampleState₂ sampleSpaces₂ :=
    .step reachable_sample₁ ⟨⟨.empty, rfl, fun _ => by decide⟩, fun _ h => nomatch h⟩ hstep₂
  have hstep₃ : sampleState₂.step sampleSymbols sampleStore = .ok (sampleState₃, true) :=
    State.step_after (by decide +kernel)
  exact .step h₂ ⟨(fun h => nomatch h), fun _ h => nomatch h⟩ hstep₃

/-- The memory of the process then, and a load of the word. -/
def sampleSpace : UserSpace :=
  (UserSpace.empty.sbrk 4096#32 true).store
    (userRequest 0#32 0#32 0x24#32 0x12345678#32 0xF#4 false)

def wordLoad (satp : Word) : CpuReq := userRequest satp 0#32 0x24#32 0#32 0#4 false

theorem access_wordLoad (satp : Word) :
    sampleSpace.access (wordLoad satp) = some 0x12345678#32 := by
  have h : sampleSpace.access (wordLoad 0#32) = some 0x12345678#32 := by decide +kernel
  exact h

theorem exists_reachable_sample : ∃ s, Reachable sampleSymbols s sampleSpaces₃ :=
  ⟨sampleState₃, reachable_sample₃⟩

theorem exists_reachable_freeproc : ∃ s, Reachable sampleSymbols s
    (UserSpaces.next sampleSpaces₃ (.freeproc false) true) := by
  obtain ⟨s, hs⟩ := exists_reachable_sample
  obtain ⟨t, ok, -, ht⟩ := hs.next (a := .freeproc false) ⟨(fun h => nomatch h), fun _ h => nomatch h⟩
  exact ⟨t, ht⟩

/-! ## Isolation -/

/-- An access of the user finds a page that is its own, or faults. -/
theorem Reachable.access (h : Reachable sym s A) (hp : A p = some u) {req : CpuReq}
    (hsatp : req.satp = makeSatp (s.procs p).pagetable) (hmode : req.privilegeMode = 0#2) :
    match u.access req with
    | none => specOutcome s.kmem.mem req = .pageFault
    | some w => ∃ pa, specOutcome s.kmem.mem req = .physical pa ∧ s.kmem.mem (wordAddr pa) = w := by
  obtain ⟨own, hiso⟩ := h.isolated
  have hout := hiso.specOutcome hp hsatp hmode
  rw [UserSpace.access]
  cases hpage : u.mem (vpnOf req.addr) with
  | none =>
    rw [hpage] at hout
    exact hout
  | some page =>
    rw [hpage] at hout
    obtain ⟨q, pa, -, hdata, hpa, hspec⟩ := hout
    rw [Option.bind_some]
    by_cases hperm : permits req page.flags = true
    · rw [if_pos hperm] at hspec ⊢
      refine ⟨pa, hspec, ?_⟩
      rw [hpa, ← hdata]
      rfl
    · rw [if_neg hperm] at hspec ⊢
      exact hspec

/-- **Isolation.**  Whatever the processes and the kernel have done, the next action returns, a
process has the size and the memory that it made itself, and its accesses reach nothing else. -/
theorem processes_isolated (h : Reachable sym s A) :
    (∀ a, s.Allows sym A a → ∃ t ok, s.step sym a = .ok (t, ok)) ∧
      ∀ p, match A p with
        | none => s.procs p = Proc.unused
        | some u => (s.procs p).sz = u.sz ∧ ∀ req : CpuReq,
            req.satp = makeSatp (s.procs p).pagetable → req.privilegeMode = 0#2 →
              match u.access req with
              | none => specOutcome s.kmem.mem req = .pageFault
              | some w => ∃ pa, specOutcome s.kmem.mem req = .physical pa ∧
                  s.kmem.mem (wordAddr pa) = w := by
  obtain ⟨own, hiso⟩ := h.isolated
  refine ⟨fun a ha => ?_, fun p => ?_⟩
  · obtain ⟨t, ok, hrun, -⟩ := h.next ha
    exact ⟨t, ok, hrun⟩
  · cases hp : A p with
    | none => exact (hiso.gone hp).1
    | some u => exact ⟨(hiso.live hp).1, fun req hsatp hmode => h.access hp hsatp hmode⟩

theorem processes_isolated_load : ∃ s, Reachable sampleSymbols s sampleSpaces₃ ∧
    ∃ pa, specOutcome s.kmem.mem (wordLoad (makeSatp (s.procs false).pagetable)) = .physical pa ∧
      s.kmem.mem (wordAddr pa) = 0x12345678#32 := by
  obtain ⟨s, hs⟩ := exists_reachable_sample
  refine ⟨s, hs, ?_⟩
  have hall := (processes_isolated hs).2 false
  have hu : sampleSpaces₃ false = some sampleSpace := rfl
  rw [hu] at hall
  have hload := hall.2 (wordLoad (makeSatp (s.procs false).pagetable)) rfl rfl
  rw [access_wordLoad] at hload
  exact hload

/-- **No page is lost.**  Without processes the free pages are those that the kernel does not hold,
each of them once. -/
theorem no_page_lost (h : Reachable sym s A) (hnone : ∀ p, A p = none) :
    ∃ l, Chain (pages s.kmem.mem) l s.kmem.freelist ∧ l.Nodup ∧
      ∀ q, q ∈ l ↔ InPool sym q ∧ q ∉ s.held := by
  obtain ⟨own, hiso⟩ := h.isolated
  obtain ⟨⟨l, hl, hnd, hmem⟩, hpool⟩ := hiso.inv.list
  refine ⟨l, hl, hnd, fun q => ?_⟩
  rw [hmem, hiso.held]
  constructor
  · intro hq
    refine ⟨hpool q hq, fun hk => ?_⟩
    rw [hq] at hk
    exact nomatch hk.2
  · rintro ⟨hin, hno⟩
    have hgone := fun k => (hiso.gone (hnone k)).2 q
    cases hq : own q with
    | kernel => exact absurd ⟨hin, hq⟩ hno
    | free => rfl
    | root k => exact absurd (.inl (by rw [hq]; rfl)) (hgone k)
    | table k i => exact absurd (.inl (by rw [hq]; rfl)) (hgone k)
    | frame k v => exact absurd (.inl (by rw [hq]; rfl)) (hgone k)
    | trapframe k => exact absurd (.inr hq) (hgone k)

theorem no_page_lost_freeproc : ∃ s, Reachable sampleSymbols s
      (UserSpaces.next sampleSpaces₃ (.freeproc false) true) ∧
    ∃ l, Chain (pages s.kmem.mem) l s.kmem.freelist ∧ l.Nodup ∧
      ∀ q, q ∈ l ↔ InPool sampleSymbols q ∧ q ∉ s.held := by
  obtain ⟨s, hs⟩ := exists_reachable_freeproc
  refine ⟨s, hs, no_page_lost hs fun p => ?_⟩
  cases p <;> rfl

/-! ## On the hardware -/

/-- **Isolation on the hardware.**  `sv32` works on the memory of the kernel, with TLBs that are
sound for the address.  A request of the user that is held ends with an access to the word that the
process has there, or with a page fault where it has none. -/
theorem user_request_isolated {iw dw : ℕ} (h : Reachable sym s A) (hp : A p = some u)
    {m : MmuSys iw dw} (hrest : m.mmu.AtRest) (hheld : m.mem.held = none)
    (hcontent : m.mem.content = s.kmem.mem) (req : CpuReq) (hv : req.valid = true)
    (hsatp : req.satp = makeSatp (s.procs p).pagetable) (hmode : req.privilegeMode = 0#2)
    (hmprv : bitOf req.mstatus 17 = false)
    (htlb : TlbsFor m.mem.content req.satp req.addr m.mmu.ptw) {answer : ℕ → Bool}
    (hans : ∀ n, ∃ k, n ≤ k ∧ answer k = true) :
    match u.access req with
    | none => m.HasResult req answer .pageFault
    | some w => ∃ pa, m.HasResult req answer (.physical pa) ∧ m.mem.content (wordAddr pa) = w := by
  obtain ⟨own, hiso⟩ := h.isolated
  obtain ⟨-, r, tf, hl⟩ := hiso.live hp
  have htable : req.satp = makeSatp (addr r) := by rw [hsatp, hl.pagetable]
  have hsv32 : satpModeOf req.satp = true := by
    rw [htable]
    exact satpModeOf_makeSatp r
  have hpath : WellFormedPath m.mem.content req.satp req.addr := by
    rw [hcontent, htable]
    exact hl.space.wellFormedPath hiso.inv.wf req.addr
  have hres : ∀ o, specOutcome s.kmem.mem req = o → m.HasResult req answer o := by
    rintro _ rfl
    rw [← hcontent]
    exact (MmuSys.hasResult_iff hrest hheld (fun _ => htlb) hv hans _).2
      (walkOutcome_eq_spec (machine_eq_false (.inr hmode) hmprv) hsv32 hpath)
  have hacc := h.access hp hsatp hmode
  cases hu : u.access req with
  | none =>
    rw [hu] at hacc
    exact hres _ hacc
  | some w =>
    rw [hu] at hacc
    obtain ⟨pa, hspec, hw⟩ := hacc
    refine ⟨pa, hres _ hspec, ?_⟩
    rw [hcontent]
    exact hw

theorem user_request_isolated_load : ∃ s, Reachable sampleSymbols s sampleSpaces₃ ∧
    ∃ pa, MmuSys.HasResult ⟨Sv32.reset 4 3, ⟨s.kmem.mem, none⟩⟩
        (wordLoad (makeSatp (s.procs false).pagetable)) (fun _ => true) (.physical pa) ∧
      s.kmem.mem (wordAddr pa) = 0x12345678#32 := by
  obtain ⟨s, hs⟩ := exists_reachable_sample
  refine ⟨s, hs, ?_⟩
  have hu : sampleSpaces₃ false = some sampleSpace := rfl
  have hempty : TlbsEmpty (Sv32.reset 4 3).ptw := ⟨fun _ _ => rfl, fun _ _ => rfl⟩
  have hload := user_request_isolated hs hu (m := ⟨Sv32.reset 4 3, ⟨s.kmem.mem, none⟩⟩)
    ⟨rfl, ⟨rfl, rfl, rfl⟩, ⟨rfl, rfl, rfl⟩, rfl, rfl, rfl, rfl, rfl, rfl⟩ rfl rfl
    (wordLoad (makeSatp (s.procs false).pagetable)) rfl rfl rfl
    (show bitOf 0#32 17 = false by decide) hempty.tlbsFor
    (fun n => ⟨n, le_rfl, rfl⟩)
  rw [access_wordLoad] at hload
  exact hload

end System

end Xv6Mem

end KianRiscV
