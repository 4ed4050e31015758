/-
# The memories of the users

What the memory of processes is for, without pages of a machine and without tables: each process
has a size and its own pages, which no other process can reach.  The states are all those the
kernel can reach from `kinit` on, with processes created, forked, resized and freed, page faults,
stores of users and pages that the kernel takes for itself, in any order.  `Isolated` connects such
a state with the memories the users are to have; here it is shown for their accesses.

Sizes stay below the trapframe.  The kernel does not check this when memory is allocated lazily.
-/
import KianRiscV.Xv6Calls
import KianRiscV.Xv6Translation

namespace KianRiscV

namespace Xv6Mem

open StateProgram

/-! ## What it is for -/

/-- A page of a user. -/
structure UserPage where
  flags : Word
  data : BitVec 10 → Word

/-- The memory of a process. -/
structure UserSpace where
  sz : Word
  mem : BitVec 20 → Option UserPage

/-- The word of a page that an address is in. -/
def wordOf (va : Word) : BitVec 10 := va.extractLsb' 2 10

namespace UserSpace

def empty : UserSpace := ⟨0#32, fun _ => none⟩

def zeroPage (flags : Word) : UserPage := ⟨flags, fun _ => 0#32⟩

/-- Pages from `a` below `b` are removed. -/
def remove (u : UserSpace) (a b : ℕ) : BitVec 20 → Option UserPage := fun w =>
  if a ≤ w.toNat ∧ w.toNat < b then none else u.mem w

/-- Zeroed pages from `a` below `b` are added. -/
def add (u : UserSpace) (a b : ℕ) (flags : Word) : BitVec 20 → Option UserPage := fun w =>
  if a ≤ w.toNat ∧ w.toNat < b then some (zeroPage flags) else u.mem w

/-- The process asks for `n` bytes more, to be used at once or when they are first touched. -/
def sbrk (u : UserSpace) (n : Word) (eager : Bool) : UserSpace :=
  if BitVec.slt n 0#32 then
    if u.sz ≤ u.sz + n then u else ⟨u.sz + n, u.remove (pagesOf (u.sz + n)) (pagesOf u.sz)⟩
  else if eager && BitVec.slt 0#32 n then
    if u.sz + n < u.sz then u
    else ⟨u.sz + n, u.add (pagesOf u.sz) (pagesOf (u.sz + n)) (flagR ||| flagU ||| flagW ||| flagV)⟩
  else ⟨u.sz + n, u.mem⟩

/-- The process touches a page for the first time. -/
def fault (u : UserSpace) (va : Word) : UserSpace where
  sz := u.sz
  mem := Function.update u.mem (vpnOf va) (some (zeroPage (flagW ||| flagU ||| flagR ||| flagV)))

/-- The word that an access finds, if it is allowed. -/
def access (u : UserSpace) (req : CpuReq) : Option Word :=
  (u.mem (vpnOf req.addr)).bind fun page =>
    if permits req page.flags then some (page.data (wordOf req.addr)) else none

/-- Bytes of a page are written. -/
def write (page : UserPage) (req : CpuReq) : UserPage where
  flags := page.flags
  data := Function.update page.data (wordOf req.addr)
    (mergeBytes req.wstrb (page.data (wordOf req.addr)) req.wdata)

/-- A store, if it is allowed. -/
def store (u : UserSpace) (req : CpuReq) : UserSpace :=
  match u.mem (vpnOf req.addr) with
  | none => u
  | some page =>
    if permits req page.flags then
      ⟨u.sz, Function.update u.mem (vpnOf req.addr) (some (write page req))⟩
    else u

end UserSpace

/-- The memories of all processes. -/
abbrev UserSpaces (π : Type) := π → Option UserSpace

/-- What happens to processes, and what the kernel does with pages of its own.  A store is one of the
user, with the status register of its time. -/
inductive Action (π : Type) where
  | kernel (a : PoolAction)
  | allocproc (p : π)
  | freeproc (p : π)
  | kfork (p q : π)
  | sbrk (p : π) (n : Word) (eager : Bool)
  | fault (p : π) (va : Word)
  | store (p : π) (mstatus va wdata : Word) (wstrb : BitVec 4)

/-- An access of the user, with these page tables. -/
def userRequest (satp mstatus va wdata : Word) (wstrb : BitVec 4) (isInstruction : Bool) : CpuReq where
  valid := true
  wstrb := wstrb
  addr := va
  wdata := wdata
  isInstruction := isInstruction
  satp := satp
  mstatus := mstatus
  privilegeMode := 0#2

section Abstract

variable {π : Type} [DecidableEq π]

/-- A process changes. -/
def UserSpaces.change (A : UserSpaces π) (p : π) (f : UserSpace → UserSpace) : UserSpaces π :=
  Function.update A p ((A p).map f)

/-- What an action does, given whether it succeeds. -/
def UserSpaces.next (A : UserSpaces π) : Action π → Bool → UserSpaces π
  | .kernel _, _ => A
  | .allocproc p, ok => if ok then Function.update A p (some .empty) else A
  | .freeproc p, _ => Function.update A p none
  | .kfork p q, ok => if ok then Function.update A q (A p) else A
  | .sbrk p n eager, ok => if ok then A.change p (·.sbrk n eager) else A
  | .fault p va, ok => if ok then A.change p (·.fault va) else A
  | .store p mstatus va wdata wstrb, _ =>
    A.change p (·.store (userRequest 0#32 mstatus va wdata wstrb false))

/-- Unused processes are created and used ones act; sizes stay below the trapframe. -/
def UserSpaces.Allows (A : UserSpaces π) : Action π → Prop
  | .kernel _ => True
  | .allocproc p => A p = none
  | .freeproc p => A p ≠ none
  | .kfork p q => A p ≠ none ∧ A q = none
  | .sbrk p n _ => ∃ u, A p = some u ∧ (¬ BitVec.slt n 0#32 → u.sz + n ≤ trapframeVa)
  | .fault p _ => A p ≠ none
  | .store p _ _ _ _ => A p ≠ none

end Abstract

/-! ## The kernel and its users -/

/-- The memory, the pages that the kernel holds for itself and the table of processes. -/
structure State (π : Type) extends Clients where
  procs : π → Proc

section System

variable {π : Type} [DecidableEq π]

/-- A store of the user goes where the hardware translates it to. -/
def userStore (s : Kmem) (req : CpuReq) : Kmem × Bool :=
  match specOutcome s.mem req with
  | .pageFault => (s, false)
  | .physical pa =>
    (⟨Function.update s.mem (wordAddr pa) (mergeBytes req.wstrb (s.mem (wordAddr pa)) req.wdata),
      s.freelist⟩, true)

/-- The kernel uses its own pages as a client of the allocator does. -/
def State.Allows (sym : Symbols) (s : State π) (A : UserSpaces π) (a : Action π) : Prop :=
  A.Allows a ∧ ∀ b, a = .kernel b → s.toClients.Allows sym b

/-- The memory and a process change. -/
def State.setProc (s : State π) (t : Kmem) (p : π) (pr : Proc) : State π where
  kmem := t
  held := s.held
  procs := Function.update s.procs p pr

/-- The next state, and whether the action succeeded. -/
def State.step (sym : Symbols) (s : State π) : Action π → Except Stop (State π × Bool)
  | .kernel a => do
    let x ← s.toClients.step sym a
    pure (⟨x, s.procs⟩, true)
  | .allocproc p => do
    let (pr, t) ← allocproc sym s.kmem
    pure (s.setProc t p (pr.getD Proc.unused), pr.isSome)
  | .freeproc p => do
    let (pr, t) ← freeproc sym (s.procs p) s.kmem
    pure (s.setProc t p pr, true)
  | .kfork p q => do
    let (np, t) ← kfork sym (s.procs p) s.kmem
    pure (s.setProc t q (np.getD Proc.unused), np.isSome)
  | .sbrk p n eager => do
    let (sz, t) ← sysSbrk sym (s.procs p) n eager s.kmem
    pure (s.setProc t p { s.procs p with sz := sz.getD (s.procs p).sz }, sz.isSome)
  | .fault p va => do
    let (mem, t) ← vmfault sym (s.procs p) va s.kmem
    pure (s.setProc t p (s.procs p), mem != 0#32)
  | .store p mstatus va wdata wstrb =>
    let (t, ok) := userStore s.kmem
      (userRequest (makeSatp (s.procs p).pagetable) mstatus va wdata wstrb false)
    .ok (s.setProc t p (s.procs p), ok)

/-- The states that the kernel and the memories of its processes can reach together. -/
inductive Reachable (sym : Symbols) : State π → UserSpaces π → Prop
  | kinit {m : BitVec 32 → Word} {t : Kmem} (h : kinit sym ⟨m, 0#32⟩ = .ok ((), t)) :
      Reachable sym ⟨⟨t, ∅⟩, fun _ => Proc.unused⟩ fun _ => none
  | step {s t : State π} {A : UserSpaces π} {a : Action π} {ok : Bool} (h : Reachable sym s A)
      (hallow : s.Allows sym A a) (hstep : s.step sym a = .ok (t, ok)) : Reachable sym t (A.next a ok)

/-! ## The connection -/

variable {sym : Symbols} {s t : State π} {A : UserSpaces π} {p : π} {own own' : Page → Owner π}
  {u : UserSpace}

/-- The pages of a user in the image of its space. -/
def UserSpace.image (u : UserSpace) : Image := fun w => (u.mem w).map fun x => .page x.flags x.data

/-- A process has the memory it is to have, or nothing. -/
def Agrees (sym : Symbols) (s : Kmem) (own : Page → Owner π) (p : π) (pr : Proc) :
    Option UserSpace → Prop
  | none => pr = Proc.unused ∧ Gone own p
  | some u => pr.sz = u.sz ∧ ∃ r tf, Live sym s own p pr r tf u.image

/-- All processes do, and of the pool the kernel owns what it holds. -/
structure Isolated (sym : Symbols) (s : State π) (own : Page → Owner π) (A : UserSpaces π) : Prop where
  inv : Inv sym s.kmem own
  held : ∀ q, q ∈ s.held ↔ InPool sym q ∧ own q = .kernel
  agrees : ∀ p, Agrees sym s.kmem own p (s.procs p) (A p)

omit [DecidableEq π] in
theorem isolated_kinit {m : BitVec 32 → Word} {t : Kmem} (h : kinit sym ⟨m, 0#32⟩ = .ok ((), t)) :
    Isolated sym ⟨⟨t, ∅⟩, fun _ : π => Proc.unused⟩ (initialOwner π sym) fun _ => none := by
  obtain ⟨_, t', hrun, hlist⟩ := gives_kinit (κ := π) sym m
  rw [h] at hrun
  obtain ⟨-, rfl⟩ := Prod.mk.inj (Except.ok.inj hrun)
  have hno : ∀ q o k, o.inSpace = some k → initialOwner π sym q ≠ o := by
    rintro q _ k ho rfl
    rw [initialOwner] at ho
    split_ifs at ho <;> cases ho
  refine ⟨⟨hlist, ⟨fun x y k hx => absurd hx (hno x _ k rfl), fun x k hx => absurd hx (hno x _ k rfl),
    fun x k i hx => absurd hx (hno x _ k rfl), fun x k i hx => absurd hx (hno x _ k rfl),
    fun x k v hx => absurd hx (hno x _ k rfl)⟩, fun q hq => ?_⟩, fun q => ?_, fun p => ⟨rfl, ?_⟩⟩
  · rw [initialOwner] at hq
    by_contra hout
    rw [if_neg hout] at hq
    exact hq rfl
  · refine iff_of_false (Finset.notMem_empty q) ?_
    rintro ⟨hin, hq⟩
    rw [initialOwner, if_pos hin] at hq
    cases hq
  · rintro q (hin | heq)
    · exact hno q _ p hin rfl
    · rw [initialOwner] at heq
      split_ifs at heq

omit [DecidableEq π] in
/-- What works on other pages leaves a process as it is. -/
theorem Agrees.kept {mine : Owner π → Prop} {t : Kmem} {k : π} {pr : Proc} {x : Option UserSpace}
    {m : Kmem} (h : Agrees sym m own k pr x) (hkeep : Keeps mine m t own own') (hinv : Inv sym m own)
    (hinv' : Inv sym t own') (hother : ∀ {o : Owner π}, Owner.Mine k o → ¬ mine o) :
    Agrees sym t own' k pr x := by
  cases x with
  | none => exact ⟨h.1, h.2.kept hkeep hother⟩
  | some u =>
    obtain ⟨hsz, r, tf, hl⟩ := h
    exact ⟨hsz, r, tf, hl.kept hkeep hinv hinv' hother⟩

/-- A function worked on one process only. -/
theorem Isolated.update (h : Isolated sym s own A) {t : Kmem} (pr : Proc) {x : Option UserSpace}
    (hinv : Inv sym t own') (hkeep : Keeps (Owner.Mine p) s.kmem t own own')
    (hp : Agrees sym t own' p pr x) :
    Isolated sym (s.setProc t p pr) own' (Function.update A p x) := by
  refine ⟨hinv, fun q => ?_, fun k => ?_⟩
  · rw [hkeep.own_iff .kernel nofun fun ho => ho.ne_kernel rfl]
    exact h.held q
  · show Agrees sym t own' k (Function.update s.procs p pr k) (Function.update A p x k)
    by_cases hkp : k = p
    · subst hkp
      rw [Function.update_self, Function.update_self]
      exact hp
    · rw [Function.update_of_ne hkp, Function.update_of_ne hkp]
      exact (h.agrees k).kept hkeep h.inv hinv fun ho => ho.not hkp

/-- The memory of the users is the same. -/
theorem Isolated.same (h : Isolated sym s own A) {t : Kmem} (hinv : Inv sym t own')
    (hkeep : Keeps (Owner.Mine p) s.kmem t own own')
    (hp : Agrees sym t own' p (s.procs p) (A p)) :
    Isolated sym (s.setProc t p (s.procs p)) own' A := by
  have h' := h.update _ hinv hkeep hp
  rw [Function.update_eq_self] at h'
  exact h'

omit [DecidableEq π] in
/-- The kernel worked on its own pages. -/
theorem Isolated.kernel (h : Isolated sym s own A) {x : Clients} (hinv : Inv sym x.kmem own')
    (hkeep : Keeps (· = Owner.kernel) s.kmem x.kmem own own')
    (hheld : ∀ q, q ∈ x.held ↔ InPool sym q ∧ own' q = .kernel) :
    Isolated sym ⟨x, s.procs⟩ own' A :=
  ⟨hinv, hheld, fun k => (h.agrees k).kept hkeep h.inv hinv fun ho => ho.ne_kernel⟩

/-! ## Images of user spaces -/

theorem fill_zero : fill 0#8 = fun _ => 0#32 := by
  funext i
  show 0#8 ++ 0#8 ++ 0#8 ++ 0#8 = 0#32
  decide

theorem image_remove {a b : ℕ} (sz : Word) :
    (⟨sz, u.remove a b⟩ : UserSpace).image = cut u.image a b := by
  funext w
  simp only [UserSpace.image, UserSpace.remove, cut]
  split_ifs <;> rfl

theorem image_add {a b : ℕ} (sz flags : Word) :
    (⟨sz, u.add a b flags⟩ : UserSpace).image = grown u.image a b flags := by
  funext w
  simp only [UserSpace.image, UserSpace.add, grown, UserSpace.zeroPage, fill_zero]
  split_ifs <;> rfl

theorem image_update {v : BitVec 20} {x : UserPage} (sz : Word) :
    (⟨sz, Function.update u.mem v (some x)⟩ : UserSpace).image
      = Function.update u.image v (some (.page x.flags x.data)) := by
  funext w
  by_cases hw : w = v
  · subst hw
    simp only [UserSpace.image, Function.update_self, Option.map_some]
  · simp only [UserSpace.image, Function.update_of_ne hw]

theorem image_sbrk (n : Word) (eager : Bool) :
    sbrkImage u.image u.sz n eager = ((u.sbrk n eager).sz, (u.sbrk n eager).image) := by
  unfold sbrkImage UserSpace.sbrk
  split_ifs
  · rfl
  · rw [image_remove]
  · rfl
  · rw [image_add]
  · rfl

/-! ## Accesses -/

omit [DecidableEq π] in
/-- The hardware finds the pages of the user. -/
theorem Isolated.specOutcome (h : Isolated sym s own A) (hp : A p = some u) {req : CpuReq}
    (hsatp : req.satp = makeSatp (s.procs p).pagetable) (hmode : req.privilegeMode = 0#2) :
    match u.mem (vpnOf req.addr) with
    | none => KianRiscV.specOutcome s.kmem.mem req = .pageFault
    | some page => ∃ q pa, own q = .frame p (vpnOf req.addr) ∧ pages s.kmem.mem q = page.data ∧
        wordAddr pa = cell q (wordOf req.addr) ∧
        KianRiscV.specOutcome s.kmem.mem req
          = if permits req page.flags then .physical pa else .pageFault := by
  have hag := h.agrees p
  rw [hp] at hag
  obtain ⟨-, r, tf, hl⟩ := hag
  rw [hl.pagetable] at hsatp
  have hspec := specOutcome_eq hl.space h.inv.wf hsatp
  cases hpage : u.mem (vpnOf req.addr) with
  | none =>
    show KianRiscV.specOutcome s.kmem.mem req = .pageFault
    rw [hspec]
    cases hlk : lookup (pages s.kmem.mem) r (vpnOf req.addr) with
    | none => rfl
    | some e =>
      have hshows := hl.space.shows (vpnOf req.addr)
      have huser : pteU e = false := by
        rcases (h.inv.wf.lookup_some hl.space.root hlk).2 with hsole | ⟨-, hu⟩
        · exfalso
          have hown := (hsole (frameOf e)).2 rfl
          by_cases htf : vpnOf req.addr = trapframePage
          · rw [htf] at hshows hown
            rw [procImage, Function.update_self] at hshows
            exact hshows.2.2 _ hown
          · by_cases htr : vpnOf req.addr = trampolinePage
            · rw [htr] at hshows hown
              rw [procImage, Function.update_of_ne (by decide), Function.update_self] at hshows
              exact hshows.2.2 _ hown
            · rw [procImage, Function.update_of_ne htf, Function.update_of_ne htr,
                UserSpace.image, hpage] at hshows
              rw [hlk] at hshows
              exact absurd (show some e = none from hshows) (Option.some_ne_none e)
        · exact hu
      simp only [permits_user hmode huser, Bool.false_eq_true, if_false]
  | some page =>
    have himage : u.image (vpnOf req.addr) = some (.page page.flags page.data) := by
      rw [UserSpace.image, hpage]
      rfl
    have hlt := (hl.below _ _ himage).1
    have hsize := pagesOf_lt hl.size
    have hproc : procImage sym tf u.image (vpnOf req.addr) = some (.page page.flags page.data) := by
      rw [procImage_of_lt (by omega), himage]
    obtain ⟨e, hlk, hown, hflags, hdata⟩ := hl.space.frame hproc
    have hleaf := (h.inv.wf.lookup_some hl.space.root hlk).1
    refine ⟨frameOf e, ppnOf e ++ offsetOf req.addr, hown, hdata, ?_, ?_⟩
    · apply BitVec.eq_of_toNat_eq
      have ha := req.addr.isLt
      rw [wordAddr_append, cell_toNat, ppnOf_toNat hleaf.small]
      simp only [offsetOf, wordOf, BitVec.extractLsb'_toNat, Nat.shiftRight_eq_div_pow]
      omega
    · rw [hspec, hlk, ← hflags, permits_flags]

/-- A store of the user is one to its own memory. -/
theorem Isolated.store (h : Isolated sym s own A) (hp : A p = some u) (req : CpuReq)
    (hsatp : req.satp = makeSatp (s.procs p).pagetable) (hmode : req.privilegeMode = 0#2) :
    Isolated sym (s.setProc (userStore s.kmem req).1 p (s.procs p)) own
      (Function.update A p (some (u.store req))) := by
  have hout := h.specOutcome hp hsatp hmode
  have hsame : Isolated sym (s.setProc s.kmem p (s.procs p)) own (Function.update A p (some u)) := by
    rw [← hp, Function.update_eq_self]
    exact h.same h.inv (.refl _ s.kmem own) (h.agrees p)
  cases hpage : u.mem (vpnOf req.addr) with
  | none =>
    rw [hpage] at hout
    rw [UserSpace.store, hpage, userStore, show KianRiscV.specOutcome s.kmem.mem req = _ from hout]
    exact hsame
  | some page =>
    rw [hpage] at hout
    obtain ⟨q, pa, hq, hdata, hpa, hspec⟩ := hout
    rw [UserSpace.store, hpage, userStore, hspec]
    by_cases hperm : permits req page.flags = true
    · have hag := h.agrees p
      rw [hp] at hag
      obtain ⟨hsz, r, tf, hl⟩ := hag
      have himage : u.image (vpnOf req.addr) = some (.page page.flags page.data) := by
        rw [UserSpace.image, hpage]
        rfl
      have hlt := (hl.below _ _ himage).1
      have hsize := pagesOf_lt hl.size
      have hword : s.kmem.mem (wordAddr pa) = page.data (wordOf req.addr) := by
        rw [hpa, ← hdata]
        rfl
      simp only [hperm, if_true]
      rw [hword, hpa]
      have hpages := pages_update s.kmem.mem q (wordOf req.addr)
        (mergeBytes req.wstrb (page.data (wordOf req.addr)) req.wdata)
      have hne : ∀ x, own x ≠ .frame p (vpnOf req.addr) → x ≠ q := by
        rintro x hx rfl
        exact hx hq
      have hspace := hl.space.write (i := wordOf req.addr)
        (x := mergeBytes req.wstrb (page.data (wordOf req.addr)) req.wdata) h.inv.wf hq
        (by rw [procImage_of_lt (by omega), himage])
      rw [update_procImage (by omega), ← hpages] at hspace
      have hkeep : Keeps (Owner.Mine p) s.kmem
          ⟨Function.update s.kmem.mem (cell q (wordOf req.addr))
            (mergeBytes req.wstrb (page.data (wordOf req.addr)) req.wdata), s.kmem.freelist⟩
          own own := by
        refine ⟨fun x _ hx => ⟨?_, rfl⟩, fun x => .inl rfl⟩
        rw [hpages, setEntry_of_ne]
        exact hne x fun heq => hx (.inl (by rw [heq]; rfl))
      have hinv : Inv sym ⟨Function.update s.kmem.mem (cell q (wordOf req.addr))
          (mergeBytes req.wstrb (page.data (wordOf req.addr)) req.wdata), s.kmem.freelist⟩ own := by
        refine h.inv.congr rfl fun x hx => ?_
        rw [hpages, setEntry_of_ne]
        refine hne x fun heq => ?_
        rw [heq] at hx
        exact hx
      have hnew := h.update (s.procs p)
        (x := some ⟨u.sz, Function.update u.mem (vpnOf req.addr) (some (UserSpace.write page req))⟩)
        hinv hkeep ⟨hsz, r, tf, hl.pagetable, hl.trapframe, hl.tf_sole, by
          rw [image_update]
          exact hspace, fun w m hm => ?_, hl.size⟩
      · exact hnew
      · rw [image_update] at hm
        by_cases hw : w = vpnOf req.addr
        · subst hw
          rw [Function.update_self] at hm
          obtain rfl := Option.some.inj hm
          exact ⟨hlt, rfl⟩
        · rw [Function.update_of_ne hw] at hm
          exact hl.below w m hm
    · simp only [hperm, Bool.false_eq_true, if_false]
      exact hsame

end System

end Xv6Mem

end KianRiscV
