/-
# The free pages

`kmem.freelist` chains the free pages through their first words.  `FreeList` says that the chain
holds exactly the pages that are marked as free, each of them once, so that `kalloc` takes a page
out of it that nothing else uses and `kfree` puts one back.

Over any run of its clients, which write to the pages they hold and give back what they hold, the
allocator hands out pages that nobody holds, as long as there are any, and touches no page that
somebody holds.
-/
import KianRiscV.Xv6Pages
import Mathlib.Data.Finset.Basic
import Mathlib.Data.List.Nodup

namespace KianRiscV

namespace Xv6Mem

open StateProgram

/-- What a page is used for: by the kernel, by nobody, or by the address space of a process as its
root table, as the table at index `i` of the root, as the page at `v`, or to save registers. -/
inductive Owner (κ : Type) where
  | kernel
  | free
  | root (k : κ)
  | table (k : κ) (i : BitVec 10)
  | frame (k : κ) (v : BitVec 20)
  | trapframe (k : κ)
  deriving DecidableEq

/-- The pages between `end` and `PHYSTOP`. -/
def InPool (sym : Symbols) (p : Page) : Prop := sym.kernelEnd ≤ addr p ∧ addr p < physTop

theorem physTop_toNat : physTop.toNat = 0x80800000 := rfl

instance (sym : Symbols) (p : Page) : Decidable (InPool sym p) := inferInstanceAs (Decidable (_ ∧ _))

theorem InPool.ne_zero {sym : Symbols} {p : Page} (h : InPool sym p) : p ≠ 0#20 := by
  rintro rfl
  have hle := BitVec.le_trans sym.kernelEnd_mem.1 h.1
  exact absurd hle (by decide)

/-- The list of pages chained from `head`. -/
def Chain (M : Pages) : List Page → Word → Prop
  | [], head => head = 0#32
  | p :: l, head => head = addr p ∧ Chain M l (M p 0#10)

theorem Chain.congr {M M' : Pages} {l : List Page} {head : Word} (h : Chain M l head)
    (hM : ∀ p ∈ l, M' p = M p) : Chain M' l head := by
  induction l generalizing head with
  | nil => exact h
  | cons p l ih =>
    obtain ⟨hp, hl⟩ := h
    refine ⟨hp, ?_⟩
    rw [hM p List.mem_cons_self]
    exact ih hl fun q hq => hM q (List.mem_cons_of_mem p hq)

variable {κ : Type} {sym : Symbols} {M M' : Pages} {head : Word} {own own' : Page → Owner κ}
  {s : Kmem} {p : Page}

/-- The chain holds the free pages. -/
structure FreeList (sym : Symbols) (M : Pages) (head : Word) (own : Page → Owner κ) : Prop where
  chain : ∃ l, Chain M l head ∧ l.Nodup ∧ ∀ p, p ∈ l ↔ own p = .free
  pool : ∀ p, own p = .free → InPool sym p

/-- Only the free pages matter. -/
theorem FreeList.congr (h : FreeList sym M head own) (hM : ∀ p, own p = .free → M' p = M p)
    (hown : ∀ p, own' p = .free ↔ own p = .free) : FreeList sym M' head own' := by
  obtain ⟨⟨l, hl, hnd, hmem⟩, hpool⟩ := h
  refine ⟨⟨l, hl.congr fun p hp => hM p ((hmem p).1 hp), hnd, fun p => ?_⟩, fun p hp => ?_⟩
  · rw [hmem, hown]
  · exact hpool p ((hown p).1 hp)

/-! ## The operations -/

/-- `kalloc` gives a free page, which is then anybody's, or there is none. -/
theorem gives_kalloc (h : FreeList sym (pages s.mem) s.freelist own) :
    Gives kalloc s fun r t =>
      (r = 0#32 ∧ t = s ∧ ∀ p, own p ≠ .free) ∨
        ∃ p, r = addr p ∧ own p = .free ∧
          pages t.mem = Function.update (pages s.mem) p (fill 5#8) ∧
          ∀ o, o ≠ .free → FreeList sym (pages t.mem) t.freelist (Function.update own p o) := by
  obtain ⟨⟨l, hl, hnd, hmem⟩, hpool⟩ := h
  unfold kalloc
  refine Gives.bind_eq (a := s) (t := s) rfl ?_
  cases l with
  | nil =>
    have hnil : s.freelist = 0#32 := hl
    refine gives_ite (fun _ => gives_pure (.inl ⟨hnil, rfl, fun p hp => ?_⟩)) fun hno => absurd hnil hno
    exact List.not_mem_nil ((hmem p).2 hp)
  | cons p l =>
    obtain ⟨hhead, hrest⟩ := hl
    have hfree := (hmem p).1 List.mem_cons_self
    obtain ⟨hpl, hnd⟩ := List.nodup_cons.1 hnd
    have hne : s.freelist ≠ 0#32 := by
      rw [hhead]
      exact addr_ne_zero (hpool p hfree).ne_zero
    refine gives_ite (fun h0 => absurd h0 hne) fun _ => ?_
    rw [hhead]
    refine Gives.bind_eq load_first ?_
    refine Gives.bind_eq (a := ()) (t := { s with freelist := pages s.mem p 0#10 }) rfl ?_
    refine (gives_memset 5#8).bind ?_
    rintro _ t ⟨hpages, hlist⟩
    refine gives_pure (.inr ⟨p, rfl, hfree, hpages, fun o ho => ⟨⟨l, ?_, hnd, fun q => ?_⟩, fun q hq => ?_⟩⟩)
    · rw [hlist]
      refine hrest.congr fun q hq => ?_
      rw [hpages, Function.update_of_ne]
      rintro rfl
      exact hpl hq
    · by_cases hqp : q = p
      · subst hqp
        rw [Function.update_self]
        exact ⟨fun hq => absurd hq hpl, fun hof => absurd hof ho⟩
      · rw [Function.update_of_ne hqp, ← hmem]
        exact ⟨fun hq => List.mem_cons_of_mem p hq, fun hq => (List.mem_cons.1 hq).resolve_left hqp⟩
    · by_cases hqp : q = p
      · subst hqp
        exact hpool q hfree
      · rw [Function.update_of_ne hqp] at hq
        exact hpool q hq

/-- `kfree` takes a page of the pool back. -/
theorem gives_kfree (h : FreeList sym (pages s.mem) s.freelist own) (hp : own p ≠ .free)
    (hpool : InPool sym p) : Gives (kfree sym (addr p)) s fun _ t =>
      (∀ q, q ≠ p → pages t.mem q = pages s.mem q) ∧
        FreeList sym (pages t.mem) t.freelist (Function.update own p .free) := by
  obtain ⟨⟨l, hl, hnd, hmem⟩, hin⟩ := h
  have hok : ¬ (addr p % pgSize ≠ 0#32 ∨ addr p < sym.kernelEnd ∨ physTop ≤ addr p) := by
    rintro (h | h | h)
    · exact h (addr_aligned p)
    · exact BitVec.not_lt.2 hpool.1 h
    · exact BitVec.not_lt.2 h hpool.2
  unfold kfree
  refine gives_ite (fun h => absurd h hok) fun _ => ?_
  refine (gives_memset 1#8).bind ?_
  rintro _ t ⟨hpages, hlist⟩
  refine Gives.bind_eq (a := t) (t := t) rfl ?_
  refine gives_store_first.bind ?_
  rintro _ u ⟨hu, hulist⟩
  have hfirst : pages u.mem p 0#10 = s.freelist := by
    rw [hu, setEntry, Function.update_self, Function.update_self, hlist]
  have hothers : ∀ q, q ≠ p → pages u.mem q = pages s.mem q := by
    intro q hq
    rw [hu, setEntry, Function.update_of_ne hq, hpages, Function.update_of_ne hq]
  have hpl : p ∉ l := fun hmem' => hp ((hmem p).1 hmem')
  refine .of_eq (a := ()) rfl ⟨hothers, ⟨p :: l, ⟨rfl, ?_⟩, List.nodup_cons.2 ⟨hpl, hnd⟩, ?_⟩, ?_⟩
  · show Chain (pages u.mem) l (pages u.mem p 0#10)
    rw [hfirst]
    refine hl.congr fun q hq => hothers q ?_
    rintro rfl
    exact hpl hq
  · intro q
    rw [List.mem_cons]
    by_cases hqp : q = p
    · subst hqp
      simp only [Function.update_self, true_or]
    · rw [Function.update_of_ne hqp, ← hmem]
      exact or_iff_right hqp
  · intro q hq
    by_cases hqp : q = p
    · subst hqp
      exact hpool
    · rw [Function.update_of_ne hqp] at hq
      exact hin q hq

/-! ## After `kinit` -/

/-- The pages of the pool are free and the others are the kernel's. -/
def initialOwner (κ : Type) (sym : Symbols) : Page → Owner κ := fun p =>
  if InPool sym p then .free else .kernel

/-- Where the loop of `freerange` is. -/
def freedBelow (κ : Type) (sym : Symbols) (a : Word) : Page → Owner κ := fun q =>
  if sym.kernelEnd ≤ addr q ∧ addr q < a then .free else .kernel

theorem freedBelow_succ {q : Page} (hq : sym.kernelEnd ≤ addr q) (hlt : q.toNat + 1 < 2 ^ 20) :
    Function.update (freedBelow κ sym (addr q)) q .free = freedBelow κ sym (addr (q + 1#20)) := by
  funext x
  have hsucc : (addr (q + 1#20)).toNat = q.toNat * 4096 + 4096 := by
    rw [addr_toNat, page_succ_toNat hlt]
    omega
  by_cases hx : x = q
  · subst hx
    have hlt : addr x < addr (x + 1#20) := by
      rw [BitVec.lt_def, hsucc, addr_toNat]
      omega
    rw [Function.update_self, freedBelow, if_pos ⟨hq, hlt⟩]
  · rw [Function.update_of_ne hx]
    have hne : x.toNat ≠ q.toNat := fun h => hx (BitVec.eq_of_toNat_eq h)
    have hiff : addr x < addr q ↔ addr x < addr (q + 1#20) := by
      rw [BitVec.lt_def, BitVec.lt_def, hsucc, addr_toNat, addr_toNat]
      omega
    simp only [freedBelow, hiff]

/-- `kinit` frees the whole pool. -/
theorem gives_kinit (sym : Symbols) (m : BitVec 32 → Word) :
    Gives (kinit sym) ⟨m, 0#32⟩ fun _ t =>
      FreeList sym (pages t.mem) t.freelist (initialOwner κ sym) := by
  obtain ⟨hlow, hhigh⟩ := sym.kernelEnd_mem
  have hend : sym.kernelEnd.toNat ≤ 0x80800000 := BitVec.le_def.1 hhigh
  have hround := pgRoundUp_toNat (a := sym.kernelEnd) (by omega)
  have hstart : addr (vpnOf (pgRoundUp sym.kernelEnd)) = pgRoundUp sym.kernelEnd :=
    addr_vpnOf_pgRoundUp _
  have hstart' := congrArg BitVec.toNat hstart
  rw [addr_toNat, hround] at hstart'
  rw [kinit, freerange, ← hstart]
  have hnone : ∀ q, freedBelow κ sym (addr (vpnOf (pgRoundUp sym.kernelEnd))) q = .kernel := by
    intro q
    rw [freedBelow, if_neg]
    rw [hstart, BitVec.le_def, BitVec.lt_def, addr_toNat, hround]
    omega
  have hempty : FreeList sym (pages m) 0#32
      (freedBelow κ sym (addr (vpnOf (pgRoundUp sym.kernelEnd)))) := by
    refine ⟨⟨[], rfl, List.nodup_nil, fun q => ?_⟩, fun q hq => ?_⟩
    · rw [hnone]
      exact ⟨fun h => absurd h List.not_mem_nil, fun h => nomatch h⟩
    · rw [hnone] at hq
      exact nomatch hq
  refine gives_loop (fun n a s => ∃ q, a = addr q ∧ q.toNat + n = 0x80800 ∧
    sym.kernelEnd.toNat ≤ q.toNat * 4096 ∧
      FreeList sym (pages s.mem) s.freelist (freedBelow κ sym (addr q))) ?_ rounds
    (0x80800 - (vpnOf (pgRoundUp sym.kernelEnd)).toNat) _ _
    ⟨_, rfl, by omega, by omega, hempty⟩ (by rw [rounds]; omega)
  clear hnone hempty hstart' hstart hround
  rintro n _ s ⟨q, rfl, hn, hq, hlist⟩
  have hq' : sym.kernelEnd ≤ addr q := by
    rw [BitVec.le_def, addr_toNat]
    exact hq
  have hsmall : q.toNat + 1 < 2 ^ 20 := by omega
  refine gives_ite (fun hmore => ?_) fun hdone => gives_pure ?_
  · have hle := BitVec.le_def.1 hmore
    rw [addr_add_pgSize_toNat hsmall, physTop_toNat] at hle
    have hlt : q.toNat + 1 ≤ 0x80800 := by omega
    have hpool : InPool sym q := by
      refine ⟨hq', ?_⟩
      rw [BitVec.lt_def, addr_toNat, physTop_toNat]
      omega
    have hkernel : freedBelow κ sym (addr q) q ≠ .free := by
      rw [freedBelow, if_neg fun h => absurd h.2 (BitVec.lt_irrefl _)]
      exact fun h => nomatch h
    refine (gives_kfree hlist hkernel hpool).bind fun _ t ht => gives_pure ?_
    have hsucc := page_succ_toNat hsmall
    refine ⟨n - 1, by omega, q + 1#20, addr_add_pgSize q, by omega, ?_, ?_⟩
    · rw [hsucc]
      exact hq.trans (Nat.mul_le_mul_right 4096 (Nat.le_succ _))
    · rw [← freedBelow_succ hq' hsmall]
      exact ht.2
  · have hlt := BitVec.not_le.1 hdone
    rw [BitVec.lt_def, addr_add_pgSize_toNat hsmall, physTop_toNat] at hlt
    have hq20 : addr q = physTop := by
      apply BitVec.eq_of_toNat_eq
      rw [addr_toNat, physTop_toNat]
      omega
    rw [hq20] at hlist
    exact hlist

/-- A kernel with a pool of eight pages. -/
def sampleSymbols : Symbols where
  kernelEnd := 0x807F8000#32
  trampoline := 0x80007000#32
  kernelEnd_mem := by decide
  trampoline_page := by decide
  trampoline_text := by decide

/-- Its memory after `kinit`. -/
def sampleKmem : Kmem :=
  match kinit sampleSymbols ⟨fun _ => 0#32, 0#32⟩ with
  | .ok (_, t) => t
  | .error _ => ⟨fun _ => 0#32, 0#32⟩

/-! ## The clients of the allocator -/

/-- The memory, and the pages that were handed out and not given back. -/
structure Clients where
  kmem : Kmem
  held : Finset Page

/-- What the kernel does with the allocator and with its memory. -/
inductive PoolAction where
  | kalloc
  | kfree (pa : Word)
  | store (pa w : Word)

namespace Clients

variable {x : Clients}

/-- Clients give back what they hold, and write to what they hold or to the kernel's own data.
`kmem.freelist` and `proc[]` lie there too, but apart from this memory: no store reaches them. -/
def Allows (sym : Symbols) (x : Clients) : PoolAction → Prop
  | .kalloc => True
  | .kfree pa => pa % pgSize = 0#32 ∧ vpnOf pa ∈ x.held
  | .store pa _ => vpnOf pa ∈ x.held ∨ ¬ InPool sym (vpnOf pa)

def step (sym : Symbols) (x : Clients) : PoolAction → Except Stop Clients
  | .kalloc => do
    let (r, t) ← kalloc x.kmem
    pure ⟨t, if r = 0#32 then x.held else insert (vpnOf r) x.held⟩
  | .kfree pa => do
    let (_, t) ← kfree sym pa x.kmem
    pure ⟨t, x.held.erase (vpnOf pa)⟩
  | .store pa w => do
    let (_, t) ← store pa w x.kmem
    pure ⟨t, x.held⟩

def run (sym : Symbols) (x : Clients) : List PoolAction → Except Stop Clients
  | [] => pure x
  | a :: as => do
    let y ← x.step sym a
    y.run sym as

/-- The clients keep to what is allowed all along. -/
def AllowsAll (sym : Symbols) (x : Clients) : List PoolAction → Prop
  | [] => True
  | a :: as => x.Allows sym a ∧ ∀ y, x.step sym a = .ok y → y.AllowsAll sym as

/-- The pages of the pool that nobody holds are free. -/
def poolOwner (sym : Symbols) (held : Finset Page) : Page → Owner Unit := fun p =>
  if InPool sym p ∧ p ∉ held then .free else .kernel

/-- The invariant of the allocator. -/
structure Inv (sym : Symbols) (x : Clients) : Prop where
  list : FreeList sym (pages x.kmem.mem) x.kmem.freelist (poolOwner sym x.held)
  held : ∀ p ∈ x.held, InPool sym p

theorem poolOwner_eq_free {held : Finset Page} {q : Page} :
    poolOwner sym held q = .free ↔ InPool sym q ∧ q ∉ held := by
  rw [poolOwner]
  split_ifs with h
  · exact ⟨fun _ => h, fun _ => rfl⟩
  · exact iff_of_false (fun h' => nomatch h') h

theorem poolOwner_insert (held : Finset Page) (q : Page) :
    Function.update (poolOwner sym held) q .kernel = poolOwner sym (insert q held) := by
  funext x
  by_cases hx : x = q
  · subst hx
    rw [Function.update_self, poolOwner, if_neg fun h => h.2 (Finset.mem_insert_self x held)]
  · rw [Function.update_of_ne hx]
    simp only [poolOwner, Finset.mem_insert, hx, false_or]

theorem poolOwner_erase (held : Finset Page) {q : Page} (hq : InPool sym q) :
    Function.update (poolOwner sym held) q .free = poolOwner sym (held.erase q) := by
  funext x
  by_cases hx : x = q
  · subst hx
    rw [Function.update_self, poolOwner, if_pos ⟨hq, Finset.notMem_erase x held⟩]
  · rw [Function.update_of_ne hx]
    simp only [poolOwner, Finset.mem_erase, hx, ne_eq, not_false_eq_true, true_and]

/-! ### One step -/

/-- What `kalloc` hands out, and what it leaves alone. -/
theorem Inv.kalloc_ok (h : Inv sym x) : ∃ r t, kalloc x.kmem = .ok (r, t) ∧
    (r = 0#32 ↔ ∀ p, InPool sym p → p ∈ x.held) ∧
    (r ≠ 0#32 → r % pgSize = 0#32 ∧ InPool sym (vpnOf r) ∧ vpnOf r ∉ x.held) ∧
    (∀ p ∈ x.held, pages t.mem p = pages x.kmem.mem p) ∧
    Inv sym ⟨t, if r = 0#32 then x.held else insert (vpnOf r) x.held⟩ := by
  obtain ⟨r, t, hrun, hres⟩ := gives_kalloc h.list
  refine ⟨r, t, hrun, ?_⟩
  rcases hres with ⟨rfl, rfl, hnone⟩ | ⟨p, rfl, hfree, hpages, hlist⟩
  · refine ⟨⟨fun _ p hp => ?_, fun _ => rfl⟩, fun hno => absurd rfl hno, fun p _ => rfl, h⟩
    by_contra hno
    exact hnone p (poolOwner_eq_free.2 ⟨hp, hno⟩)
  · obtain ⟨hpool, hheld⟩ := poolOwner_eq_free.1 hfree
    have hne := addr_ne_zero hpool.ne_zero
    rw [if_neg hne, vpnOf_addr]
    refine ⟨⟨fun h0 => absurd h0 hne, fun hall => absurd (hall p hpool) hheld⟩,
      fun _ => ⟨addr_aligned p, hpool, hheld⟩, fun q hq => ?_, ?_, fun q hq => ?_⟩
    · rw [hpages, Function.update_of_ne]
      rintro rfl
      exact hheld hq
    · rw [← poolOwner_insert]
      exact hlist .kernel fun h => nomatch h
    · rcases Finset.mem_insert.1 hq with rfl | hq
      · exact hpool
      · exact h.held q hq

/-- `kfree` takes back what is held. -/
theorem Inv.kfree_ok (h : Inv sym x) (hp : p ∈ x.held) : ∃ t, kfree sym (addr p) x.kmem = .ok ((), t) ∧
    (∀ q ∈ x.held, q ≠ p → pages t.mem q = pages x.kmem.mem q) ∧ Inv sym ⟨t, x.held.erase p⟩ := by
  have hpool := h.held p hp
  have hown : poolOwner sym x.held p ≠ .free := fun hf => (poolOwner_eq_free.1 hf).2 hp
  obtain ⟨_, t, hrun, hpages, hlist⟩ := gives_kfree h.list hown hpool
  refine ⟨t, hrun, fun q _ hq => hpages q hq, ?_, fun q hq => h.held q (Finset.mem_of_mem_erase hq)⟩
  rw [poolOwner_erase _ hpool] at hlist
  exact hlist

theorem Inv.store_ok (h : Inv sym x) {pa w : Word} (hpa : x.Allows sym (.store pa w)) :
    ∃ t, store pa w x.kmem = .ok ((), t) ∧ Inv sym ⟨t, x.held⟩ := by
  refine ⟨_, rfl, h.list.congr (fun p hp => ?_) fun p => Iff.rfl, h.held⟩
  obtain ⟨hpool, hheld⟩ := poolOwner_eq_free.1 hp
  refine pages_store x.kmem.mem w ?_
  rintro rfl
  exact hpa.elim hheld fun hno => hno hpool

theorem Inv.step {a : PoolAction} (h : Inv sym x) (ha : x.Allows sym a) :
    ∃ y, x.step sym a = .ok y ∧ Inv sym y := by
  cases a with
  | kalloc =>
    obtain ⟨r, t, hrun, -, -, -, hinv⟩ := h.kalloc_ok
    refine ⟨_, ?_, hinv⟩
    rw [Clients.step, hrun]
    rfl
  | kfree pa =>
    obtain ⟨halign, hheld⟩ := ha
    obtain ⟨t, hrun, -, hinv⟩ := h.kfree_ok hheld
    rw [addr_vpnOf halign] at hrun
    refine ⟨_, ?_, hinv⟩
    rw [Clients.step, hrun]
    rfl
  | store pa w =>
    obtain ⟨t, hrun, hinv⟩ := h.store_ok ha
    refine ⟨_, ?_, hinv⟩
    rw [Clients.step, hrun]
    rfl

theorem Inv.run (as : List PoolAction) (h : Inv sym x) (has : x.AllowsAll sym as) :
    ∃ y, x.run sym as = .ok y ∧ Inv sym y := by
  induction as generalizing x with
  | nil => exact ⟨x, rfl, h⟩
  | cons a as ih =>
    obtain ⟨ha, hrest⟩ := has
    obtain ⟨y, hy, hinv⟩ := h.step ha
    obtain ⟨z, hz, hinv'⟩ := ih hinv (hrest y hy)
    refine ⟨z, ?_, hinv'⟩
    rw [Clients.run, hy]
    exact hz

theorem inv_kinit (sym : Symbols) (m : BitVec 32 → Word) :
    ∃ k, kinit sym ⟨m, 0#32⟩ = .ok ((), k) ∧ Inv sym ⟨k, ∅⟩ := by
  obtain ⟨_, k, hrun, hlist⟩ := gives_kinit (κ := Unit) sym m
  refine ⟨k, hrun, ?_, fun p hp => absurd hp (Finset.notMem_empty p)⟩
  have heq : poolOwner sym ∅ = initialOwner Unit sym := by
    funext p
    simp only [poolOwner, initialOwner, Finset.notMem_empty, not_false_eq_true, and_true]
  rw [heq]
  exact hlist

/-- **The allocator.**  After `kinit`, and whatever its clients do with the pages they hold, the
functions return, `kalloc` hands out a page of the pool that nobody holds, and nothing only when
all of them are held, and neither `kalloc` nor `kfree` touches a page that another client holds. -/
theorem allocator_exclusive (sym : Symbols) (m : BitVec 32 → Word) :
    ∃ k, kinit sym ⟨m, 0#32⟩ = .ok ((), k) ∧ ∀ as, AllowsAll sym ⟨k, ∅⟩ as →
      ∃ y, run sym ⟨k, ∅⟩ as = .ok y ∧ (∀ p ∈ y.held, InPool sym p) ∧
        (∃ r t, kalloc y.kmem = .ok (r, t) ∧ (r = 0#32 ↔ ∀ p, InPool sym p → p ∈ y.held) ∧
          (r ≠ 0#32 → r % pgSize = 0#32 ∧ InPool sym (vpnOf r) ∧ vpnOf r ∉ y.held) ∧
          ∀ p ∈ y.held, pages t.mem p = pages y.kmem.mem p) ∧
        ∀ p ∈ y.held, ∃ t, kfree sym (addr p) y.kmem = .ok ((), t) ∧
          ∀ q ∈ y.held, q ≠ p → pages t.mem q = pages y.kmem.mem q := by
  obtain ⟨k, hk, hinv⟩ := inv_kinit sym m
  refine ⟨k, hk, fun as has => ?_⟩
  obtain ⟨y, hy, hinv'⟩ := hinv.run as has
  refine ⟨y, hy, hinv'.held, ?_, fun p hp => ?_⟩
  · obtain ⟨r, t, hrun, hzero, hpage, hkept, -⟩ := hinv'.kalloc_ok
    exact ⟨r, t, hrun, hzero, hpage, hkept⟩
  · obtain ⟨t, hrun, hkept, -⟩ := hinv'.kfree_ok hp
    exact ⟨t, hrun, hkept⟩

/-- A page is handed out, written to and given back. -/
def sampleClient : List PoolAction :=
  [.kalloc, .store 0x807FF004#32 7#32, .kfree 0x807FF000#32]

/-- Then another page can be handed out. -/
theorem allocator_exclusive_kfree : ∃ k y, kinit sampleSymbols ⟨fun _ => 0#32, 0#32⟩ = .ok ((), k) ∧
    run sampleSymbols ⟨k, ∅⟩ sampleClient = .ok y ∧
      ∃ r t, kalloc y.kmem = .ok (r, t) ∧ r % pgSize = 0#32 ∧ InPool sampleSymbols (vpnOf r) := by
  obtain ⟨k, hk, hruns⟩ := allocator_exclusive sampleSymbols fun _ => 0#32
  have hkmem : sampleKmem = k := by rw [sampleKmem, hk]
  have hkalloc : ∀ y, step sampleSymbols ⟨k, ∅⟩ .kalloc = .ok y → y.held = {0x807FF#20} := by
    intro y hy
    have hheld : ((step sampleSymbols ⟨sampleKmem, ∅⟩ .kalloc).toOption.map held)
        = some {0x807FF#20} := by decide +kernel
    rw [hkmem, hy] at hheld
    exact Option.some.inj hheld
  have hallows : AllowsAll sampleSymbols ⟨k, ∅⟩ sampleClient := by
    refine ⟨trivial, fun y hy => ⟨.inl ?_, fun z hz => ⟨⟨by decide, ?_⟩, fun _ _ => trivial⟩⟩⟩
    · rw [hkalloc y hy]
      decide
    · obtain rfl := Except.ok.inj hz
      show vpnOf 0x807FF000#32 ∈ y.held
      rw [hkalloc y hy]
      decide
  obtain ⟨y, hy, -, ⟨r, t, hr, hzero, hpage, -⟩, -⟩ := hruns sampleClient hallows
  have hempty : y.held = ∅ := by
    have hheld : ((run sampleSymbols ⟨sampleKmem, ∅⟩ sampleClient).toOption.map held)
        = some ∅ := by decide +kernel
    rw [hkmem, hy] at hheld
    exact Option.some.inj hheld
  have hne : r ≠ 0#32 := by
    intro h0
    have hmem := hzero.1 h0 0x807F9#20 (by decide)
    rw [hempty] at hmem
    exact Finset.notMem_empty _ hmem
  exact ⟨k, y, hk, hy, r, t, hr, (hpage hne).1, (hpage hne).2.1⟩

end Clients

end Xv6Mem

end KianRiscV
