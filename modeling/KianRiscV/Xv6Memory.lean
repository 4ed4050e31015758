/-
# The memory of xv6 on the first SoC

The page allocator of `kalloc.c`, the page tables of `vm.c` and what `proc.c` and `sysproc.c` do
with them.  Memory is read and written through physical addresses, as the kernel does through its
direct map, and is indexed by words as it is for the walker of the hardware.  A function of the
kernel either returns or stops with the text of its `panic`.

Locks, and the fields of `struct proc` that have nothing to do with memory, are left out.
-/
import KianRiscV.StateProgram
import KianRiscV.Instruction

namespace KianRiscV

namespace Xv6Mem

open StateProgram

/-! ## `riscv.h` and `memlayout.h` -/

/-- `PGSIZE`. -/
def pgSize : Word := 4096#32

/-- `PGROUNDUP`. -/
def pgRoundUp (sz : Word) : Word := (sz + pgSize - 1#32) &&& ~~~(pgSize - 1#32)

/-- `PGROUNDDOWN`. -/
def pgRoundDown (a : Word) : Word := a &&& ~~~(pgSize - 1#32)

def flagV : Word := 1#32
def flagR : Word := 2#32
def flagW : Word := 4#32
def flagX : Word := 8#32
def flagU : Word := 16#32

/-- `PA2PTE`. -/
def pa2pte (pa : Word) : Word := (pa >>> 12) <<< 10

/-- `PTE2PA`. -/
def pte2pa (pte : Word) : Word := (pte >>> 10) <<< 12

/-- `PTE_FLAGS`. -/
def pteFlags (pte : Word) : Word := pte &&& 0x3FF#32

/-- `PX`. -/
def px (level : ℕ) (va : Word) : Word := (va >>> (12 + 10 * level)) &&& 0x3FF#32

/-- `MAKE_SATP`. -/
def makeSatp (pagetable : Word) : Word := 0x80000000#32 ||| (pagetable >>> 12)

def maxVa : Word := 0xFFFFFFFF#32
def kernBase : Word := 0x80000000#32
def physTop : Word := 0x80800000#32

/-- `TRAMPOLINE`. -/
def trampolineVa : Word := maxVa - pgSize + 1#32

/-- `TRAPFRAME`. -/
def trapframeVa : Word := trampolineVa - pgSize

/-- The symbols of `kernel.ld`: `end` and `trampoline`, a page of the kernel's text. -/
structure Symbols where
  kernelEnd : Word
  trampoline : Word
  kernelEnd_mem : kernBase ≤ kernelEnd ∧ kernelEnd ≤ physTop
  trampoline_page : trampoline % pgSize = 0#32
  trampoline_text : kernBase ≤ trampoline ∧ trampoline < kernelEnd

/-! ## Memory and the ways to stop -/

/-- A `panic`, or more rounds of a loop than a 32-bit counter can count. -/
inductive Stop where
  | panic (text : String)
  | unfinished
  deriving DecidableEq

/-- The memory and `kmem.freelist`. -/
structure Kmem where
  mem : BitVec 32 → Word
  freelist : Word

abbrev Kernel := StateT Kmem (Except Stop)

def panic {α : Type} (text : String) : Kernel α := throw (.panic text)

/-- The counters of all loops are 32 bits wide. -/
def rounds : ℕ := 2 ^ 32

def load (pa : Word) : Kernel Word := fun s => .ok (s.mem (pa >>> 2), s)

def store (pa w : Word) : Kernel Unit := fun s =>
  .ok ((), { s with mem := Function.update s.mem (pa >>> 2) w })

/-- `memset` of whole words. -/
def memset (dst : Word) (c : BitVec 8) (n : Word) : Kernel Unit := fun s =>
  .ok ((), { s with mem := fun a => if a - (dst >>> 2) < n >>> 2 then c ++ c ++ c ++ c else s.mem a })

/-- `memmove` of whole words. -/
def memmove (dst src n : Word) : Kernel Unit := fun s =>
  .ok ((), { s with mem := fun a =>
    if a - (dst >>> 2) < n >>> 2 then s.mem ((src >>> 2) + (a - (dst >>> 2))) else s.mem a })

/-- `&pagetable[i]`. -/
def pteAt (pagetable i : Word) : Word := pagetable + (i <<< 2)

variable (sym : Symbols)

/-! ## `kalloc.c` -/

def kfree (pa : Word) : Kernel Unit := do
  if pa % pgSize ≠ 0#32 ∨ pa < sym.kernelEnd ∨ physTop ≤ pa then
    panic "kfree"
  else
    -- Fill with junk to catch dangling refs.
    memset pa 1#8 pgSize
    let s ← get
    store pa s.freelist
    modify fun s => { s with freelist := pa }

def kalloc : Kernel Word := do
  let s ← get
  let r := s.freelist
  if r = 0#32 then
    pure r
  else
    let next ← load r
    modify fun s => { s with freelist := next }
    -- fill with junk
    memset r 5#8 pgSize
    pure r

def freerange (paStart paEnd : Word) : Kernel Unit :=
  loop .unfinished (fun p : Word =>
    if p + pgSize ≤ paEnd then do
      kfree sym p
      pure (.inl (p + pgSize))
    else
      pure (.inr ())) rounds (pgRoundUp paStart)

def kinit : Kernel Unit := freerange sym sym.kernelEnd physTop

/-! ## `vm.c` -/

/-- The loop over the levels has one round, for level 1. -/
def walk (pagetable va : Word) (alloc : Bool) : Kernel Word := do
  if maxVa ≤ va then
    panic "walk"
  else
    let pte := pteAt pagetable (px 1 va)
    let e ← load pte
    if e &&& flagV ≠ 0#32 then
      pure (pteAt (pte2pa e) (px 0 va))
    else if alloc = false then
      pure 0#32
    else
      let child ← kalloc
      if child = 0#32 then
        pure 0#32
      else
        memset child 0#8 pgSize
        store pte (pa2pte child ||| flagV)
        pure (pteAt child (px 0 va))

/-- One round of `mappages` for the page `pa` at `a`: `true` when `walk` found its entry. -/
def mappage (pagetable a pa perm : Word) : Kernel Bool := do
  let pte ← walk pagetable a true
  if pte = 0#32 then
    pure false
  else
    let e ← load pte
    if e &&& flagV ≠ 0#32 then
      panic "mappages: remap"
    else
      store pte (pa2pte pa ||| perm ||| flagV)
      pure true

/-- The result is `true` for 0 and `false` for -1. -/
def mappages (pagetable va size pa perm : Word) : Kernel Bool := do
  if va % pgSize ≠ 0#32 then
    panic "mappages: va not aligned"
  else if size % pgSize ≠ 0#32 then
    panic "mappages: size not aligned"
  else if size = 0#32 then
    panic "mappages: size"
  else
    let last := va + size - pgSize
    loop .unfinished (fun (a, pa) => do
      let done ← mappage pagetable a pa perm
      if done = false then
        pure (.inr false)
      else if a = last then
        pure (.inr true)
      else
        pure (.inl (a + pgSize, pa + pgSize))) rounds (va, pa)

def uvmcreate : Kernel Word := do
  let pagetable ← kalloc
  if pagetable = 0#32 then
    pure 0#32
  else
    memset pagetable 0#8 pgSize
    pure pagetable

/-- One round of `uvmunmap` for the page at `a`. -/
def unmapPage (pagetable a : Word) (doFree : Bool) : Kernel Unit := do
  let pte ← walk pagetable a false
  if pte = 0#32 then
    pure ()
  else
    let e ← load pte
    if e &&& flagV = 0#32 then
      pure ()
    else if doFree then
      kfree sym (pte2pa e)
      store pte 0#32
    else
      store pte 0#32

def uvmunmap (pagetable va npages : Word) (doFree : Bool) : Kernel Unit := do
  if va % pgSize ≠ 0#32 then
    panic "uvmunmap: not aligned"
  else
    loop .unfinished (fun a : Word =>
      if a < (va >>> 12) + npages then do
        unmapPage sym pagetable (a <<< 12) doFree
        pure (.inl (a + 1#32))
      else
        pure (.inr ())) rounds (va >>> 12)

def uvmdealloc (pagetable oldsz newsz : Word) : Kernel Word := do
  if oldsz ≤ newsz then
    pure oldsz
  else if pgRoundUp newsz < pgRoundUp oldsz then
    uvmunmap sym pagetable (pgRoundUp newsz) ((pgRoundUp oldsz - pgRoundUp newsz) / pgSize) true
    pure newsz
  else
    pure newsz

/-- One round of `uvmalloc`: a zeroed page at `a`. -/
def uvmallocPage (pagetable a xperm : Word) : Kernel Bool := do
  let mem ← kalloc
  if mem = 0#32 then
    pure false
  else
    memset mem 0#8 pgSize
    let mapped ← mappages pagetable a pgSize mem (flagR ||| flagU ||| xperm)
    if mapped then
      pure true
    else
      kfree sym mem
      pure false

def uvmalloc (pagetable oldsz newsz xperm : Word) : Kernel Word := do
  if newsz < oldsz then
    pure oldsz
  else
    let oldsz := pgRoundUp oldsz
    loop .unfinished (fun a : Word =>
      if a < newsz then do
        let got ← uvmallocPage sym pagetable a xperm
        if got then
          pure (.inl (a + pgSize))
        else
          let _ ← uvmdealloc sym pagetable a oldsz
          pure (.inr 0#32)
      else
        pure (.inr newsz)) rounds oldsz

/-- The argument is the number of levels there is stack for. -/
def freewalk : ℕ → Word → Kernel Unit
  | 0, _ => throw .unfinished
  | depth + 1, pagetable => do
    forRange 1024 fun i => do
      let pte ← load (pteAt pagetable (BitVec.ofNat 32 i))
      if pte &&& flagV ≠ 0#32 ∧ pte &&& (flagR ||| flagW ||| flagX) = 0#32 then
        -- this PTE points to a lower-level page table.
        freewalk depth (pte2pa pte)
        store (pteAt pagetable (BitVec.ofNat 32 i)) 0#32
      else if pte &&& flagV ≠ 0#32 then
        panic "freewalk: leaf"
      else
        pure ()
    kfree sym pagetable

def stackLevels : ℕ := 64

def uvmfree (pagetable sz : Word) : Kernel Unit := do
  if 0#32 < sz then
    uvmunmap sym pagetable 0#32 (pgRoundUp sz / pgSize) true
    freewalk sym stackLevels pagetable
  else
    freewalk sym stackLevels pagetable

/-- One round of `uvmcopy`: `false` when there is no memory. -/
def uvmcopyPage (old new i : Word) : Kernel Bool := do
  let pte ← walk old i false
  if pte = 0#32 then
    pure true
  else
    let e ← load pte
    if e &&& flagV = 0#32 then
      pure true
    else
      let mem ← kalloc
      if mem = 0#32 then
        pure false
      else
        memmove mem (pte2pa e) pgSize
        let mapped ← mappages new i pgSize mem (pteFlags e)
        if mapped then
          pure true
        else
          kfree sym mem
          pure false

/-- The result is `true` for 0 and `false` for -1. -/
def uvmcopy (old new sz : Word) : Kernel Bool :=
  loop .unfinished (fun i : Word =>
    if i < sz then do
      let copied ← uvmcopyPage sym old new i
      if copied then
        pure (.inl (i + pgSize))
      else
        uvmunmap sym new 0#32 (i / pgSize) true
        pure (.inr false)
    else
      pure (.inr true)) rounds 0#32

def ismapped (pagetable va : Word) : Kernel Bool := do
  let pte ← walk pagetable va false
  if pte = 0#32 then
    pure false
  else
    let e ← load pte
    pure (decide (e &&& flagV ≠ 0#32))

/-! ## `proc.c` and `sysproc.c` -/

/-- The fields of `struct proc` for the memory of a process. -/
structure Proc where
  trapframe : Word
  pagetable : Word
  sz : Word
  deriving DecidableEq

/-- An unused one. -/
def Proc.unused : Proc := ⟨0#32, 0#32, 0#32⟩

/-- The result is 0 when there is no memory. -/
def vmfault (p : Proc) (va : Word) : Kernel Word := do
  if p.sz ≤ va then
    pure 0#32
  else
    let va := pgRoundDown va
    let mapped ← ismapped p.pagetable va
    if mapped then
      pure 0#32
    else
      let mem ← kalloc
      if mem = 0#32 then
        pure 0#32
      else
        memset mem 0#8 pgSize
        let done ← mappages p.pagetable va pgSize mem (flagW ||| flagU ||| flagR)
        if done then
          pure mem
        else
          kfree sym mem
          pure 0#32

def procPagetable (trapframe : Word) : Kernel Word := do
  let pagetable ← uvmcreate
  if pagetable = 0#32 then
    pure 0#32
  else
    -- the trampoline code, for the supervisor only
    let done ← mappages pagetable trampolineVa pgSize sym.trampoline (flagR ||| flagX)
    if done = false then
      uvmfree sym pagetable 0#32
      pure 0#32
    else
      let done ← mappages pagetable trapframeVa pgSize trapframe (flagR ||| flagW)
      if done = false then
        uvmunmap sym pagetable trampolineVa 1#32 false
        uvmfree sym pagetable 0#32
        pure 0#32
      else
        pure pagetable

def procFreepagetable (pagetable sz : Word) : Kernel Unit := do
  uvmunmap sym pagetable trampolineVa 1#32 false
  uvmunmap sym pagetable trapframeVa 1#32 false
  uvmfree sym pagetable sz

def freeproc (p : Proc) : Kernel Proc := do
  (if p.trapframe ≠ 0#32 then kfree sym p.trapframe else pure ())
  (if p.pagetable ≠ 0#32 then procFreepagetable sym p.pagetable p.sz else pure ())
  pure Proc.unused

/-- `allocproc` once it has found an unused entry. -/
def allocproc : Kernel (Option Proc) := do
  let trapframe ← kalloc
  if trapframe = 0#32 then
    let _ ← freeproc sym Proc.unused
    pure none
  else
    let pagetable ← procPagetable sym trapframe
    if pagetable = 0#32 then
      let _ ← freeproc sym ⟨trapframe, 0#32, 0#32⟩
      pure none
    else
      pure (some ⟨trapframe, pagetable, 0#32⟩)

/-- `sizeof(struct trapframe)`, and the offset of `a0` in it. -/
def trapframeSize : Word := 144#32
def trapframeA0 : Word := 56#32

/-- The memory of the child of `kfork`. -/
def kfork (p : Proc) : Kernel (Option Proc) := do
  let np ← allocproc sym
  match np with
  | none => pure none
  | some np =>
    let copied ← uvmcopy sym p.pagetable np.pagetable p.sz
    if copied then
      -- copy saved user registers.
      memmove np.trapframe p.trapframe trapframeSize
      store (np.trapframe + trapframeA0) 0#32
      pure (some { np with sz := p.sz })
    else
      let _ ← freeproc sym np
      pure none

/-- The new `sz`, or `none` for -1. -/
def growproc (p : Proc) (n : Word) : Kernel (Option Word) := do
  if BitVec.slt 0#32 n then
    let sz ← uvmalloc sym p.pagetable p.sz (p.sz + n) flagW
    pure (if sz = 0#32 then none else some sz)
  else if BitVec.slt n 0#32 then
    let sz ← uvmdealloc sym p.pagetable p.sz (p.sz + n)
    pure (some sz)
  else
    pure (some p.sz)

/-- `sys_sbrk`: `eager` when its second argument is `SBRK_EAGER`. -/
def sysSbrk (p : Proc) (n : Word) (eager : Bool) : Kernel (Option Word) := do
  if eager || BitVec.slt n 0#32 then
    growproc sym p n
  else if p.sz + n < p.sz then
    pure none
  else
    pure (some (p.sz + n))

end Xv6Mem

end KianRiscV
