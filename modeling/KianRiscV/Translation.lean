/-
# What a translation should give

The result of a request as one function of the request, the page tables in memory and
the TLBs: `walkPte` walks memory, `mmuPte` asks the TLB first, and `outcome` adds the
machine-mode bypass and the permission check.  The clocked machines are compared with
these functions in the following modules.
-/
import KianRiscV.Sv32

namespace KianRiscV

/-! ## The entry of a request -/

/-- The word address of a physical byte address. -/
def wordAddr (addr : BitVec 34) : BitVec 32 := addr.extractLsb' 2 32

/-- The page-table entry at a 32-bit byte address, in a memory indexed by word
addresses. -/
def pteWord (rd : BitVec 32 → Word) (addr : Word) : Word := rd (wordAddr (addr.setWidth 34))

/-- The entry of level 1 on the path of a virtual address. -/
def pathPte1 (rd : BitVec 32 → Word) (satp address : Word) : Word :=
  pteWord rd (walkMemAddr (satpBase satp) address 1#2)

/-- The entry of level 0 on the path, in the table the entry of level 1 points to. -/
def pathPte0 (rd : BitVec 32 → Word) (satp address : Word) : Word :=
  pteWord rd (walkMemAddr (pointerBase (pathPte1 rd satp address)) address 0#2)

/-- A valid pointer. -/
def pteLinks (pte : Word) : Bool := pteV pte && pteIsPointer pte

/-- What the walker makes of an entry that is not a valid pointer: the repacked leaf,
or zero for an invalid entry. -/
def endPte (level : BitVec 2) (address pte : Word) : Word :=
  if pteV pte then leafPte level address pte else 0#32

/-- The entry a walk of memory delivers; `none` when a valid pointer stands at level
0. -/
def walkPte (rd : BitVec 32 → Word) (satp address : Word) : Option Word :=
  if pteLinks (pathPte1 rd satp address) then
    if pteLinks (pathPte0 rd satp address) then none
    else some (endPte 0#2 address (pathPte0 rd satp address))
  else some (endPte 1#2 address (pathPte1 rd satp address))

/-- The entry for a request: the identity in bare mode, else the TLB's on a hit, else
the walk's. -/
def mmuPte {iw dw : ℕ} (w : TableWalk iw dw) (rd : BitVec 32 → Word) (satp address : Word)
    (isInstruction : Bool) : Option Word :=
  if !satpModeOf satp then some (barePte address)
  else if w.tlbHit satp address isInstruction then some (w.tlbPte satp address isInstruction)
  else walkPte rd satp address

/-! ## The result of a request -/

/-- A page fault, or the physical address of the access. -/
inductive Outcome where
  | pageFault
  | physical (addr : BitVec 34)
  deriving DecidableEq, Repr

namespace CpuReq

/-- The request bypasses translation: machine mode, after `MPRV` for data. -/
def machine (r : CpuReq) : Bool :=
  if r.isInstruction then isMachine r.privilegeMode
  else isMachine (effectivePriv r.privilegeMode r.mstatus)

/-- The entry as the translator of the request sees it. -/
def seenPte (r : CpuReq) (pte : Word) : Word :=
  if r.isInstruction then pte else mxrPte r.mstatus pte

/-- The permission check of the translator of the request. -/
def faults (r : CpuReq) (pte : Word) : Bool :=
  if r.isInstruction then instrPageFault r.privilegeMode pte
  else dataPageFault r.privilegeMode r.mstatus (r.wstrb != 0#4) (mxrPte r.mstatus pte)

/-- The result for a given entry. -/
def check (r : CpuReq) (pte : Word) : Outcome :=
  if r.faults pte then .pageFault else .physical (physicalOf (r.seenPte pte) r.addr)

/-- The result of the request, given where its entry comes from. -/
def outcomeOf (r : CpuReq) (pte : Option Word) : Option Outcome :=
  if r.machine then some (.physical (r.addr.setWidth 34)) else pte.map r.check

/-- The result with the TLBs of `w` in front of the page tables. -/
def outcome {iw dw : ℕ} (r : CpuReq) (w : TableWalk iw dw) (rd : BitVec 32 → Word) :
    Option Outcome :=
  r.outcomeOf (mmuPte w rd r.satp r.addr r.isInstruction)

/-- The result without TLBs. -/
def walkOutcome (r : CpuReq) (rd : BitVec 32 → Word) : Option Outcome :=
  r.outcomeOf
    (if !satpModeOf r.satp then some (barePte r.addr) else walkPte rd r.satp r.addr)

/-- A zero entry denies every access. -/
theorem faults_zero (r : CpuReq) : r.faults 0#32 = true := by
  have hm : mxrPte r.mstatus 0#32 = 0#32 := by simp [mxrPte, pteX]
  cases hi : r.isInstruction with
  | true =>
    simp [faults, hi, instrPageFault, pteReserved, pteW, pteX, pteU]
  | false =>
    simp only [faults, hi, hm, dataPageFault, pteReserved, pteW, pteR, pteU]
    cases hw : (r.wstrb != 0#4) <;> simp

/-- The fields of a request that `sv32` looks at to translate it are the same. -/
structure SameAs (r r' : CpuReq) : Prop where
  valid : r'.valid = r.valid
  wstrb : r'.wstrb = r.wstrb
  addr : r'.addr = r.addr
  isInstruction : r'.isInstruction = r.isInstruction
  satp : r'.satp = r.satp
  mstatus : r'.mstatus = r.mstatus
  privilegeMode : r'.privilegeMode = r.privilegeMode

theorem SameAs.refl (r : CpuReq) : r.SameAs r := ⟨rfl, rfl, rfl, rfl, rfl, rfl, rfl⟩

theorem SameAs.trans {r r' r'' : CpuReq} (h : r.SameAs r') (h' : r'.SameAs r'') :
    r.SameAs r'' :=
  ⟨h'.valid.trans h.valid, h'.wstrb.trans h.wstrb, h'.addr.trans h.addr,
    h'.isInstruction.trans h.isInstruction, h'.satp.trans h.satp, h'.mstatus.trans h.mstatus,
    h'.privilegeMode.trans h.privilegeMode⟩

variable {r r' : CpuReq}

theorem SameAs.machine (h : r.SameAs r') : r'.machine = r.machine := by
  simp only [CpuReq.machine, h.isInstruction, h.privilegeMode, h.mstatus]

theorem SameAs.outcomeOf (h : r.SameAs r') (pte : Option Word) :
    r'.outcomeOf pte = r.outcomeOf pte := by
  have hc : r'.check = r.check := by
    funext pte
    have hf : r'.faults pte = r.faults pte := by
      simp only [faults, h.isInstruction, h.privilegeMode, h.mstatus, h.wstrb]
    have hs : r'.seenPte pte = r.seenPte pte := by
      simp only [seenPte, h.isInstruction, h.mstatus]
    rw [check, check, hf, hs, h.addr]
  rw [CpuReq.outcomeOf, CpuReq.outcomeOf, h.machine, hc, h.addr]

theorem SameAs.outcome {iw dw : ℕ} (h : r.SameAs r') (w : TableWalk iw dw)
    (rd : BitVec 32 → Word) : r'.outcome w rd = r.outcome w rd := by
  rw [CpuReq.outcome, CpuReq.outcome, h.outcomeOf, h.satp, h.addr, h.isInstruction]

theorem SameAs.walkOutcome (h : r.SameAs r') (rd : BitVec 32 → Word) :
    r'.walkOutcome rd = r.walkOutcome rd := by
  rw [CpuReq.walkOutcome, CpuReq.walkOutcome, h.outcomeOf, h.satp, h.addr]

end CpuReq

/-! ## The entry over one clock edge of the walker -/

section Step

variable {iw dw : ℕ} {w : TableWalk iw dw} {i : WalkIn}

/-- An edge without fill and flush leaves the entries of all requests alone. -/
theorem mmuPte_next (hf : w.fillsTlb i = false) (hfl : i.tlbFlush = false)
    (rd : BitVec 32 → Word) (satp address : Word) (isInstruction : Bool) :
    mmuPte (w.next i) rd satp address isInstruction = mmuPte w rd satp address isInstruction := by
  rw [mmuPte, mmuPte, TableWalk.tlbHit_next hf, TableWalk.tlbPte_next hf hfl, hfl, Bool.not_false,
    Bool.true_and]

theorem tlbHit_next_fill (hf : w.fillsTlb i = true) (hfl : i.tlbFlush = false)
    (hm : w.tlbHit i.satp i.address i.isInstruction = false) :
    (w.next i).tlbHit i.satp i.address i.isInstruction = true ∧
      (w.next i).tlbPte i.satp i.address i.isInstruction = w.tlbPteI i := by
  have hv : w.tlbValid i = true := by simp [TableWalk.tlbValid, hf]
  cases hi : i.isInstruction with
  | true =>
    rw [hi] at hm
    have h := AssociativeCache.lookup_next_write (w.tlbPteI i) hm
    simp only [TableWalk.tlbHit, TableWalk.tlbPte, TableWalk.next, hf, hv, hfl, hi]
    exact h
  | false =>
    rw [hi] at hm
    have h := AssociativeCache.lookup_next_write (w.tlbPteI i) hm
    simp only [TableWalk.tlbHit, TableWalk.tlbPte, TableWalk.next, hf, hv, hfl, hi]
    exact h

end Step

end KianRiscV
