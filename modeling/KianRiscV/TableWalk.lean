/-
# The page-table walker

`sv32_table_walk.v`: the three-state walk with its instruction and data TLBs.  The
outputs towards memory and the translators depend on the registers and on the
latched request; `next` is one clock edge.
-/
import KianRiscV.AssociativeCache
import KianRiscV.CsrUnit

namespace KianRiscV

/-! ## Page-table entries -/

/-- `GET_PTE_V`, `GET_PTE_R`, `GET_PTE_W`, `GET_PTE_X` and `GET_PTE_U`. -/
def pteV (pte : Word) : Bool := pte.getLsbD 0

def pteR (pte : Word) : Bool := pte.getLsbD 1

def pteW (pte : Word) : Bool := pte.getLsbD 2

def pteX (pte : Word) : Bool := pte.getLsbD 3

def pteU (pte : Word) : Bool := pte.getLsbD 4

/-- A pointer to the next level: none of `R`, `W`, `X`. -/
def pteIsPointer (pte : Word) : Bool := !pteR pte && !pteW pte && !pteX pte

/-- `GET_SATP_PPN(satp) << SV32_PAGE_OFFSET_BITS`, in 32 bits. -/
def satpBase (satp : Word) : Word := (satp &&& 0x003FFFFF#32) <<< 12

/-- `current_asid`. -/
def asidOf (satp : Word) : BitVec 9 := satp.extractLsb' 22 9

/-- `current_vpn`. -/
def vpnOf (address : Word) : BitVec 20 := address.extractLsb' 12 20

/-- The TLB tag `{current_asid, current_vpn}`. -/
def tlbTag (satp address : Word) : BitVec 29 := asidOf satp ++ vpnOf address

/-- `walk_mem_addr`: the table base plus the index of the level. -/
def walkMemAddr (base address : Word) (level : BitVec 2) : Word :=
  let vpnShift := if level = 0#2 then 0 else 10
  let idx : BitVec 10 := (vpnOf address >>> vpnShift).setWidth 10
  base + (idx.setWidth 32 <<< 2)

/-- The base of the next table, `ppn << SV32_PAGE_OFFSET_BITS` in 32 bits. -/
def pointerBase (pte : Word) : Word := (pte >>> 10) <<< 12

/-- The repacked leaf: the page number at bit 12 and the flags; at level 1 the low
part of the page number of the address is or-ed in. -/
def leafPte (level : BitVec 2) (address pte : Word) : Word :=
  let ppn := pte >>> 10
  let page := if level = 0#2 then ppn else ppn ||| ((vpnOf address).setWidth 32 &&& 0x3FF#32)
  (page <<< 12) ||| (pte &&& 0x3FF#32)

/-- The entry the walker makes up in bare mode: `V`, `R`, `W`, `X` and the page of
the address. -/
def barePte (address : Word) : Word := 0xF#32 ||| ((address >>> 12) <<< 12)

/-! ## Registers -/

/-- The states of `sv32_table_walk`. -/
inductive WalkState where
  | s0 | s1 | s2
  deriving DecidableEq, Repr

/-- The instruction TLB: four ways, tree replacement. -/
abbrev Itlb (iw : ℕ) := AssociativeCache 29 32 (lruFourWay iw)

/-- The data TLB: eight ways, age counters. -/
abbrev Dtlb (dw : ℕ) := AssociativeCache 29 32 (lruGeneralWay dw 3)

/-- The registers of `sv32_table_walk`; `iw` and `dw` are the set widths of the
TLBs. -/
structure TableWalk (iw dw : ℕ) where
  state : WalkState
  pte : Word
  ready : Bool
  level : BitVec 2
  base : Word
  itlb : Itlb iw
  dtlb : Dtlb dw

/-- The inputs of `sv32_table_walk` in one cycle. -/
structure WalkIn where
  address : Word
  satp : Word
  isInstruction : Bool
  tlbFlush : Bool
  valid : Bool
  memReady : Bool
  memRdata : Word

namespace TableWalk

variable {iw dw : ℕ}

/-- `tlb_hit[is_itlb]`: index 0 is the instruction TLB. -/
def tlbHit (w : TableWalk iw dw) (satp address : Word) (isInstruction : Bool) : Bool :=
  if isInstruction then w.itlb.hit (tlbTag satp address) else w.dtlb.hit (tlbTag satp address)

/-- `tlb_pte_o[is_itlb]`. -/
def tlbPte (w : TableWalk iw dw) (satp address : Word) (isInstruction : Bool) : Word :=
  if isInstruction then w.itlb.payload (tlbTag satp address)
  else w.dtlb.payload (tlbTag satp address)

/-- `walk_mem_valid`. -/
def memValid (w : TableWalk iw dw) (satp address : Word) (isInstruction : Bool) : Bool :=
  match w.state with
  | .s0 => false
  | .s1 => !w.tlbHit satp address isInstruction
  | .s2 => true

/-- `walk_mem_addr`. -/
def memAddr (w : TableWalk iw dw) (address : Word) : Word :=
  walkMemAddr w.base address w.level

/-- Whether `S2` ends in a leaf in this cycle, which writes the TLB. -/
def fillsTlb (w : TableWalk iw dw) (i : WalkIn) : Bool :=
  w.state == .s2 && i.memReady && pteV i.memRdata && !pteIsPointer i.memRdata

/-- `tlb_pte_i`. -/
def tlbPteI (w : TableWalk iw dw) (i : WalkIn) : Word :=
  if w.fillsTlb i then leafPte w.level i.address i.memRdata else 0#32

/-- `tlb_valid[j]` for the TLB that the request uses. -/
def tlbValid (w : TableWalk iw dw) (i : WalkIn) : Bool := w.state == .s1 || w.fillsTlb i

/-- `pte_nxt`. -/
def pteNxt (w : TableWalk iw dw) (i : WalkIn) : Word :=
  match w.state with
  | .s0 => if !satpModeOf i.satp && i.valid && !w.ready then barePte i.address else w.pte
  | .s1 =>
    if w.tlbHit i.satp i.address i.isInstruction then
      w.tlbPte i.satp i.address i.isInstruction
    else w.pte
  | .s2 =>
    if i.memReady then
      if !pteV i.memRdata then 0#32
      else if pteIsPointer i.memRdata then i.memRdata
      else leafPte w.level i.address i.memRdata
    else i.memRdata

/-- `ready_nxt`. -/
def readyNxt (w : TableWalk iw dw) (i : WalkIn) : Bool :=
  match w.state with
  | .s0 => !satpModeOf i.satp && i.valid && !w.ready
  | .s1 => if w.tlbHit i.satp i.address i.isInstruction then true else w.ready
  | .s2 =>
    if i.memReady then !(pteV i.memRdata && pteIsPointer i.memRdata) else w.ready

/-- `level_nxt`. -/
def levelNxt (w : TableWalk iw dw) (i : WalkIn) : BitVec 2 :=
  match w.state with
  | .s0 => if !satpModeOf i.satp && i.valid && !w.ready then w.level else 1#2
  | .s1 => w.level
  | .s2 =>
    if i.memReady && pteV i.memRdata then
      (if pteIsPointer i.memRdata then w.level - 1#2 else 1#2)
    else w.level

/-- `base_nxt`. -/
def baseNxt (w : TableWalk iw dw) (i : WalkIn) : Word :=
  match w.state with
  | .s0 => satpBase i.satp
  | .s1 => w.base
  | .s2 =>
    if i.memReady && pteV i.memRdata && pteIsPointer i.memRdata then pointerBase i.memRdata
    else w.base

/-- `next_state`; `&level` is the all-ones level. -/
def stateNxt (w : TableWalk iw dw) (i : WalkIn) : WalkState :=
  match w.state with
  | .s0 => if satpModeOf i.satp && i.valid && !w.ready then .s1 else .s0
  | .s1 =>
    if w.tlbHit i.satp i.address i.isInstruction then .s0
    else if w.level = 3#2 then .s0 else .s2
  | .s2 => if !i.memReady then .s2 else if !w.readyNxt i then .s1 else .s0

/-- One clock edge of `sv32_table_walk`. -/
def next (w : TableWalk iw dw) (i : WalkIn) : TableWalk iw dw where
  state := w.stateNxt i
  pte := w.pteNxt i
  ready := w.readyNxt i
  level := w.levelNxt i
  base := w.baseNxt i
  itlb := w.itlb.next (!i.tlbFlush) (tlbTag i.satp i.address)
    (w.fillsTlb i && i.isInstruction) (w.tlbValid i && i.isInstruction) (w.tlbPteI i)
  dtlb := w.dtlb.next (!i.tlbFlush) (tlbTag i.satp i.address)
    (w.fillsTlb i && !i.isInstruction) (w.tlbValid i && !i.isInstruction) (w.tlbPteI i)

/-- The registers after reset: both TLBs hold no valid entry. -/
def IsReset (w : TableWalk iw dw) : Prop :=
  w.state = .s0 ∧ w.pte = 0#32 ∧ w.ready = false ∧ w.level = 1#2 ∧ w.base = 0#32 ∧
    (∀ j k, (w.itlb.way j).v k = false) ∧ (∀ j k, (w.dtlb.way j).v k = false) ∧
    w.itlb.repl = (lruFourWay iw).reset ∧ w.dtlb.repl = (lruGeneralWay dw 3).reset

/-- Such registers with cleared tags and payloads. -/
def reset (iw dw : ℕ) : TableWalk iw dw where
  state := .s0
  pte := 0#32
  ready := false
  level := 1#2
  base := 0#32
  itlb := ⟨fun _ => ⟨fun _ => false, fun _ => 0, fun _ => 0⟩, (lruFourWay iw).reset⟩
  dtlb := ⟨fun _ => ⟨fun _ => false, fun _ => 0, fun _ => 0⟩, (lruGeneralWay dw 3).reset⟩

theorem reset_isReset (iw dw : ℕ) : (reset iw dw).IsReset := by
  simp [IsReset, reset]

/-! ## The TLBs over one clock edge -/

variable {w : TableWalk iw dw} {i : WalkIn}

theorem fillsTlb_of_ne_s2 (h : w.state ≠ .s2) : w.fillsTlb i = false := by
  simp [fillsTlb, h]

theorem fillsTlb_of_not_ready (h : i.memReady = false) : w.fillsTlb i = false := by
  simp [fillsTlb, h]

/-- An edge that fills no entry keeps every hit, or with a flush removes it. -/
theorem tlbHit_next (hf : w.fillsTlb i = false) (satp address : Word) (isInstruction : Bool) :
    (w.next i).tlbHit satp address isInstruction
      = (!i.tlbFlush && w.tlbHit satp address isInstruction) := by
  cases isInstruction with
  | true => exact AssociativeCache.hit_next_of_not_write _ (by simp [hf])
  | false => exact AssociativeCache.hit_next_of_not_write _ (by simp [hf])

/-- An edge that neither fills nor flushes keeps what the lookups return. -/
theorem tlbPte_next (hf : w.fillsTlb i = false) (hfl : i.tlbFlush = false) (satp address : Word)
    (isInstruction : Bool) :
    (w.next i).tlbPte satp address isInstruction = w.tlbPte satp address isInstruction := by
  cases isInstruction with
  | true =>
    apply AssociativeCache.payload_congr
    simp only [next, hfl]
    exact AssociativeCache.next_way_of_not_write (by simp [hf])
  | false =>
    apply AssociativeCache.payload_congr
    simp only [next, hfl]
    exact AssociativeCache.next_way_of_not_write (by simp [hf])

end TableWalk

end KianRiscV
