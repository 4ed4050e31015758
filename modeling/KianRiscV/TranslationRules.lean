/-
# Privilege, bare mode and malformed leaves

Three rules of the privileged architecture, compared with `sv32` on whole runs.

* Under `MPRV` the permissions are those of mode `MPP`: the data translator finds out in `S0`
  whether to translate at all, but its check in `S1` looks at the mode of the processor.
* With translation off every access goes to its own address: the entry that the walker makes up
  has no `U` bit.
* A leaf that is writable and not readable, or a 4 MiB leaf off its alignment, faults: the first
  test comes after `MXR` has set `R`, the second is not there.

Each result is first one about the entry in which the walk ends, then one about the run, by
`hasResult_iff`.
-/
import KianRiscV.Sv32Spec

namespace KianRiscV

/-! ## The entry in which a walk ends -/

/-- The level and the entry in which the walk for an address ends; `none` when a valid pointer
stands at level 0. -/
def endEntry (rd : BitVec 32 → Word) (satp address : Word) : Option (BitVec 2 × Word) :=
  if pteLinks (pathPte1 rd satp address) then
    if pteLinks (pathPte0 rd satp address) then none
    else some (0#2, pathPte0 rd satp address)
  else some (1#2, pathPte1 rd satp address)

theorem walkPte_eq_map (rd : BitVec 32 → Word) (satp address : Word) :
    walkPte rd satp address
      = (endEntry rd satp address).map fun e => endPte e.1 address e.2 := by
  unfold walkPte endEntry
  split
  · split <;> rfl
  · rfl

/-- The result of a translated request, by the entry in which its walk ends. -/
theorem walkOutcome_eq_map {rd : BitVec 32 → Word} {r : CpuReq} (hm : r.machine = false)
    (hmode : satpModeOf r.satp = true) :
    r.walkOutcome rd
      = (endEntry rd r.satp r.addr).map fun e => r.check (endPte e.1 r.addr e.2) := by
  rw [CpuReq.walkOutcome, CpuReq.outcomeOf, hm, hmode, walkPte_eq_map]
  simp only [Bool.not_true, Bool.false_eq_true, if_false, Option.map_map]
  rfl

theorem check_eq_pageFault_iff (r : CpuReq) (pte : Word) :
    r.check pte = .pageFault ↔ r.faults pte = true := by
  unfold CpuReq.check
  cases r.faults pte <;> simp

/-! ## Data accesses under `MPRV` -/

namespace CpuReq

/-- The same access made directly in mode `MPP`, with `MPRV` clear. -/
def direct (r : CpuReq) : CpuReq :=
  { r with
    privilegeMode := mppOf r.mstatus
    mstatus := r.mstatus &&& ~~~(1#32 <<< 17) }

/-- The leaf allows this kind of data access, whoever makes it. -/
def allowsKind (r : CpuReq) (pte : Word) : Bool :=
  let readable := pteR pte || (bitOf r.mstatus 19 && pteX pte)
  readable && (r.wstrb == 0#4 || pteW pte)

theorem bitOf_direct (r : CpuReq) {k : ℕ} (hk : k < 32) :
    bitOf r.direct.mstatus k = (bitOf r.mstatus k && decide (k ≠ 17)) := by
  have h : ∀ k < 32, (~~~(1#32 <<< 17) : Word).getLsbD k = decide (k ≠ 17) := by decide
  unfold bitOf direct
  rw [BitVec.getLsbD_and, h k hk]

end CpuReq

/-- The condition under which the check of the data translator does not need the effective mode:
`MPP` is user mode, or the walk ends in no leaf that allows the access, or the leaf is a user page
and `SUM` is set. -/
def MprvAgrees (rd : BitVec 32 → Word) (r : CpuReq) : Prop :=
  mppOf r.mstatus = 0#2 ∨
    ∀ e, endEntry rd r.satp r.addr = some e → pteV e.2 = true → r.allowsKind e.2 = true →
      pteU e.2 = true ∧ bitOf r.mstatus 18 = true

section Mprv

variable {r : CpuReq}

/-- The check of a data access made outside supervisor mode: the leaf must allow the access and
be a user page. -/
theorem faults_of_not_supervisor (hdata : r.isInstruction = false)
    (hs : isSupervisor r.privilegeMode = false) (level : BitVec 2) (address pte : Word) :
    r.faults (leafPte level address pte) = !(r.allowsKind pte && pteU pte) := by
  obtain ⟨hR, hW, hU⟩ := mxrPte_leafPte_flags r.mstatus pte address level
  simp only [CpuReq.faults, hdata, dataPageFault, pteReserved, hR, hW, hU, hs, CpuReq.allowsKind,
    bne, Bool.false_eq_true, if_false]
  generalize (pteR pte || (bitOf r.mstatus 19 && pteX pte)) = R
  generalize pteW pte = W
  generalize pteU pte = U
  generalize (r.wstrb == 0#4) = load
  revert R W U load
  decide

/-- From supervisor mode a user page needs `SUM`. -/
theorem faults_of_supervisor (hdata : r.isInstruction = false)
    (hs : isSupervisor r.privilegeMode = true) (level : BitVec 2) (address pte : Word) :
    r.faults (leafPte level address pte)
      = !(r.allowsKind pte && (!pteU pte || bitOf r.mstatus 18)) := by
  obtain ⟨hR, hW, hU⟩ := mxrPte_leafPte_flags r.mstatus pte address level
  simp only [CpuReq.faults, hdata, dataPageFault, pteReserved, hR, hW, hU, hs, CpuReq.allowsKind,
    bne, Bool.false_eq_true, if_false, if_true]
  generalize (pteR pte || (bitOf r.mstatus 19 && pteX pte)) = R
  generalize pteW pte = W
  generalize pteU pte = U
  generalize bitOf r.mstatus 18 = sum
  generalize (r.wstrb == 0#4) = load
  revert R W U sum load
  decide

theorem allowsKind_direct (pte : Word) : r.direct.allowsKind pte = r.allowsKind pte := by
  have hw : r.direct.wstrb = r.wstrb := rfl
  simp only [CpuReq.allowsKind, r.bitOf_direct (show 19 < 32 by decide), hw]
  simp

/-- Where neither check faults, both accesses go to the same address. -/
theorem check_eq_direct_iff (pte : Word) :
    r.check pte = r.direct.check pte ↔ r.faults pte = r.direct.faults pte := by
  have haddr : physicalOf (r.direct.seenPte pte) r.direct.addr
      = physicalOf (r.seenPte pte) r.addr := by
    rw [physicalOf_seenPte, physicalOf_seenPte]
    rfl
  unfold CpuReq.check
  rw [haddr]
  cases r.faults pte <;> cases r.direct.faults pte <;> simp

/-- The two checks of the entry in which the walk ends. -/
theorem check_end_eq_direct_iff (hdata : r.isInstruction = false) (hpriv : r.privilegeMode = 3#2)
    (hmpp : mppOf r.mstatus = 0#2 ∨ mppOf r.mstatus = 1#2) (level : BitVec 2) (pte : Word) :
    r.check (endPte level r.addr pte) = r.direct.check (endPte level r.addr pte) ↔
      mppOf r.mstatus = 0#2 ∨ (pteV pte = true → r.allowsKind pte = true →
        pteU pte = true ∧ bitOf r.mstatus 18 = true) := by
  rw [check_eq_direct_iff]
  unfold endPte
  cases hv : pteV pte with
  | false => simp [CpuReq.faults_zero]
  | true =>
    have hdata' : r.direct.isInstruction = false := hdata
    have hraw : isSupervisor r.privilegeMode = false := by rw [hpriv]; rfl
    rw [if_pos rfl, faults_of_not_supervisor hdata hraw]
    rcases hmpp with hU | hS
    · have hdir : isSupervisor r.direct.privilegeMode = false := by
        show isSupervisor (mppOf r.mstatus) = false
        rw [hU]
        rfl
      rw [faults_of_not_supervisor hdata' hdir, allowsKind_direct]
      simp [hU]
    · have hdir : isSupervisor r.direct.privilegeMode = true := by
        show isSupervisor (mppOf r.mstatus) = true
        rw [hS]
        rfl
      rw [faults_of_supervisor hdata' hdir, allowsKind_direct,
        r.bitOf_direct (show 18 < 32 by decide), hS]
      cases r.allowsKind pte <;> cases pteU pte <;> cases bitOf r.mstatus 18 <;> simp

end Mprv

namespace MmuSys

variable {iw dw : ℕ} {s : MmuSys iw dw} {r : CpuReq} {answer : ℕ → Bool}

/-- **Accesses under `MPRV`.**  From rest, with TLBs that are sound for the address, a data access
made in machine mode with `MPRV` set has the result of the same access made in mode `MPP` exactly
when the check does not need the effective mode. -/
theorem mprv_same_result_iff (hrest : s.mmu.AtRest) (hheld : s.mem.held = none)
    (htlb : TlbsFor s.mem.content r.satp r.addr s.mmu.ptw) (hv : r.valid = true)
    (hans : ∀ n, ∃ m, n ≤ m ∧ answer m = true) (hmode : satpModeOf r.satp = true)
    (hdata : r.isInstruction = false) (hpriv : r.privilegeMode = 3#2)
    (hmprv : bitOf r.mstatus 17 = true)
    (hmpp : mppOf r.mstatus = 0#2 ∨ mppOf r.mstatus = 1#2) :
    (∀ o, HasResult s r answer o ↔ HasResult s r.direct answer o) ↔
      MprvAgrees s.mem.content r := by
  have hnm : isMachine (mppOf r.mstatus) = false := by
    rcases hmpp with h | h <;> rw [h] <;> rfl
  have hm : r.machine = false := by
    rw [CpuReq.machine, hdata, effectivePriv, hmprv]
    exact hnm
  have hclear : bitOf r.direct.mstatus 17 = false := by
    rw [r.bitOf_direct (by decide)]
    simp
  have hm' : r.direct.machine = false := by
    have hdata' : r.direct.isInstruction = false := hdata
    rw [CpuReq.machine, hdata', effectivePriv, hclear]
    exact hnm
  -- the runs have the same results iff the walks have the same outcome
  have hruns : (∀ o, HasResult s r answer o ↔ HasResult s r.direct answer o) ↔
      r.walkOutcome s.mem.content = r.direct.walkOutcome s.mem.content := by
    rw [Option.ext_iff]
    apply forall_congr'
    intro o
    have hdir : satpModeOf r.direct.satp = true →
      TlbsFor s.mem.content r.direct.satp r.direct.addr s.mmu.ptw := fun _ => htlb
    rw [hasResult_iff hrest hheld (fun _ => htlb) hv hans,
      hasResult_iff hrest hheld hdir hv hans]
  have hmode' : satpModeOf r.direct.satp = true := hmode
  rw [hruns, walkOutcome_eq_map hm hmode, walkOutcome_eq_map hm' hmode']
  show (endEntry s.mem.content r.satp r.addr).map _ = (endEntry s.mem.content r.satp r.addr).map _
    ↔ _
  unfold MprvAgrees
  cases endEntry s.mem.content r.satp r.addr with
  | none => simp
  | some e =>
    simp only [Option.map_some, Option.some.injEq, forall_eq']
    exact check_end_eq_direct_iff hdata hpriv hmpp e.1 e.2

/-- At rest after reset, with the given memory. -/
def fresh (rd : BitVec 32 → Word) : MmuSys 4 3 := ⟨Sv32.reset 4 3, ⟨rd, none⟩⟩

theorem fresh_atRest (rd : BitVec 32 → Word) : (fresh rd).mmu.AtRest :=
  ⟨rfl, ⟨rfl, rfl, rfl⟩, ⟨rfl, rfl, rfl⟩, rfl, rfl, rfl, rfl, rfl, rfl⟩

theorem fresh_tlbsFor (rd : BitVec 32 → Word) (satp address : Word) :
    TlbsFor rd satp address (fresh rd).mmu.ptw :=
  TlbsEmpty.tlbsFor ⟨fun _ _ => rfl, fun _ _ => rfl⟩

/-- With a memory that answers at once, the result of a request after reset is that of its
walk. -/
theorem fresh_hasResult {rd : BitVec 32 → Word} {r : CpuReq} (hv : r.valid = true) {o : Outcome}
    (ho : r.walkOutcome rd = some o) : HasResult (fresh rd) r (fun _ => true) o :=
  (hasResult_iff (fresh_atRest rd) rfl (fun _ => fresh_tlbsFor rd r.satp r.addr) hv
    (fun n => ⟨n, le_rfl, rfl⟩) o).2 ho

theorem not_hasResult_fresh {rd : BitVec 32 → Word} {r : CpuReq} (hv : r.valid = true)
    {o : Outcome} (ho : r.walkOutcome rd ≠ some o) :
    ¬ HasResult (fresh rd) r (fun _ => true) o := fun h =>
  ho ((hasResult_iff (fresh_atRest rd) rfl (fun _ => fresh_tlbsFor rd r.satp r.addr) hv
    (fun n => ⟨n, le_rfl, rfl⟩) o).1 h)

/-- `sampleLoad` from machine mode, with `MPRV` set and `MPP` supervisor mode. -/
def mprvLoad : CpuReq := { sampleLoad with privilegeMode := 3#2, mstatus := 0x00020800#32 }

/-- The page of `onePage` as a user page. -/
def userPage : BitVec 32 → Word := fun a =>
  if a = 0x401#32 then 0x00000801#32 else if a = 0x801#32 then 0x00048C1F#32 else 0#32

/-- A user page with `SUM` set. -/
theorem mprv_same_result_iff_userPage :
    HasResult (fresh userPage) { mprvLoad with mstatus := 0x00060800#32 } (fun _ => true)
      (.physical 0x123ABC#34) := by
  have hend : endEntry userPage mprvLoad.satp mprvLoad.addr = some (0#2, 0x00048C1F#32) := by
    decide
  refine ((mprv_same_result_iff (r := { mprvLoad with mstatus := 0x00060800#32 })
    (fresh_atRest userPage) rfl (fresh_tlbsFor userPage _ _) rfl (fun n => ⟨n, le_rfl, rfl⟩)
    (by decide) rfl rfl (by decide) (.inr (by decide))).2 (.inr ?_) _).2
    (fresh_hasResult rfl (by decide))
  intro e he _ _
  obtain rfl := Option.some.inj (hend.symm.trans he)
  decide

/-- A supervisor page: the load faults from machine mode under `MPRV` and goes through from
supervisor mode. -/
theorem mprv_load_faults :
    HasResult (fresh onePage) mprvLoad (fun _ => true) .pageFault ∧
      HasResult (fresh onePage) mprvLoad.direct (fun _ => true) (.physical 0x123ABC#34) ∧
      ¬ HasResult (fresh onePage) mprvLoad (fun _ => true) (.physical 0x123ABC#34) := by
  exact ⟨fresh_hasResult rfl (by decide), fresh_hasResult rfl (by decide),
    not_hasResult_fresh rfl (by decide)⟩

end MmuSys

/-! ## Bare mode -/

/-- The made-up entry: `V`, `R`, `W` and `X`, and the page of the address. -/
theorem barePte_getLsbD (address : Word) {k : ℕ} (hk : k < 32) :
    (barePte address).getLsbD k = (decide (k < 4) || (decide (12 ≤ k) && address.getLsbD k)) := by
  have hF : ∀ k < 32, (0xF#32 : Word).getLsbD k = decide (k < 4) := by decide
  simp only [barePte, BitVec.getLsbD_or, BitVec.getLsbD_shiftLeft, BitVec.getLsbD_ushiftRight,
    hF k hk, hk, decide_true, Bool.true_and]
  by_cases h12 : k < 12
  · simp [h12, show ¬ 12 ≤ k by omega]
  · simp [h12, show 12 ≤ k by omega, show 12 + (k - 12) = k by omega]

theorem physicalOf_barePte (address : Word) :
    physicalOf (barePte address) address = address.setWidth 34 := by
  apply BitVec.eq_of_getLsbD_eq
  intro k hk
  rw [physicalOf_getLsbD, BitVec.getLsbD_setWidth]
  by_cases h12 : k < 12
  · simp [h12, hk]
  by_cases h32 : k < 32
  · rw [if_neg h12, barePte_getLsbD _ h32]
    simp [hk, show ¬ k < 4 by omega, show 12 ≤ k by omega]
  · rw [if_neg h12, BitVec.getLsbD_of_ge _ _ (by omega), BitVec.getLsbD_of_ge address _ (by omega)]
    simp

/-- Only supervisor mode passes the checks with it. -/
theorem faults_barePte (r : CpuReq) (address : Word) :
    r.faults (barePte address) = !isSupervisor r.privilegeMode := by
  have hR : pteR (barePte address) = true := by rw [pteR, barePte_getLsbD _ (by omega)]; rfl
  have hW : pteW (barePte address) = true := by rw [pteW, barePte_getLsbD _ (by omega)]; rfl
  have hX : pteX (barePte address) = true := by rw [pteX, barePte_getLsbD _ (by omega)]; rfl
  have hU : pteU (barePte address) = false := by rw [pteU, barePte_getLsbD _ (by omega)]; rfl
  have mR : pteR (mxrPte r.mstatus (barePte address)) = true := by
    rw [pteR, mxrPte_getLsbD, ← pteR, hR]
    rfl
  have mW : pteW (mxrPte r.mstatus (barePte address)) = true := by
    rw [pteW, mxrPte_getLsbD, ← pteW, hW]
    rfl
  have mU : pteU (mxrPte r.mstatus (barePte address)) = false := by
    rw [pteU, mxrPte_getLsbD, ← pteU, hU]
    rfl
  unfold CpuReq.faults instrPageFault dataPageFault pteReserved
  rw [mR, mW, mU, hR, hW, hX, hU]
  generalize bitOf r.mstatus 18 = sum
  generalize isSupervisor r.privilegeMode = sup
  generalize (r.wstrb != 0#4) = wr
  generalize r.isInstruction = fetch
  revert sum sup wr fetch
  decide

/-- The result of a request with translation off. -/
theorem walkOutcome_bare {r : CpuReq} (hmode : satpModeOf r.satp = false)
    (rd : BitVec 32 → Word) :
    r.walkOutcome rd = some (if r.machine || isSupervisor r.privilegeMode
      then .physical (r.addr.setWidth 34) else .pageFault) := by
  rw [CpuReq.walkOutcome, CpuReq.outcomeOf, hmode]
  cases r.machine with
  | true => rfl
  | false =>
    simp only [Bool.not_false, if_true, Option.map_some, CpuReq.check, faults_barePte,
      physicalOf_seenPte, physicalOf_barePte, Bool.false_or, Bool.false_eq_true, if_false]
    cases isSupervisor r.privilegeMode <;> rfl

namespace MmuSys

variable {iw dw : ℕ} {s : MmuSys iw dw} {r : CpuReq} {answer : ℕ → Bool}

/-- **Bare mode.**  With translation off, an access goes to its own address exactly when it is
made in machine mode (after `MPRV` for data) or by a processor in supervisor mode; every other
access ends in a page fault. -/
theorem bare_identity_iff (hrest : s.mmu.AtRest) (hheld : s.mem.held = none)
    (hv : r.valid = true) (hans : ∀ n, ∃ m, n ≤ m ∧ answer m = true)
    (hmode : satpModeOf r.satp = false) :
    HasResult s r answer (.physical (r.addr.setWidth 34)) ↔
      r.machine = true ∨ r.privilegeMode = 1#2 := by
  have htlb : satpModeOf r.satp = true → TlbsFor s.mem.content r.satp r.addr s.mmu.ptw := by
    intro h
    rw [hmode] at h
    cases h
  rw [hasResult_iff hrest hheld htlb hv hans, walkOutcome_bare hmode]
  have hs : isSupervisor r.privilegeMode = true ↔ r.privilegeMode = 1#2 := by
    simp [isSupervisor]
  rw [← hs]
  cases r.machine <;> cases isSupervisor r.privilegeMode <;> simp

/-- A load from supervisor mode with translation off. -/
theorem bare_identity_iff_supervisor :
    HasResult (fresh onePage) { sampleLoad with satp := 0#32 } (fun _ => true)
      (.physical 0x00401ABC#34) :=
  (bare_identity_iff (r := { sampleLoad with satp := 0#32 }) (fresh_atRest onePage) rfl rfl
    (fun n => ⟨n, le_rfl, rfl⟩) (by decide)).2 (.inr rfl)

/-- A load from user mode with translation off. -/
theorem bare_user_load_faults :
    HasResult (fresh onePage) { sampleLoad with satp := 0#32, privilegeMode := 0#2 }
        (fun _ => true) .pageFault ∧
      ¬ HasResult (fresh onePage) { sampleLoad with satp := 0#32, privilegeMode := 0#2 }
        (fun _ => true) (.physical 0x00401ABC#34) := by
  exact ⟨fresh_hasResult rfl (by decide), not_hasResult_fresh rfl (by decide)⟩

end MmuSys

/-! ## Malformed leaves -/

/-- Writable and not readable, or a 4 MiB leaf whose page number is not aligned. -/
def MalformedLeaf (level : BitVec 2) (pte : Word) : Prop :=
  pteV pte = true ∧ pteIsPointer pte = false ∧
    ((pteR pte = false ∧ pteW pte = true) ∨
      (level = 1#2 ∧ (ppnOf pte).extractLsb' 0 10 ≠ 0#10))

namespace MmuSys

variable {iw dw : ℕ} {s : MmuSys iw dw} {r : CpuReq} {answer : ℕ → Bool}

/-- **Malformed leaves.**  A request whose walk ends in a malformed leaf, whether walked or found
in a TLB, faults exactly when it is translated at all and the
translator sees the reserved combination or the permissions deny the access anyway. -/
theorem malformed_leaf_faults_iff (hrest : s.mmu.AtRest) (hheld : s.mem.held = none)
    (htlb : TlbsFor s.mem.content r.satp r.addr s.mmu.ptw) (hv : r.valid = true)
    (hans : ∀ n, ∃ m, n ≤ m ∧ answer m = true) (hmode : satpModeOf r.satp = true)
    {level : BitVec 2} {pte : Word}
    (hend : endEntry s.mem.content r.satp r.addr = some (level, pte))
    (hbad : MalformedLeaf level pte) :
    HasResult s r answer .pageFault ↔
      r.machine = false ∧ (seenReserved r pte = true ∨ permits r pte = false) := by
  rw [hasResult_iff hrest hheld (fun _ => htlb) hv hans]
  cases hm : r.machine with
  | true =>
    rw [CpuReq.walkOutcome, CpuReq.outcomeOf, hm]
    simp
  | false =>
    have hcheck : r.check (endPte level r.addr pte) = .pageFault ↔
        (seenReserved r pte || !permits r pte) = true := by
      rw [endPte, hbad.1, if_pos rfl, check_eq_pageFault_iff, faults_leafPte_eq]
    rw [walkOutcome_eq_map hm hmode, hend]
    simp only [Option.map_some, Option.some.injEq, hcheck]
    simp

/-- The page of `onePage` with the given entry. -/
def pageWith (pte : Word) : BitVec 32 → Word := fun a =>
  if a = 0x401#32 then 0x00000801#32 else if a = 0x801#32 then pte else 0#32

/-- A page that is writable and neither readable nor executable. -/
theorem malformed_leaf_faults_iff_writable :
    HasResult (fresh (pageWith 0x00048C05#32)) sampleLoad (fun _ => true) .pageFault :=
  (malformed_leaf_faults_iff (r := sampleLoad) (fresh_atRest _) rfl (fresh_tlbsFor _ _ _) rfl
    (fun n => ⟨n, le_rfl, rfl⟩) (by decide)
    (show endEntry (pageWith 0x00048C05#32) _ _ = some (0#2, 0x00048C05#32) by decide)
    ⟨by decide, by decide, .inl (by decide)⟩).2 ⟨by decide, .inl (by decide)⟩

/-- A load under `MXR` from a page that is writable and executable but not readable, and a load
through a 4 MiB leaf off its alignment: both go through. -/
theorem malformed_leaf_loads :
    (MalformedLeaf 0#2 0x00048C0D#32 ∧
      endEntry (pageWith 0x00048C0D#32) sampleLoad.satp sampleLoad.addr
        = some (0#2, 0x00048C0D#32) ∧
      ¬ HasResult (fresh (pageWith 0x00048C0D#32)) { sampleLoad with mstatus := 0x00080000#32 }
        (fun _ => true) .pageFault) ∧
    (MalformedLeaf 1#2 0x00048C0F#32 ∧
      endEntry (fun _ => 0x00048C0F#32) sampleLoad.satp sampleLoad.addr
        = some (1#2, 0x00048C0F#32) ∧
      ¬ HasResult (fresh fun _ => 0x00048C0F#32) sampleLoad (fun _ => true) .pageFault) := by
  exact ⟨⟨⟨by decide, by decide, .inl (by decide)⟩, by decide,
      not_hasResult_fresh rfl (by decide)⟩,
    ⟨by decide, by decide, .inr (by decide)⟩, by decide, not_hasResult_fresh rfl (by decide)⟩

end MmuSys

end KianRiscV
