/-
# Sound TLBs

A TLB entry is sound when it is the result of a walk for its tag.  The tag has the ASID
but not the root of the page table, so soundness is relative to an assignment of roots to
ASIDs.  Every edge of the joint machine keeps the TLBs sound, and with sound TLBs a
request has the result of walking memory.
-/
import KianRiscV.Sv32Step

namespace KianRiscV

/-! ## What a walk depends on -/

/-- The root of the page table each ASID in use is used with, as a byte address. -/
abbrev Roots := BitVec 9 → Option Word

/-- The root of this `satp` is the one assigned to its ASID. -/
def Roots.Admits (roots : Roots) (satp : Word) : Prop :=
  roots (asidOf satp) = some (satpBase satp)

/-- The tables under the root of `satp` have the same entries in both memories. -/
def SameTables (rd rd' : BitVec 32 → Word) (satp : Word) : Prop :=
  ∀ address, pathPte1 rd' satp address = pathPte1 rd satp address ∧
    (pteLinks (pathPte1 rd satp address) = true →
      pathPte0 rd' satp address = pathPte0 rd satp address)

theorem SameTables.walkPte {rd rd' : BitVec 32 → Word} {satp : Word}
    (h : SameTables rd rd' satp) (address : Word) :
    walkPte rd' satp address = walkPte rd satp address := by
  obtain ⟨h1, h0⟩ := h address
  unfold KianRiscV.walkPte
  rw [h1]
  cases hl : pteLinks (pathPte1 rd satp address) with
  | false => rfl
  | true => rw [h0 hl]

theorem vpn_index_congr {address address' : Word} (hv : vpnOf address' = vpnOf address)
    (base : Word) (level : BitVec 2) :
    walkMemAddr base address' level = walkMemAddr base address level := by
  rw [walkMemAddr, walkMemAddr, hv]

/-- A walk depends on the root and the page number only. -/
theorem walkPte_congr (rd : BitVec 32 → Word) {satp satp' address address' : Word}
    (hb : satpBase satp' = satpBase satp) (hv : vpnOf address' = vpnOf address) :
    walkPte rd satp' address' = walkPte rd satp address := by
  have h1 : pathPte1 rd satp' address' = pathPte1 rd satp address := by
    rw [pathPte1, pathPte1, hb, vpn_index_congr hv]
  have h0 : pathPte0 rd satp' address' = pathPte0 rd satp address := by
    rw [pathPte0, pathPte0, h1, vpn_index_congr hv]
  have he : ∀ level pte, endPte level address' pte = endPte level address pte := by
    intro level pte
    rw [endPte, endPte, leafPte, leafPte, hv]
  rw [walkPte, walkPte, h1, h0, he, he]

/-- Equal tags mean equal ASIDs and page numbers. -/
theorem eq_of_tlbTag {satp satp' address address' : Word}
    (h : tlbTag satp' address' = tlbTag satp address) :
    asidOf satp' = asidOf satp ∧ vpnOf address' = vpnOf address := by
  have h' : (asidOf satp' ++ vpnOf address' : BitVec (9 + 20)) = asidOf satp ++ vpnOf address := h
  constructor
  · apply BitVec.eq_of_getLsbD_eq
    intro i hi
    have hb := congrArg (fun t : BitVec (9 + 20) => t.getLsbD (20 + i)) h'
    simpa only [BitVec.getLsbD_append, show ¬ 20 + i < 20 by omega, if_false,
      Nat.add_sub_cancel_left] using hb
  · apply BitVec.eq_of_getLsbD_eq
    intro i hi
    have hb := congrArg (fun t : BitVec (9 + 20) => t.getLsbD i) h'
    simpa only [BitVec.getLsbD_append, hi, if_true] using hb

/-! ## Soundness -/

/-- An entry is the result of the walk for every request with its tag and an admitted
root. -/
def EntryOk (roots : Roots) (rd : BitVec 32 → Word) (tag : BitVec 29) (pte : Word) : Prop :=
  ∀ satp address, tlbTag satp address = tag → roots.Admits satp →
    walkPte rd satp address = some pte

/-- Both TLBs are sound. -/
structure TlbsOk {iw dw : ℕ} (roots : Roots) (rd : BitVec 32 → Word) (w : TableWalk iw dw) :
    Prop where
  itlb : w.itlb.Sound (EntryOk roots rd)
  dtlb : w.dtlb.Sound (EntryOk roots rd)

/-- An entry that one address finds under one `satp` is the result of its walk. -/
def EntryFor (rd : BitVec 32 → Word) (satp address : Word) (tag : BitVec 29) (pte : Word) :
    Prop :=
  tag = tlbTag satp address → walkPte rd satp address = some pte

/-- Both TLBs are sound as far as one address under one `satp` can tell. -/
structure TlbsFor {iw dw : ℕ} (rd : BitVec 32 → Word) (satp address : Word)
    (w : TableWalk iw dw) : Prop where
  itlb : w.itlb.Sound (EntryFor rd satp address)
  dtlb : w.dtlb.Sound (EntryFor rd satp address)

/-- Both TLBs hold no valid entry. -/
def TlbsEmpty {iw dw : ℕ} (w : TableWalk iw dw) : Prop :=
  (∀ j k, (w.itlb.way j).v k = false) ∧ ∀ j k, (w.dtlb.way j).v k = false

section

variable {iw dw : ℕ} {roots : Roots} {rd : BitVec 32 → Word} {w : TableWalk iw dw}

theorem TlbsEmpty.tlbHit (h : TlbsEmpty w) (satp address : Word) (isInstruction : Bool) :
    w.tlbHit satp address isInstruction = false := by
  unfold TableWalk.tlbHit
  cases isInstruction with
  | true =>
    apply AssociativeCache.hit_eq_false_iff.2
    intro j
    simp [AssociativeCache.wayHit, TagRam.hit, h.1]
  | false =>
    apply AssociativeCache.hit_eq_false_iff.2
    intro j
    simp [AssociativeCache.wayHit, TagRam.hit, h.2]

/-- A flush leaves no valid entry. -/
theorem tlbsEmpty_of_flush {i : WalkIn} (h : i.tlbFlush = true) : TlbsEmpty (w.next i) := by
  constructor <;> intro j k <;>
    simp [TableWalk.next, AssociativeCache.next, TagRam.next, h]

/-- Without a fill, empty TLBs stay empty. -/
theorem TlbsEmpty.next (h : TlbsEmpty w) {i : WalkIn} (hf : w.fillsTlb i = false) :
    TlbsEmpty (w.next i) := by
  constructor
  · intro j k
    simp only [TableWalk.next, AssociativeCache.next, TagRam.next, hf]
    cases i.tlbFlush <;> simp [h.1]
  · intro j k
    simp only [TableWalk.next, AssociativeCache.next, TagRam.next, hf]
    cases i.tlbFlush <;> simp [h.2]

/-! ### One address -/

variable {satp address : Word}

theorem TlbsEmpty.tlbsFor (h : TlbsEmpty w) : TlbsFor rd satp address w := by
  constructor
  · intro tag j hj
    simp [AssociativeCache.wayHit, TagRam.hit, h.1] at hj
  · intro tag j hj
    simp [AssociativeCache.wayHit, TagRam.hit, h.2] at hj

/-- The memory matters only through the walk of the address. -/
theorem TlbsFor.mono {rd' : BitVec 32 → Word} (h : TlbsFor rd satp address w)
    (hw : walkPte rd' satp address = walkPte rd satp address) : TlbsFor rd' satp address w := by
  have he : ∀ tag pte, EntryFor rd satp address tag pte → EntryFor rd' satp address tag pte := by
    intro tag pte hok htag
    rw [hw]
    exact hok htag
  exact ⟨h.itlb.mono he, h.dtlb.mono he⟩

/-- An edge of the walker whose fill, if any, is right for the address. -/
theorem TlbsFor.next (h : TlbsFor rd satp address w) (i : WalkIn)
    (hfill : w.fillsTlb i = true →
      EntryFor rd satp address (tlbTag i.satp i.address) (w.tlbPteI i)) :
    TlbsFor rd satp address (w.next i) := by
  constructor
  · refine h.itlb.next _ fun hw => hfill ?_
    simp only [Bool.and_eq_true] at hw
    exact hw.1.1
  · refine h.dtlb.next _ fun hw => hfill ?_
    simp only [Bool.and_eq_true] at hw
    exact hw.1.1

/-- The entry of the address is that of its walk. -/
theorem TlbsFor.mmuPte (h : TlbsFor rd satp address w) (hmode : satpModeOf satp = true)
    (isInstruction : Bool) :
    mmuPte w rd satp address isInstruction = walkPte rd satp address := by
  unfold KianRiscV.mmuPte
  rw [hmode]
  cases hh : w.tlbHit satp address isInstruction with
  | false => rfl
  | true =>
    cases isInstruction with
    | true => exact (h.itlb.payload hh rfl).symm
    | false => exact (h.dtlb.payload hh rfl).symm

/-- A request for the address has the result of its walk. -/
theorem TlbsFor.outcome {r : CpuReq}
    (h : satpModeOf r.satp = true → TlbsFor rd r.satp r.addr w) :
    r.outcome w rd = r.walkOutcome rd := by
  unfold CpuReq.outcome CpuReq.walkOutcome
  cases hmode : satpModeOf r.satp with
  | false => rw [KianRiscV.mmuPte, hmode]; rfl
  | true => rw [(h hmode).mmuPte hmode]; rfl

/-! ### All addresses -/

theorem tlbsOk_iff :
    TlbsOk roots rd w ↔
      ∀ satp address, roots.Admits satp → TlbsFor rd satp address w := by
  constructor
  · intro h satp address hadm
    exact ⟨h.itlb.mono fun tag pte hok htag => hok satp address htag.symm hadm,
      h.dtlb.mono fun tag pte hok htag => hok satp address htag.symm hadm⟩
  · intro h
    constructor
    · intro tag j hj satp address htag hadm
      exact (h satp address hadm).itlb tag j hj htag.symm
    · intro tag j hj satp address htag hadm
      exact (h satp address hadm).dtlb tag j hj htag.symm

theorem TlbsEmpty.ok (h : TlbsEmpty w) : TlbsOk roots rd w :=
  tlbsOk_iff.2 fun _ _ _ => h.tlbsFor

/-- Soundness for another memory with the same tables. -/
theorem TlbsOk.mono {rd' : BitVec 32 → Word} (h : TlbsOk roots rd w)
    (ht : ∀ satp, roots.Admits satp → SameTables rd rd' satp) : TlbsOk roots rd' w :=
  tlbsOk_iff.2 fun satp address hadm =>
    (tlbsOk_iff.1 h satp address hadm).mono ((ht satp hadm).walkPte address)

/-- With sound TLBs a request has the result of its walk. -/
theorem TlbsOk.outcome (h : TlbsOk roots rd w) {r : CpuReq}
    (hadm : satpModeOf r.satp = true → roots.Admits r.satp) :
    r.outcome w rd = r.walkOutcome rd :=
  TlbsFor.outcome fun hmode => tlbsOk_iff.1 h r.satp r.addr (hadm hmode)

end

/-! ## Soundness over an edge of `sv32` -/

namespace Sv32

variable {iw dw : ℕ} {af : Bool} {rd : BitVec 32 → Word} {held : Option BusReq}
  {m : Sv32 iw dw} {r : CpuReq} {roots : Roots}

/-- An entry is written only by the answer to a read, and is then the result of the
walk. -/
theorem Phase.fill {flush rdy : Bool} {rdata : Word} (h : m.Phase af rd held r)
    (hrd : rdy = true → m.state = .translate →
      rdata = rd (wordAddr m.busReq.addr) ∨ (af = true ∧ rdata = 0#32))
    (hfill : m.ptw.fillsTlb (m.walkIn flush rdy rdata) = true) :
    m.walkIn flush rdy rdata =
        { address := r.addr, satp := r.satp, isInstruction := r.isInstruction, tlbFlush := flush
          valid := true, memReady := rdy, memRdata := rdata } ∧
      r.valid = true ∧ satpModeOf r.satp = true ∧
      walkPte rd r.satp r.addr = some (m.ptw.tlbPteI (m.walkIn flush rdy rdata)) := by
  have hs2 : m.ptw.state = .s2 := by
    by_contra hne
    rw [TableWalk.fillsTlb_of_ne_s2 hne] at hfill
    exact absurd hfill (by decide)
  have h := h.read_of_s2 hs2
  have hw := h.toTranslating.walkIn flush rdy rdata
  have hv : m.sel.walkValid r.machine true = true := by
    simp [Translator.walkValid, h.sel.state, h.sel.ready, h.machine]
  rw [hv] at hw
  refine ⟨hw, h.reqValid, h.mode, ?_⟩
  have hpte : m.ptw.tlbPteI (m.walkIn flush rdy rdata) = leafPte m.ptw.level r.addr rdata := by
    rw [TableWalk.tlbPteI, hfill, hw]
    rfl
  rw [hw] at hfill
  simp only [TableWalk.fillsTlb, Bool.and_eq_true, Bool.not_eq_true'] at hfill
  obtain ⟨⟨⟨-, hready⟩, hvalid⟩, hptr⟩ := hfill
  -- an access fault returns zero, which is not a valid entry
  rcases hrd hready h.state with hword | ⟨-, hzero⟩
  · have hc : rdata = currentPte rd m r := by rw [hword, h.busReq]; rfl
    have hend : pteLinks (currentPte rd m r) = false := by
      rw [← hc, pteLinks, hptr, Bool.and_false]
    have hleaf : ∀ level, endPte level r.addr (currentPte rd m r)
        = leafPte level r.addr rdata := by
      intro level
      rw [endPte, ← hc, hvalid]
      rfl
    rw [hpte]
    rcases h.currentPte_cases with ⟨hl, -, hwalk⟩ | ⟨hl, -, -, hwalk⟩
    · rw [hwalk hend, hleaf, hl]
    · rw [hwalk hend, hleaf, hl]
  · rw [hzero] at hvalid
    exact absurd hvalid (by decide)

/-- Every edge keeps the TLBs sound for one address, if requests with its tag walk from its
root. -/
theorem Phase.tlbsFor_next {satp address : Word} {flush rdy : Bool} {rdata : Word}
    (h : m.Phase af rd held r)
    (hrd : rdy = true → m.state = .translate →
      rdata = rd (wordAddr m.busReq.addr) ∨ (af = true ∧ rdata = 0#32))
    (hroot : r.valid = true → satpModeOf r.satp = true →
      tlbTag r.satp r.addr = tlbTag satp address → satpBase r.satp = satpBase satp)
    (htlb : TlbsFor rd satp address m.ptw) :
    TlbsFor rd satp address (m.next r flush rdy rdata).ptw := by
  apply htlb.next _
  intro hfill
  obtain ⟨hw, hv, hmode, hwalk⟩ := h.fill hrd hfill
  intro htag
  rw [hw] at htag
  rw [← walkPte_congr rd (hroot hv hmode htag) (eq_of_tlbTag htag).2]
  exact hwalk

/-- **Every edge keeps the TLBs sound.** -/
theorem Phase.tlbsOk_next {flush rdy : Bool} {rdata : Word} (h : m.Phase af rd held r)
    (hrd : rdy = true → m.state = .translate →
      rdata = rd (wordAddr m.busReq.addr) ∨ (af = true ∧ rdata = 0#32))
    (hadm : r.valid = true → satpModeOf r.satp = true → roots.Admits r.satp)
    (htlb : TlbsOk roots rd m.ptw) : TlbsOk roots rd (m.next r flush rdy rdata).ptw := by
  apply tlbsOk_iff.2
  intro satp address hadm'
  refine h.tlbsFor_next hrd (fun hv hmode htag => ?_) (tlbsOk_iff.1 htlb satp address hadm')
  have hroot := hadm hv hmode
  rw [Roots.Admits, (eq_of_tlbTag htag).1] at hroot
  exact Option.some.inj (hroot.symm.trans hadm')

end Sv32

end KianRiscV
