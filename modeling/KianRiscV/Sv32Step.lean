/-
# The edges between the phases

One lemma for every edge of the phase diagram

    idle → request → lookup ⇄ read → answered → check → done → access → idle
              ↑        │         ↘ lookup            │
              └────────┘ (all-ones level)            └→ idle (page fault)

with the shortcuts of machine mode (`request → done`), of bare mode (`request →
answered`) and of a TLB hit (`lookup → answered`); then the joint invariant `Phase` over
an arbitrary edge.
-/
import KianRiscV.Sv32Phase

namespace KianRiscV

/-- The request the memory has seen unanswered, for the next cycle. -/
def heldNext (q : BusReq) (rdy : Bool) : Option BusReq := if q.valid && !rdy then some q else none

namespace Sv32

variable {iw dw : ℕ} {af : Bool} {rd : BitVec 32 → Word} {held : Option BusReq}
  {m : Sv32 iw dw} {r : CpuReq}

/-! ## Request -/

theorem RequestPhase.walkValid (h : m.RequestPhase r) :
    m.sel.walkValid r.machine true = !r.machine := by
  simp [Translator.walkValid, h.sel.state, h.sel.ready]

/-- The bus is free. -/
theorem RequestPhase.busReq_valid (h : m.RequestPhase r) : m.busReq.valid = false := by
  rw [h.toTranslating.busReq h.sel.ready]
  simp [TableWalk.memValid, h.walk]

/-- Machine mode: the translator answers at once. -/
theorem RequestPhase.next_machine (h : m.RequestPhase r) (hm : r.machine = true) (flush : Bool)
    (rdata : Word) : (m.next r flush false rdata).DonePhase af rd none r := by
  obtain ⟨ht, hp⟩ := h.toTranslating.next flush false rdata h.sel.ready h.sel.pageFault
  have hsel := h.toLatched.sel_next flush false rdata
  rw [h.selValid, h.walkReady, hm] at hsel
  have hw := h.toTranslating.walkIn flush false rdata
  rw [h.walkValid, hm] at hw
  refine { ht with selState := ?_, selReady := ?_, walk := ?_, walkReady := ?_, pending := hp
                   held := rfl, result := .inl ?_ }
  · rw [hsel]; simp [Translator.next, h.sel.state]
  · rw [hsel]; simp [Translator.next, h.sel.state, h.sel.ready]
  · rw [next_ptw, hw]; simp [TableWalk.next, TableWalk.stateNxt, h.walk]
  · rw [next_ptw, hw]; simp [TableWalk.next, TableWalk.readyNxt, h.walk]
  · rw [hsel]
    simp [Translator.next, h.sel.state, h.sel.ready, CpuReq.outcome, CpuReq.outcomeOf, hm]

/-- Bare mode: the walker makes up the entry. -/
theorem RequestPhase.next_bare (h : m.RequestPhase r) (hm : r.machine = false)
    (hmode : satpModeOf r.satp = false) (flush : Bool) (rdata : Word) :
    (m.next r flush false rdata).AnsweredPhase af rd r := by
  obtain ⟨ht, -⟩ := h.toTranslating.next flush false rdata h.sel.ready h.sel.pageFault
  have hsel := h.toLatched.sel_next flush false rdata
  rw [h.selValid, h.walkReady] at hsel
  have hw := h.toTranslating.walkIn flush false rdata
  rw [h.walkValid, hm] at hw
  refine { ht with sel := ?_, walk := ?_, walkReady := ?_, machine := hm, pte := .inl ?_ }
  · rw [hsel]; exact h.sel.next_waiting hm true
  · rw [next_ptw, hw]; simp [TableWalk.next, TableWalk.stateNxt, h.walk, hmode]
  · rw [next_ptw, hw]; simp [TableWalk.next, TableWalk.readyNxt, h.walk, h.walkReady, hmode]
  · rw [next_ptw, hw]
    simp [mmuPte, hmode, TableWalk.next, TableWalk.pteNxt, h.walk, h.walkReady]

/-- Otherwise the walk starts in the root table. -/
theorem RequestPhase.next_lookup (h : m.RequestPhase r) (hm : r.machine = false)
    (hmode : satpModeOf r.satp = true) (flush : Bool) (rdata : Word) :
    (m.next r flush false rdata).LookupPhase rd none r ∧
      (m.next r flush false rdata).ptw.level = 1#2 := by
  obtain ⟨ht, -⟩ := h.toTranslating.next flush false rdata h.sel.ready h.sel.pageFault
  have hsel := h.toLatched.sel_next flush false rdata
  rw [h.selValid, h.walkReady] at hsel
  have hw := h.toTranslating.walkIn flush false rdata
  rw [h.walkValid, hm] at hw
  have hl : (m.next r flush false rdata).ptw.level = 1#2 := by
    rw [next_ptw, hw]; simp [TableWalk.next, TableWalk.levelNxt, h.walk, hmode]
  refine ⟨{ ht with sel := ?_, walk := ?_, walkReady := ?_, held := rfl, machine := hm
                    mode := hmode, path := .inl ⟨hl, ?_⟩ }, hl⟩
  · rw [hsel]; exact h.sel.next_waiting hm true
  · rw [next_ptw, hw]; simp [TableWalk.next, TableWalk.stateNxt, h.walk, h.walkReady, hmode]
  · rw [next_ptw, hw]; simp [TableWalk.next, TableWalk.readyNxt, h.walk, hmode]
  · rw [next_ptw, hw]; simp [TableWalk.next, TableWalk.baseNxt, h.walk]

/-! ## Lookup -/

theorem LookupPhase.busReq_valid (h : m.LookupPhase rd held r) :
    m.busReq.valid = !m.ptw.tlbHit r.satp r.addr r.isInstruction := by
  rw [h.toTranslating.busReq h.sel.ready]
  simp [TableWalk.memValid, h.walk]

theorem LookupPhase.fillsTlb (h : m.LookupPhase rd held r) (i : WalkIn) :
    m.ptw.fillsTlb i = false :=
  TableWalk.fillsTlb_of_ne_s2 (by simp [h.walk])

/-- A hit delivers the entry of the TLB. -/
theorem LookupPhase.next_hit (h : m.LookupPhase rd held r)
    (hh : m.ptw.tlbHit r.satp r.addr r.isInstruction = true) (rdata : Word) :
    (m.next r false false rdata).AnsweredPhase af rd r := by
  obtain ⟨ht, -⟩ := h.toTranslating.next false false rdata h.sel.ready h.sel.pageFault
  have hsel := h.toLatched.sel_next false false rdata
  rw [h.selValid, h.walkReady] at hsel
  have hw := h.toTranslating.walkIn false false rdata
  refine { ht with sel := ?_, walk := ?_, walkReady := ?_, machine := h.machine, pte := .inl ?_ }
  · rw [hsel]; exact h.sel.next_waiting h.machine true
  · rw [next_ptw, hw]; simp [TableWalk.next, TableWalk.stateNxt, h.walk, hh]
  · rw [next_ptw, hw]; simp [TableWalk.next, TableWalk.readyNxt, h.walk, hh]
  · rw [next_ptw, mmuPte_next (h.fillsTlb _) (by rw [hw])]
    rw [hw]
    simp [mmuPte, h.mode, hh, TableWalk.next, TableWalk.pteNxt, h.walk]

/-- The path does not move over an edge that keeps level, base and TLB. -/
theorem PathAt.next {w : TableWalk iw dw} {i : WalkIn} (h : PathAt rd w r)
    (hl : (w.next i).level = w.level) (hb : (w.next i).base = w.base)
    (hf : w.fillsTlb i = false) : PathAt rd (w.next i) r := by
  have hm : w.tlbHit r.satp r.addr r.isInstruction = false →
      (w.next i).tlbHit r.satp r.addr r.isInstruction = false := by
    intro hm
    rw [TableWalk.tlbHit_next hf, hm, Bool.and_false]
  rcases h with ⟨h1, h2⟩ | ⟨h1, h2, h3, h4⟩ | ⟨h1, h2, h3, h4⟩
  · exact .inl ⟨hl.trans h1, hb.trans h2⟩
  · exact .inr (.inl ⟨hl.trans h1, hm h2, h3, hb.trans h4⟩)
  · exact .inr (.inr ⟨hl.trans h1, hm h2, h3, h4⟩)

/-- A miss goes on to wait for the read. -/
theorem LookupPhase.next_read (h : m.LookupPhase rd held r)
    (hh : m.ptw.tlbHit r.satp r.addr r.isInstruction = false) (hl : m.ptw.level ≠ 3#2)
    (flush : Bool) (rdata : Word) :
    (m.next r flush false rdata).ReadPhase rd (some m.busReq) r ∧
      (m.next r flush false rdata).ptw.level = m.ptw.level := by
  obtain ⟨ht, -⟩ := h.toTranslating.next flush false rdata h.sel.ready h.sel.pageFault
  have hsel := h.toLatched.sel_next flush false rdata
  rw [h.selValid, h.walkReady] at hsel
  have hq : (m.next r flush false rdata).sel.Quiet := by
    rw [hsel]; exact h.sel.next_waiting h.machine true
  have hw := h.toTranslating.walkIn flush false rdata
  have hl' : (m.next r flush false rdata).ptw.level = m.ptw.level := by
    rw [next_ptw]; simp [TableWalk.next, TableWalk.levelNxt, h.walk]
  have hb' : (m.next r flush false rdata).ptw.base = m.ptw.base := by
    rw [next_ptw]; simp [TableWalk.next, TableWalk.baseNxt, h.walk]
  have hs' : (m.next r flush false rdata).ptw.state = .s2 := by
    rw [next_ptw, hw]; simp [TableWalk.next, TableWalk.stateNxt, h.walk, hh, hl]
  refine ⟨{ ht with sel := hq, walk := hs', walkReady := ?_, held := ?_, machine := h.machine
                    mode := h.mode, path := h.path.next hl' hb' (h.fillsTlb _)
                    level := by rw [hl']; exact hl, miss := ?_ }, hl'⟩
  · rw [next_ptw, hw]; simp [TableWalk.next, TableWalk.readyNxt, h.walk, h.walkReady, hh]
  · rw [h.toTranslating.busReq h.sel.ready, ht.busReq hq.ready]
    simp [TableWalk.memValid, h.walk, hs', hh, TableWalk.memAddr, hl', hb']
  · rw [next_ptw, TableWalk.tlbHit_next (h.fillsTlb _), hh, Bool.and_false]

/-- From the all-ones level the request starts over. -/
theorem LookupPhase.next_wrapped (h : m.LookupPhase rd held r)
    (hh : m.ptw.tlbHit r.satp r.addr r.isInstruction = false) (hl : m.ptw.level = 3#2)
    (flush : Bool) (rdata : Word) :
    (m.next r flush false rdata).RequestPhase r := by
  obtain ⟨ht, hp⟩ := h.toTranslating.next flush false rdata h.sel.ready h.sel.pageFault
  have hsel := h.toLatched.sel_next flush false rdata
  rw [h.selValid, h.walkReady] at hsel
  have hw := h.toTranslating.walkIn flush false rdata
  refine { ht with sel := ?_, walk := ?_, walkReady := ?_, pending := hp }
  · rw [hsel]; exact h.sel.next_waiting h.machine true
  · rw [next_ptw, hw]; simp [TableWalk.next, TableWalk.stateNxt, h.walk, hl]
  · rw [next_ptw, hw]; simp [TableWalk.next, TableWalk.readyNxt, h.walk, h.walkReady, hh]

/-! ## Read -/

/-- The entry the walker reads. -/
def currentPte (rd : BitVec 32 → Word) (m : Sv32 iw dw) (r : CpuReq) : Word :=
  pteWord rd (m.ptw.memAddr r.addr)

/-- The read on the bus is that of the current entry. -/
theorem ReadPhase.busReq (h : m.ReadPhase rd held r) :
    m.busReq = ⟨true, (m.ptw.memAddr r.addr).setWidth 34, 0, 0⟩ := by
  rw [h.toTranslating.busReq h.sel.ready]
  simp [TableWalk.memValid, h.walk]

/-- The current entry is the one of its level on the path, and what it ends in is the
result of the walk. -/
theorem ReadPhase.currentPte_cases (h : m.ReadPhase rd held r) :
    (m.ptw.level = 1#2 ∧ currentPte rd m r = pathPte1 rd r.satp r.addr ∧
        (pteLinks (currentPte rd m r) = false →
          walkPte rd r.satp r.addr = some (endPte 1#2 r.addr (currentPte rd m r)))) ∨
      (m.ptw.level = 0#2 ∧ pteLinks (pathPte1 rd r.satp r.addr) = true ∧
        currentPte rd m r = pathPte0 rd r.satp r.addr ∧
        (pteLinks (currentPte rd m r) = false →
          walkPte rd r.satp r.addr = some (endPte 0#2 r.addr (currentPte rd m r)))) := by
  rcases h.path with ⟨hl, hb⟩ | ⟨hl, -, hp, hb⟩ | ⟨hl, -⟩
  · have hc : currentPte rd m r = pathPte1 rd r.satp r.addr := by
      rw [currentPte, TableWalk.memAddr, hl, hb]; rfl
    refine .inl ⟨hl, hc, fun he => ?_⟩
    rw [hc] at he ⊢
    simp [walkPte, he]
  · have hc : currentPte rd m r = pathPte0 rd r.satp r.addr := by
      rw [currentPte, TableWalk.memAddr, hl, hb]; rfl
    refine .inr ⟨hl, hp, hc, fun he => ?_⟩
    rw [hc] at he ⊢
    simp [walkPte, he, hp]
  · exact absurd hl h.level

theorem ReadPhase.sel_next (h : m.ReadPhase rd held r) (flush rdy : Bool) (rdata : Word) :
    (m.next r flush rdy rdata).sel.Quiet := by
  have hsel := h.toLatched.sel_next flush rdy rdata
  rw [h.selValid, h.walkReady] at hsel
  rw [hsel]
  exact h.sel.next_waiting h.machine true

/-- Without an answer everything stays. -/
theorem ReadPhase.next_wait (h : m.ReadPhase rd held r) (flush : Bool) (rdata : Word) :
    (m.next r flush false rdata).ReadPhase rd (some m.busReq) r ∧
      (m.next r flush false rdata).ptw.level = m.ptw.level := by
  obtain ⟨ht, -⟩ := h.toTranslating.next flush false rdata h.sel.ready h.sel.pageFault
  have hq := h.sel_next flush false rdata
  have hw := h.toTranslating.walkIn flush false rdata
  have hf : m.ptw.fillsTlb (m.walkIn flush false rdata) = false :=
    TableWalk.fillsTlb_of_not_ready (by rw [hw])
  have hl' : (m.next r flush false rdata).ptw.level = m.ptw.level := by
    rw [next_ptw, hw]; simp [TableWalk.next, TableWalk.levelNxt, h.walk]
  have hb' : (m.next r flush false rdata).ptw.base = m.ptw.base := by
    rw [next_ptw, hw]; simp [TableWalk.next, TableWalk.baseNxt, h.walk]
  have hs' : (m.next r flush false rdata).ptw.state = .s2 := by
    rw [next_ptw, hw]; simp [TableWalk.next, TableWalk.stateNxt, h.walk]
  refine ⟨{ ht with sel := hq, walk := hs', walkReady := ?_, held := ?_, machine := h.machine
                    mode := h.mode, path := h.path.next hl' hb' hf
                    level := by rw [hl']; exact h.level, miss := ?_ }, hl'⟩
  · rw [next_ptw, hw]; simp [TableWalk.next, TableWalk.readyNxt, h.walk, h.walkReady]
  · rw [h.busReq, ht.busReq hq.ready]
    simp [TableWalk.memValid, hs', TableWalk.memAddr, hl', hb']
  · rw [next_ptw, TableWalk.tlbHit_next hf, h.miss, Bool.and_false]

/-- A valid pointer leads one level down. -/
theorem ReadPhase.next_link (h : m.ReadPhase rd held r)
    (hlink : pteLinks (currentPte rd m r) = true) (flush : Bool) :
    (m.next r flush true (currentPte rd m r)).LookupPhase rd none r ∧
      (m.next r flush true (currentPte rd m r)).ptw.level = m.ptw.level - 1#2 := by
  obtain ⟨ht, -⟩ :=
    h.toTranslating.next flush true (currentPte rd m r) h.sel.ready h.sel.pageFault
  have hw := h.toTranslating.walkIn flush true (currentPte rd m r)
  obtain ⟨hv, hp⟩ : pteV (currentPte rd m r) = true ∧ pteIsPointer (currentPte rd m r) = true := by
    simpa [pteLinks] using hlink
  have hf : m.ptw.fillsTlb (m.walkIn flush true (currentPte rd m r)) = false := by
    rw [hw]; simp [TableWalk.fillsTlb, hp]
  have hl' : (m.next r flush true (currentPte rd m r)).ptw.level = m.ptw.level - 1#2 := by
    rw [next_ptw, hw]; simp [TableWalk.next, TableWalk.levelNxt, h.walk, hv, hp]
  have hb' : (m.next r flush true (currentPte rd m r)).ptw.base
      = pointerBase (currentPte rd m r) := by
    rw [next_ptw, hw]; simp [TableWalk.next, TableWalk.baseNxt, h.walk, hv, hp]
  have hm' : (m.next r flush true (currentPte rd m r)).ptw.tlbHit r.satp r.addr r.isInstruction
      = false := by
    rw [next_ptw, TableWalk.tlbHit_next hf, h.miss, Bool.and_false]
  refine ⟨{ ht with sel := h.sel_next _ _ _, walk := ?_, walkReady := ?_, held := rfl
                    machine := h.machine, mode := h.mode, path := .inr ?_ }, hl'⟩
  · rw [next_ptw, hw]
    simp [TableWalk.next, TableWalk.stateNxt, TableWalk.readyNxt, h.walk, hv, hp]
  · rw [next_ptw, hw]; simp [TableWalk.next, TableWalk.readyNxt, h.walk, hv, hp]
  · rcases h.currentPte_cases with ⟨hl, hc, -⟩ | ⟨hl, hp1, hc, -⟩
    · rw [hl] at hl'
      exact .inl ⟨hl', hm', hc ▸ hlink, hb'.trans (by rw [hc])⟩
    · rw [hl] at hl'
      exact .inr ⟨hl', hm', hp1, hc ▸ hlink⟩

/-- Any other entry is the one of the request. -/
theorem ReadPhase.mmuPte_of_end (h : m.ReadPhase rd held r)
    (hend : pteLinks (currentPte rd m r) = false) :
    mmuPte m.ptw rd r.satp r.addr r.isInstruction
      = some (endPte m.ptw.level r.addr (currentPte rd m r)) := by
  simp only [mmuPte, h.mode, h.miss, Bool.not_true, Bool.false_eq_true, if_false]
  rcases h.currentPte_cases with ⟨hl, -, hwalk⟩ | ⟨hl, -, -, hwalk⟩
  · rw [hwalk hend, hl]
  · rw [hwalk hend, hl]

/-- The walk ends with it, and it is found in the TLB if it is a leaf. -/
theorem ReadPhase.mmuPte_next_end (h : m.ReadPhase rd held r)
    (hend : pteLinks (currentPte rd m r) = false) :
    mmuPte (m.next r false true (currentPte rd m r)).ptw rd r.satp r.addr r.isInstruction
      = some (endPte m.ptw.level r.addr (currentPte rd m r)) := by
  have hw := h.toTranslating.walkIn false true (currentPte rd m r)
  have hnl : (pteV (currentPte rd m r) && pteIsPointer (currentPte rd m r)) = false := hend
  rw [next_ptw]
  cases hv : pteV (currentPte rd m r) with
  | true =>
    rw [hv, Bool.true_and] at hnl
    have hfill : m.ptw.fillsTlb (m.walkIn false true (currentPte rd m r)) = true := by
      rw [hw]; simp [TableWalk.fillsTlb, h.walk, hv, hnl]
    obtain ⟨hhit, hval⟩ := tlbHit_next_fill hfill (by rw [hw]) (by rw [hw]; exact h.miss)
    rw [TableWalk.tlbPteI, hfill, if_pos rfl] at hval
    rw [hw] at hhit hval ⊢
    simp only [mmuPte, h.mode, hhit, hval, endPte, hv]
    rfl
  | false =>
    have hf : m.ptw.fillsTlb (m.walkIn false true (currentPte rd m r)) = false := by
      rw [hw]; simp [TableWalk.fillsTlb, hv]
    rw [mmuPte_next hf (by rw [hw])]
    exact h.mmuPte_of_end hend

theorem ReadPhase.next_end (h : m.ReadPhase rd held r)
    (hend : pteLinks (currentPte rd m r) = false) :
    (m.next r false true (currentPte rd m r)).AnsweredPhase af rd r := by
  obtain ⟨ht, -⟩ :=
    h.toTranslating.next false true (currentPte rd m r) h.sel.ready h.sel.pageFault
  have hw := h.toTranslating.walkIn false true (currentPte rd m r)
  have hnl : (pteV (currentPte rd m r) && pteIsPointer (currentPte rd m r)) = false := hend
  refine { ht with sel := h.sel_next _ _ _, walk := ?_, walkReady := ?_, machine := h.machine
                   pte := .inl ?_ }
  · rw [next_ptw, hw]
    simp [TableWalk.next, TableWalk.stateNxt, TableWalk.readyNxt, h.walk, hnl]
  · rw [next_ptw, hw]; simp [TableWalk.next, TableWalk.readyNxt, h.walk, hnl]
  · have hpte : (m.next r false true (currentPte rd m r)).ptw.pte
        = endPte m.ptw.level r.addr (currentPte rd m r) := by
      rw [next_ptw, hw]
      cases hv : pteV (currentPte rd m r) with
      | false => simp [TableWalk.next, TableWalk.pteNxt, h.walk, hv, endPte]
      | true =>
        rw [hv, Bool.true_and] at hnl
        simp [TableWalk.next, TableWalk.pteNxt, h.walk, hv, hnl, endPte]
    rw [hpte]
    exact h.mmuPte_next_end hend

/-- A refused read reads as an invalid entry. -/
theorem ReadPhase.next_refused (h : m.ReadPhase rd held r) (flush : Bool) :
    (m.next r flush true 0#32).AnsweredPhase true rd r := by
  obtain ⟨ht, -⟩ := h.toTranslating.next flush true 0#32 h.sel.ready h.sel.pageFault
  have hw := h.toTranslating.walkIn flush true 0#32
  have hv : pteV 0#32 = false := by decide
  refine { ht with sel := h.sel_next _ _ _, walk := ?_, walkReady := ?_, machine := h.machine
                   pte := .inr ⟨rfl, ?_⟩ }
  · rw [next_ptw, hw]
    simp [TableWalk.next, TableWalk.stateNxt, TableWalk.readyNxt, h.walk, hv]
  · rw [next_ptw, hw]; simp [TableWalk.next, TableWalk.readyNxt, h.walk, hv]
  · rw [next_ptw, hw]; simp [TableWalk.next, TableWalk.pteNxt, h.walk, hv]

/-! ## The permission check -/

theorem AnsweredPhase.busReq_valid (h : m.AnsweredPhase af rd r) : m.busReq.valid = false := by
  rw [h.toTranslating.busReq h.sel.ready]
  simp [TableWalk.memValid, h.walk]

theorem CheckPhase.busReq_valid (h : m.CheckPhase af rd r) : m.busReq.valid = false := by
  rw [h.toTranslating.busReq h.selReady]
  simp [TableWalk.memValid, h.walk]

/-- A walker at rest keeps its entry over an edge in which it is not asked or has just
answered. -/
theorem walk_rest {i : WalkIn} (hs : m.ptw.state = .s0)
    (hv : i.valid = false ∨ m.ptw.ready = true) :
    (m.ptw.next i).state = .s0 ∧ (m.ptw.next i).ready = false ∧ (m.ptw.next i).pte = m.ptw.pte := by
  rcases hv with hv | hv <;>
    simp [TableWalk.next, TableWalk.stateNxt, TableWalk.readyNxt, TableWalk.pteNxt, hs, hv]

theorem AnsweredPhase.next (h : m.AnsweredPhase af rd r) (rdata : Word) :
    (m.next r false false rdata).CheckPhase af rd r := by
  obtain ⟨ht, hp⟩ := h.toTranslating.next false false rdata h.sel.ready h.sel.pageFault
  have hsel := h.toLatched.sel_next false false rdata
  rw [h.selValid, h.walkReady, h.machine] at hsel
  have hw := h.toTranslating.walkIn false false rdata
  obtain ⟨hs', hr', hpte⟩ := walk_rest (i := m.walkIn false false rdata) h.walk (.inr h.walkReady)
  have hf : m.ptw.fillsTlb (m.walkIn false false rdata) = false :=
    TableWalk.fillsTlb_of_ne_s2 (by simp [h.walk])
  refine { ht with selState := ?_, selReady := ?_, selFault := ?_, walk := hs', walkReady := hr'
                   pending := hp, machine := h.machine, pte := ?_ }
  · rw [hsel]; simp [Translator.next, h.sel.state]
  · rw [hsel]; simp [Translator.next, h.sel.state]
  · rw [hsel]; simp [Translator.next, h.sel.state]
  · rw [PteOk, next_ptw, hpte, mmuPte_next hf (by rw [hw])]
    exact h.pte

theorem CheckPhase.next (h : m.CheckPhase af rd r) (rdata : Word) :
    (m.next r false false rdata).DonePhase af rd none r := by
  obtain ⟨ht, hp⟩ := h.toTranslating.next false false rdata h.selReady h.selFault
  have hsel := h.toLatched.sel_next false false rdata
  have hw := h.toTranslating.walkIn false false rdata
  have hv : (m.walkIn false false rdata).valid = false := by
    rw [hw]; simp [Translator.walkValid, h.selState]
  obtain ⟨hs', hr', -⟩ := walk_rest h.walk (.inl hv)
  have hf : m.ptw.fillsTlb (m.walkIn false false rdata) = false :=
    TableWalk.fillsTlb_of_ne_s2 (by simp [h.walk])
  have hpf : (m.next r false false rdata).sel.pageFault = r.faults m.ptw.pte := by
    rw [hsel]; simp [Translator.next, h.selState]
  refine { ht with selState := ?_, selReady := ?_, walk := hs', walkReady := hr', pending := hp
                   held := rfl, result := ?_ }
  · rw [hsel]; simp [Translator.next, h.selState]
  · rw [hsel]; simp [Translator.next, h.selState]
  · rcases h.pte with hpte | ⟨haf, hzero⟩
    · left
      rw [CpuReq.outcome, next_ptw, mmuPte_next hf (by rw [hw]), hpte, hpf, hsel]
      simp only [CpuReq.outcomeOf, h.machine, Translator.next, h.selState, Option.map_some,
        CpuReq.check]
      cases r.faults m.ptw.pte <;> simp
    · exact .inr ⟨haf, by rw [hpf, hzero, CpuReq.faults_zero]⟩

/-! ## The result and the access -/

/-- The access of the latched request, as it stands on the bus. -/
def accessReq (m : Sv32 iw dw) (r : CpuReq) : BusReq :=
  ⟨true, m.sel.physicalAddress, r.wstrb, m.cpuWdataQ⟩

theorem DonePhase.busReq (h : m.DonePhase af rd held r) (hf : m.sel.pageFault = false) :
    m.busReq = m.accessReq r := by
  have hd := (translationDone_eq h.other).trans h.selReady
  have ha := (anyPageFault_eq h.other).trans hf
  simp [Sv32.busReq, h.state, hd, ha, h.validQ, selectedPhysAddr_eq, h.wstrb, accessReq]

theorem DonePhase.busReq_valid_of_fault (h : m.DonePhase af rd held r)
    (hf : m.sel.pageFault = true) : m.busReq.valid = false := by
  have ha := (anyPageFault_eq h.other).trans hf
  simp [Sv32.busReq, h.state, ha, TableWalk.memValid, h.walk]

theorem AccessPhase.busReq (h : m.AccessPhase rd held r) : m.busReq = m.accessReq r := by
  simp [Sv32.busReq, h.state, h.validQ, selectedPhysAddr_eq, h.wstrb, accessReq]

/-- With the request already pending, the request register is not loaded again. -/
theorem translationStart_of_pending (hp : m.translationPendingQ = true) (rdy : Bool) :
    m.translationStart r rdy = false := by
  simp [translationStart, hp]

theorem next_validQ_of_pending (hp : m.translationPendingQ = true) (hd : m.translationDone = true)
    (flush rdy : Bool) (rdata : Word) :
    (m.next r flush rdy rdata).instrTranslateValid = false ∧
      (m.next r flush rdy rdata).dataTranslateValid = false := by
  simp [Sv32.next, translationStart_of_pending hp, hd]

theorem DonePhase.walkIn_valid (h : m.DonePhase af rd held r) (flush rdy : Bool) (rdata : Word) :
    (m.walkIn flush rdy rdata).valid = false := by
  rw [h.toTranslating.walkIn]
  simp [Translator.walkValid, h.selReady]

/-- The translators are at rest after the result. -/
theorem DonePhase.quiet_next (h : m.DonePhase af rd held r) (flush rdy : Bool) (rdata : Word) :
    (m.next r flush rdy rdata).sel.Quiet ∧ (m.next r flush rdy rdata).other.Quiet ∧
      (m.next r flush rdy rdata).sel.physicalAddress = m.sel.physicalAddress := by
  have hsel := h.toLatched.sel_next flush rdy rdata
  rw [h.walkReady] at hsel
  rw [hsel]
  obtain ⟨hq, hpa⟩ := Translator.next_of_ready h.selState h.selReady m.selValid
  exact ⟨hq, h.toLatched.other_next flush rdy rdata h.other h.otherValid, hpa⟩

theorem quiet_of_sel_of_other (hs : m.sel.Quiet) (ho : m.other.Quiet) :
    m.instrTranslator.Quiet ∧ m.dataTranslator.Quiet := by
  unfold sel at hs
  unfold other at ho
  cases hi : m.isInstrQ <;> simp only [hi, if_true, Bool.false_eq_true, if_false] at hs ho
  · exact ⟨ho, hs⟩
  · exact ⟨hs, ho⟩

/-- A page fault is reported in the next cycle. -/
theorem DonePhase.next_fault (h : m.DonePhase af rd held r) (hf : m.sel.pageFault = true)
    (rdata : Word) :
    (m.next r false false rdata).IdlePhase af rd none r ∧
      (m.next r false false rdata).pageFault = true := by
  have hd := (translationDone_eq h.other).trans h.selReady
  have ha := (anyPageFault_eq h.other).trans hf
  obtain ⟨hqs, hqo, -⟩ := h.quiet_next false false rdata
  obtain ⟨hqi, hqd⟩ := quiet_of_sel_of_other hqs hqo
  obtain ⟨hvi, hvd⟩ := next_validQ_of_pending (r := r) h.pending hd false false rdata
  obtain ⟨hs', hr', -⟩ := walk_rest h.walk (.inl (h.walkIn_valid false false rdata))
  have hpf : (m.next r false false rdata).pageFault = true := ha
  refine ⟨{ state := ?_, instr := hqi, data := hqd, instrValid := hvi, dataValid := hvd
            walk := hs', walkReady := hr', held := rfl, pending := fun _ => hpf
            fault := fun _ => ⟨h.toLatched.next false false rdata, ?_, ?_⟩ }, hpf⟩
  · simp [Sv32.next, stateNxt, h.state, ha]
  · simp [Sv32.next, ha, h.addr]
  · rcases h.result with hr | ⟨haf, -⟩
    · left
      have hfill : m.ptw.fillsTlb (m.walkIn false false rdata) = false :=
        TableWalk.fillsTlb_of_ne_s2 (by simp [h.walk])
      rw [CpuReq.outcome, next_ptw, mmuPte_next hfill rfl]
      rw [hf, if_pos rfl] at hr
      exact hr
    · exact .inr haf

/-- The access stays on the bus. -/
theorem DonePhase.next_access (h : m.DonePhase af rd held r) (hf : m.sel.pageFault = false)
    (rdata : Word) :
    (m.next r false false rdata).AccessPhase rd (some m.busReq) r ∧
      (m.next r false false rdata).sel.physicalAddress = m.sel.physicalAddress := by
  have hd := (translationDone_eq h.other).trans h.selReady
  have ha := (anyPageFault_eq h.other).trans hf
  obtain ⟨hqs, hqo, hpa⟩ := h.quiet_next false false rdata
  obtain ⟨hvi, hvd⟩ := next_validQ_of_pending (r := r) h.pending hd false false rdata
  obtain ⟨hs', hr', -⟩ := walk_rest h.walk (.inl (h.walkIn_valid false false rdata))
  have hst : (m.next r false false rdata).state = .access := by
    simp [Sv32.next, stateNxt, h.state, ha, hd]
  have hl := h.toLatched.next false false rdata
  have hwd : (m.next r false false rdata).cpuWdataQ = m.cpuWdataQ := by
    simp [Sv32.next, translationStart_of_pending h.pending]
  refine ⟨{ hl with state := hst, pageFault := ha, sel := hqs, other := hqo, selValid := ?_
                    otherValid := ?_, walk := hs', walkReady := hr', pending := ?_, held := ?_
                    result := ?_ }, hpa⟩
  · simp [Sv32.selValid, hvi, hvd]
  · simp [Sv32.otherValid, hvi, hvd]
  · simp [Sv32.next, translationPending, h.reqValid, h.pageFault]
  · rw [h.busReq hf]
    simp [Sv32.busReq, hst, hl.validQ, selectedPhysAddr_eq, hl.wstrb, accessReq, hpa, hwd]
  · have hfill : m.ptw.fillsTlb (m.walkIn false false rdata) = false :=
      TableWalk.fillsTlb_of_ne_s2 (by simp [h.walk])
    rw [hpa, CpuReq.outcome, next_ptw, mmuPte_next hfill rfl]
    rcases h.result with hr | ⟨-, hpf⟩
    · rw [hf, if_neg (by decide)] at hr
      exact hr
    · simp [hf] at hpf

theorem AccessPhase.done (h : m.AccessPhase rd held r) :
    m.translationDone = false ∧ m.anyPageFault = false :=
  ⟨(translationDone_eq h.other).trans h.sel.ready,
    (anyPageFault_eq h.other).trans h.sel.pageFault⟩

/-- What every edge of `STATE_ACCESS` leaves alone. -/
theorem AccessPhase.rest_next (h : m.AccessPhase rd held r) (flush rdy : Bool) (rdata : Word) :
    (m.next r flush rdy rdata).sel.Quiet ∧ (m.next r flush rdy rdata).other.Quiet ∧
      (m.next r flush rdy rdata).sel.physicalAddress = m.sel.physicalAddress ∧
      (m.next r flush rdy rdata).instrTranslateValid = false ∧
      (m.next r flush rdy rdata).dataTranslateValid = false ∧
      (m.next r flush rdy rdata).ptw.state = .s0 ∧
      (m.next r flush rdy rdata).ptw.ready = false ∧
      (m.next r flush rdy rdata).pageFault = false := by
  obtain ⟨hd, ha⟩ := h.done
  have hsel := h.toLatched.sel_next flush rdy rdata
  rw [h.selValid, h.walkReady] at hsel
  have hv : m.instrTranslateValid = false ∧ m.dataTranslateValid = false := by
    have h1 := h.selValid
    have h2 := h.otherValid
    unfold Sv32.selValid at h1
    unfold Sv32.otherValid at h2
    cases hi : m.isInstrQ <;> simp_all
  have hwv : (m.walkIn flush rdy rdata).valid = false := by
    show m.ptwValid = false
    rw [h.ptwValid, h.selValid]
    simp [Translator.walkValid]
  obtain ⟨hs', hr', -⟩ := walk_rest h.walk (.inl hwv)
  refine ⟨hsel ▸ h.sel.next, h.toLatched.other_next flush rdy rdata h.other h.otherValid, ?_, ?_,
    ?_, hs', hr', ha⟩
  · rw [hsel]; simp [Translator.next, h.sel.state]
  · simp [Sv32.next, translationStart_of_pending h.pending, hd, hv]
  · simp [Sv32.next, translationStart_of_pending h.pending, hd, hv]

theorem AccessPhase.next_wait (h : m.AccessPhase rd held r) (rdata : Word) :
    (m.next r false false rdata).AccessPhase rd (some m.busReq) r ∧
      (m.next r false false rdata).sel.physicalAddress = m.sel.physicalAddress := by
  obtain ⟨hqs, hqo, hpa, hvi, hvd, hs', hr', hpf⟩ := h.rest_next false false rdata
  have hst : (m.next r false false rdata).state = .access := by
    simp [Sv32.next, stateNxt, h.state]
  have hl := h.toLatched.next false false rdata
  have hwd : (m.next r false false rdata).cpuWdataQ = m.cpuWdataQ := by
    simp [Sv32.next, translationStart_of_pending h.pending]
  refine ⟨{ hl with state := hst, pageFault := hpf, sel := hqs, other := hqo, selValid := ?_
                    otherValid := ?_, walk := hs', walkReady := hr', pending := ?_, held := ?_
                    result := ?_ }, hpa⟩
  · simp [Sv32.selValid, hvi, hvd]
  · simp [Sv32.otherValid, hvi, hvd]
  · simp [Sv32.next, translationPending, h.reqValid, h.pageFault]
  · rw [h.busReq]
    simp [Sv32.busReq, hst, hl.validQ, selectedPhysAddr_eq, hl.wstrb, accessReq, hpa, hwd]
  · have hfill : m.ptw.fillsTlb (m.walkIn false false rdata) = false :=
      TableWalk.fillsTlb_of_ne_s2 (by simp [h.walk])
    rw [hpa, CpuReq.outcome, next_ptw, mmuPte_next hfill rfl]
    exact h.result

/-- The answer ends the request; the next one may be any. -/
theorem AccessPhase.next_ready (h : m.AccessPhase rd held r) (flush : Bool) (rdata : Word)
    (rd' : BitVec 32 → Word) (r' : CpuReq) :
    (m.next r flush true rdata).IdlePhase af rd' none r' ∧
      (m.next r flush true rdata).pageFault = false := by
  obtain ⟨hqs, hqo, -, hvi, hvd, hs', hr', hpf⟩ := h.rest_next flush true rdata
  obtain ⟨hqi, hqd⟩ := quiet_of_sel_of_other hqs hqo
  refine ⟨{ state := ?_, instr := hqi, data := hqd, instrValid := hvi, dataValid := hvd
            walk := hs', walkReady := hr', held := rfl, pending := ?_
            fault := fun hf => ?_ }, hpf⟩
  · simp [Sv32.next, stateNxt, h.state]
  · simp [Sv32.next, translationPending]
  · simp [hpf] at hf

/-! ## Idle -/

theorem IdlePhase.busReq_valid (h : m.IdlePhase af rd held r) : m.busReq.valid = false := by
  simp [Sv32.busReq, h.state]

theorem IdlePhase.quiet (h : m.IdlePhase af rd held r) : m.sel.Quiet ∧ m.other.Quiet := by
  unfold sel other
  cases m.isInstrQ
  · exact ⟨h.data, h.instr⟩
  · exact ⟨h.instr, h.data⟩

theorem IdlePhase.done (h : m.IdlePhase af rd held r) :
    m.translationDone = false ∧ m.anyPageFault = false :=
  ⟨(translationDone_eq h.quiet.2).trans h.quiet.1.ready,
    (anyPageFault_eq h.quiet.2).trans h.quiet.1.pageFault⟩

/-- What every edge of `STATE_IDLE` leaves alone. -/
theorem IdlePhase.rest_next (h : m.IdlePhase af rd held r) (flush : Bool) (rdata : Word) :
    (m.next r flush false rdata).instrTranslator.Quiet ∧
      (m.next r flush false rdata).dataTranslator.Quiet ∧
      (m.next r flush false rdata).ptw.state = .s0 ∧
      (m.next r flush false rdata).ptw.ready = false ∧
      (m.next r flush false rdata).pageFault = false := by
  have hwv : (m.walkIn flush false rdata).valid = false := by
    show m.ptwValid = false
    unfold Sv32.ptwValid
    cases m.isInstrQ <;> simp [Translator.walkValid, h.instrValid, h.dataValid]
  obtain ⟨hs', hr', -⟩ := walk_rest h.walk (.inl hwv)
  refine ⟨?_, ?_, hs', hr', h.done.2⟩
  · simp only [Sv32.next, h.instrValid, h.walkReady, Bool.and_false]
    exact h.instr.next
  · simp only [Sv32.next, h.dataValid, h.walkReady, Bool.and_false]
    exact h.data.next

/-- A request without standing page fault is taken up. -/
theorem IdlePhase.next_start (h : m.IdlePhase af rd held r) (hv : r.valid = true)
    (hf : m.pageFault = false) (flush : Bool) (rdata : Word) :
    (m.next r flush false rdata).RequestPhase r := by
  have hp : m.translationPendingQ = false := by
    cases hq : m.translationPendingQ with
    | false => rfl
    | true => rw [h.pending hq] at hf; exact absurd hf (by decide)
  have hstart : m.translationStart r false = true := by
    simp [translationStart, translationPending, hv, hf, hp]
  obtain ⟨hqi, hqd, hs', hr', hpf⟩ := h.rest_next flush rdata
  -- the request is latched, and its translator is started and not the other one
  have hl : (m.next r flush false rdata).Latched r := by
    constructor
    · exact hv
    all_goals simp [Sv32.next, hstart, hv]
  refine { hl with state := ?_, pageFault := hpf, selValid := ?_, otherValid := ?_, other := ?_
                   sel := ?_, walk := hs', walkReady := hr', pending := ?_ }
  · simp [Sv32.next, stateNxt, h.state, hstart]
  · simp only [Sv32.selValid, hl.isInstr]
    cases hi : r.isInstruction <;> simp [Sv32.next, hstart, hi]
  · simp only [Sv32.otherValid, hl.isInstr]
    cases hi : r.isInstruction <;> simp [Sv32.next, hstart, hi]
  · unfold Sv32.other
    cases (m.next r flush false rdata).isInstrQ
    · exact hqi
    · exact hqd
  · unfold Sv32.sel
    cases (m.next r flush false rdata).isInstrQ
    · exact hqd
    · exact hqi
  · simp [Sv32.next, translationPending, hv, hf]

/-- Without request, or in the cycle that reports a page fault, nothing is taken up. -/
theorem IdlePhase.next_rest (h : m.IdlePhase af rd held r)
    (hv : r.valid = false ∨ m.pageFault = true) (flush : Bool) (rdata : Word)
    (rd' : BitVec 32 → Word) (r' : CpuReq) :
    (m.next r flush false rdata).IdlePhase af rd' none r' ∧
      (m.next r flush false rdata).pageFault = false := by
  have hp : m.translationPending r false = false := by
    rcases hv with hv | hv <;> simp [translationPending, hv]
  obtain ⟨hqi, hqd, hs', hr', hpf⟩ := h.rest_next flush rdata
  refine ⟨{ state := ?_, instr := hqi, data := hqd, instrValid := ?_, dataValid := ?_
            walk := hs', walkReady := hr', held := rfl, pending := ?_
            fault := fun hf => ?_ }, hpf⟩
  · simp [Sv32.next, stateNxt, h.state, translationStart, hp]
  · simp [Sv32.next, translationStart, hp, h.done.1, h.instrValid]
  · simp [Sv32.next, translationStart, hp, h.done.1, h.dataValid]
  · simp [Sv32.next, hp]
  · simp [hpf] at hf

/-! ## The joint invariant -/

/-- The client keeps a request on the processor side until it is answered or found to
fault, and does not flush the TLBs meanwhile. -/
def Holds (m : Sv32 iw dw) (rdy flush : Bool) (r r' : CpuReq) : Prop :=
  r.valid = true → m.cpuReady rdy = false → m.pageFault = false → r.SameAs r' ∧ flush = false

/-- A phase is one of the request up to its write data. -/
theorem Phase.same {r' : CpuReq} (h : m.Phase af rd held r) (hs : r.SameAs r') :
    m.Phase af rd held r' := by
  -- what a phase says about the walk depends on the request by these three fields only
  have hpath : PathAt rd m.ptw r → PathAt rd m.ptw r' := by
    intro hp
    simpa only [PathAt, hs.satp, hs.addr, hs.isInstruction] using hp
  have hpte : PteOk af rd m r → PteOk af rd m r' := by
    intro hp
    simpa only [PteOk, hs.satp, hs.addr, hs.isInstruction] using hp
  cases h with
  | idle h =>
    refine .idle { h with fault := fun hf => ?_ }
    obtain ⟨h1, h2, h3⟩ := h.fault hf
    exact ⟨h1.same hs, h2.trans hs.addr.symm, by rw [hs.outcome]; exact h3⟩
  | request h => exact .request { h.toTranslating.same hs, h with }
  | lookup h =>
    exact .lookup { h.toTranslating.same hs, h with
      machine := hs.machine.trans h.machine
      mode := by rw [hs.satp]; exact h.mode
      path := hpath h.path }
  | read h =>
    exact .read { h.toTranslating.same hs, h with
      machine := hs.machine.trans h.machine
      mode := by rw [hs.satp]; exact h.mode
      path := hpath h.path
      miss := by rw [hs.satp, hs.addr, hs.isInstruction]; exact h.miss }
  | answered h =>
    exact .answered { h.toTranslating.same hs, h with
      machine := hs.machine.trans h.machine, pte := hpte h.pte }
  | check h =>
    exact .check { h.toTranslating.same hs, h with
      machine := hs.machine.trans h.machine, pte := hpte h.pte }
  | done h =>
    refine .done { h.toTranslating.same hs, h with result := ?_ }
    rw [ResultOk, hs.outcome]
    exact h.result
  | access h =>
    refine .access { h.toLatched.same hs, h with result := ?_ }
    rw [hs.outcome]
    exact h.result

/-- The answer to a read of the walker: the next level or the end of the walk. -/
theorem ReadPhase.next_ready {rdata : Word} (h : m.ReadPhase rd held r)
    (hrd : rdata = rd (wordAddr m.busReq.addr) ∨ (af = true ∧ rdata = 0#32)) :
    (m.next r false true rdata).Phase af rd none r := by
  rcases hrd with hrd | ⟨haf, hrd⟩
  · have hc : rdata = currentPte rd m r := by rw [hrd, h.busReq]; rfl
    rw [hc]
    cases hlink : pteLinks (currentPte rd m r) with
    | true => exact .lookup (h.next_link hlink false).1
    | false => exact .answered (h.next_end hlink)
  · rw [hrd, haf]
    exact .answered (h.next_refused false)

theorem heldNext_of_not_valid {q : BusReq} (h : q.valid = false) (rdy : Bool) :
    heldNext q rdy = none := by
  simp [heldNext, h]

theorem heldNext_ready (q : BusReq) : heldNext q true = none := by
  simp [heldNext]

theorem heldNext_wait {q : BusReq} (h : q.valid = true) : heldNext q false = some q := by
  simp [heldNext, h]

/-- In `STATE_TRANSLATE` the answers of the bus go to the walker. -/
theorem cpuReady_of_translating (h : m.Translating r) (hd : m.sel.ready = false) (rdy : Bool) :
    m.cpuReady rdy = false := by
  have hdone := (translationDone_eq h.other).trans hd
  simp [cpuReady, answers, h.state, hdone]

/-- A memory that answers only what it has seen does not answer without a request. -/
theorem not_ready_of_not_held {rdy : Bool}
    (hbus : rdy = true → m.busReq.valid = true ∧ held = some m.busReq)
    (h : m.busReq.valid = false ∨ held = none) : rdy = false := by
  by_contra hr
  obtain ⟨hvalid, hheld⟩ := hbus (Bool.eq_true_of_not_eq_false hr)
  rcases h with h | h
  · rw [h] at hvalid
    exact absurd hvalid (by decide)
  · rw [h] at hheld
    exact absurd hheld (Option.some_ne_none _).symm

/-- **One edge of the joint machine.**  Whatever the memory answers, as long as it
answers requests it has seen and reads of the walker from `rd`, and whatever the client
does, as long as it holds its requests. -/
theorem Phase.next {rd' : BitVec 32 → Word} {r' : CpuReq} {rdy flush : Bool} {rdata : Word}
    (h : m.Phase af rd held r)
    (hbus : rdy = true → m.busReq.valid = true ∧ held = some m.busReq)
    (hrd : rdy = true → m.state = .translate →
      rdata = rd (wordAddr m.busReq.addr) ∨ (af = true ∧ rdata = 0#32))
    (hhold : m.Holds rdy flush r r') (hmem : m.cpuReady rdy = false → rd' = rd) :
    (m.next r flush rdy rdata).Phase af rd' (heldNext m.busReq rdy) r' := by
  have hno := not_ready_of_not_held hbus
  -- the client's and the memory's side of a translation that goes on
  have keep : m.Translating r → m.cpuReady rdy = false →
      r.SameAs r' ∧ flush = false ∧ rd' = rd := by
    intro ht hc
    obtain ⟨hs, hfl⟩ := hhold ht.reqValid hc ht.pageFault
    exact ⟨hs, hfl, hmem hc⟩
  cases h with
  | idle h =>
    obtain rfl := hno (.inl h.busReq_valid)
    rw [heldNext_of_not_valid h.busReq_valid]
    by_cases hv : r.valid = false ∨ m.pageFault = true
    · exact .idle (h.next_rest hv flush rdata rd' r').1
    · obtain ⟨hv, hf⟩ : r.valid = true ∧ m.pageFault = false := by simpa using hv
      have hc : m.cpuReady false = false := by simp [cpuReady]
      exact (Phase.request (h.next_start hv hf flush rdata)).same (hhold hv hc hf).1
  | request h =>
    obtain rfl := hno (.inl h.busReq_valid)
    obtain ⟨hs, rfl, rfl⟩ := keep h.toTranslating (by simp [cpuReady])
    rw [heldNext_of_not_valid h.busReq_valid]
    refine Phase.same ?_ hs
    cases hm : r.machine with
    | true => exact .done (h.next_machine hm false rdata)
    | false =>
      cases hmode : satpModeOf r.satp with
      | true => exact .lookup (h.next_lookup hm hmode false rdata).1
      | false => exact .answered (h.next_bare hm hmode false rdata)
  | lookup h =>
    obtain rfl := hno (.inr h.held)
    obtain ⟨hs, rfl, rfl⟩ := keep h.toTranslating (by simp [cpuReady])
    refine Phase.same ?_ hs
    cases hh : m.ptw.tlbHit r.satp r.addr r.isInstruction with
    | true => exact .answered (h.next_hit hh rdata)
    | false =>
      rw [heldNext_wait (by rw [h.busReq_valid, hh]; rfl)]
      by_cases hl : m.ptw.level = 3#2
      · exact .request (h.next_wrapped hh hl false rdata)
      · exact .read (h.next_read hh hl false rdata).1
  | read h =>
    obtain ⟨hs, rfl, rfl⟩ := keep h.toTranslating
      (cpuReady_of_translating h.toTranslating h.sel.ready rdy)
    refine Phase.same ?_ hs
    cases rdy with
    | false =>
      rw [heldNext_wait (by rw [h.busReq])]
      exact .read (h.next_wait false rdata).1
    | true =>
      rw [heldNext_ready]
      exact h.next_ready (hrd rfl h.state)
  | answered h =>
    obtain rfl := hno (.inl h.busReq_valid)
    obtain ⟨hs, rfl, rfl⟩ := keep h.toTranslating (by simp [cpuReady])
    exact Phase.same (.check (h.next rdata)) hs
  | check h =>
    obtain rfl := hno (.inl h.busReq_valid)
    obtain ⟨hs, rfl, rfl⟩ := keep h.toTranslating (by simp [cpuReady])
    rw [heldNext_of_not_valid h.busReq_valid]
    exact Phase.same (.done (h.next rdata)) hs
  | done h =>
    obtain rfl := hno (.inr h.held)
    obtain ⟨hs, rfl, rfl⟩ := keep h.toTranslating (by simp [cpuReady])
    refine Phase.same ?_ hs
    cases hf : m.sel.pageFault with
    | true =>
      rw [heldNext_of_not_valid (h.busReq_valid_of_fault hf)]
      exact .idle (h.next_fault hf rdata).1
    | false =>
      rw [heldNext_wait (by rw [h.busReq hf]; rfl)]
      exact .access (h.next_access hf rdata).1
  | access h =>
    cases rdy with
    | true =>
      rw [heldNext_ready]
      exact .idle (h.next_ready flush rdata rd' r').1
    | false =>
      have hc : m.cpuReady false = false := by simp [cpuReady]
      obtain ⟨hs, rfl⟩ := hhold h.reqValid hc h.pageFault
      obtain rfl := hmem hc
      rw [heldNext_wait (by rw [h.busReq]; rfl)]
      exact Phase.same (.access (h.next_wait rdata).1) hs

/-! ## What the phases give -/

/-- `S1` of the walker is the lookup. -/
theorem Phase.lookup_of_s1 (h : m.Phase af rd held r) (hs : m.ptw.state = .s1) :
    m.LookupPhase rd held r := by
  cases h with
  | lookup h => exact h
  | idle h => exact absurd (h.walk.symm.trans hs) (by decide)
  | request h => exact absurd (h.walk.symm.trans hs) (by decide)
  | read h => exact absurd (h.walk.symm.trans hs) (by decide)
  | answered h => exact absurd (h.walk.symm.trans hs) (by decide)
  | check h => exact absurd (h.walk.symm.trans hs) (by decide)
  | done h => exact absurd (h.walk.symm.trans hs) (by decide)
  | access h => exact absurd (h.walk.symm.trans hs) (by decide)

/-- `S2` of the walker is the read. -/
theorem Phase.read_of_s2 (h : m.Phase af rd held r) (hs : m.ptw.state = .s2) :
    m.ReadPhase rd held r := by
  cases h with
  | read h => exact h
  | idle h => exact absurd (h.walk.symm.trans hs) (by decide)
  | request h => exact absurd (h.walk.symm.trans hs) (by decide)
  | lookup h => exact absurd (h.walk.symm.trans hs) (by decide)
  | answered h => exact absurd (h.walk.symm.trans hs) (by decide)
  | check h => exact absurd (h.walk.symm.trans hs) (by decide)
  | done h => exact absurd (h.walk.symm.trans hs) (by decide)
  | access h => exact absurd (h.walk.symm.trans hs) (by decide)

/-- In `STATE_TRANSLATE` the memory answers reads of the walker only. -/
theorem Phase.read_of_ready (h : m.Phase af rd held r) (hs : m.state = .translate)
    (hbus : m.busReq.valid = true ∧ held = some m.busReq) : m.ReadPhase rd held r := by
  obtain ⟨hv, hheld⟩ := hbus
  cases h with
  | read h => exact h
  | idle h => exact absurd (h.state.symm.trans hs) (by decide)
  | request h => rw [h.busReq_valid] at hv; exact absurd hv (by decide)
  | lookup h => rw [h.held] at hheld; exact absurd hheld (by simp)
  | answered h => rw [h.busReq_valid] at hv; exact absurd hv (by decide)
  | check h => rw [h.busReq_valid] at hv; exact absurd hv (by decide)
  | done h => rw [h.held] at hheld; exact absurd hheld (by simp)
  | access h => exact absurd (h.state.symm.trans hs) (by decide)

/-- The entry of a request does not change while it is in work. -/
theorem Phase.mmuPte_next {rdy : Bool} {rdata : Word} (h : m.Phase af rd held r)
    (hrd : rdy = true → m.state = .translate →
      rdata = rd (wordAddr m.busReq.addr) ∨ (af = true ∧ rdata = 0#32)) :
    mmuPte (m.next r false rdy rdata).ptw rd r.satp r.addr r.isInstruction
      = mmuPte m.ptw rd r.satp r.addr r.isInstruction := by
  cases hf : m.ptw.fillsTlb (m.walkIn false rdy rdata) with
  | false =>
    rw [next_ptw]
    exact KianRiscV.mmuPte_next hf rfl _ _ _ _
  | true =>
    -- only the end of a walk fills the TLB, with the entry that was walked for
    have hs2 : m.ptw.state = .s2 := by
      by_contra hne
      exact absurd (hf.symm.trans (TableWalk.fillsTlb_of_ne_s2 hne)) (by decide)
    have hread := h.read_of_s2 hs2
    rw [hread.toTranslating.walkIn] at hf
    simp only [TableWalk.fillsTlb, Bool.and_eq_true, Bool.not_eq_true', beq_iff_eq] at hf
    obtain ⟨⟨⟨-, hrdy⟩, hv⟩, hleaf⟩ := hf
    have hc : rdata = currentPte rd m r := by
      rcases hrd hrdy hread.state with hrd | ⟨-, hzero⟩
      · rw [hrd, hread.busReq]
        rfl
      · rw [hzero] at hv
        exact absurd hv (by decide)
    subst hc
    have hend : pteLinks (currentPte rd m r) = false := by rw [pteLinks, hleaf, Bool.and_false]
    rw [hrdy, hread.mmuPte_next_end hend, hread.mmuPte_of_end hend]

/-- The wait for an entry looks the same over another memory, as far as it has been read. -/
theorem ReadPhase.reread {rd' : BitVec 32 → Word} (h : m.ReadPhase rd held r)
    (h1 : m.ptw.level = 0#2 → pathPte1 rd' r.satp r.addr = pathPte1 rd r.satp r.addr) :
    m.ReadPhase rd' held r := by
  refine { h with path := ?_ }
  rcases h.path with hp | ⟨hl, hm, hlink, hb⟩ | ⟨hl, -⟩
  · exact .inl hp
  · refine .inr (.inl ⟨hl, hm, ?_, ?_⟩)
    · rw [h1 hl]; exact hlink
    · rw [h1 hl]; exact hb
  · exact absurd hl h.level

/-- A request on the bus that is not answered stays, unless the walker is on the all-ones
level. -/
theorem Phase.busReq_next {r' : CpuReq} {flush : Bool} (rdata : Word)
    (h : m.Phase af rd held r) (hhold : m.Holds false flush r r') (hv : m.busReq.valid = true)
    (hl : m.ptw.state = .s1 → m.ptw.level ≠ 3#2) :
    (m.next r flush false rdata).busReq = m.busReq := by
  have hc : m.cpuReady false = false := by simp [cpuReady]
  cases h with
  | idle h => rw [h.busReq_valid] at hv; exact absurd hv (by decide)
  | request h => rw [h.busReq_valid] at hv; exact absurd hv (by decide)
  | lookup h =>
    have hh : m.ptw.tlbHit r.satp r.addr r.isInstruction = false := by
      rw [h.busReq_valid] at hv
      simpa using hv
    exact (Option.some.inj (h.next_read hh (hl h.walk) flush rdata).1.held).symm
  | read h => exact (Option.some.inj (h.next_wait flush rdata).1.held).symm
  | answered h => rw [h.busReq_valid] at hv; exact absurd hv (by decide)
  | check h => rw [h.busReq_valid] at hv; exact absurd hv (by decide)
  | done h =>
    obtain ⟨-, rfl⟩ := hhold h.reqValid hc h.pageFault
    cases hf : m.sel.pageFault with
    | true => rw [h.busReq_valid_of_fault hf] at hv; exact absurd hv (by decide)
    | false => exact (Option.some.inj (h.next_access hf rdata).1.held).symm
  | access h =>
    obtain ⟨-, rfl⟩ := hhold h.reqValid hc h.pageFault
    exact (Option.some.inj (h.next_wait rdata).1.held).symm

/-- A request on the bus that is not answered keeps its address, strobes and data. -/
theorem Phase.bus_stable {r' : CpuReq} {flush : Bool} (rdata : Word)
    (h : m.Phase af rd held r) (hhold : m.Holds false flush r r') (hv : m.busReq.valid = true) :
    (m.next r flush false rdata).busReq.addr = m.busReq.addr ∧
      (m.next r flush false rdata).busReq.wstrb = m.busReq.wstrb ∧
      (m.next r flush false rdata).busReq.wdata = m.busReq.wdata := by
  by_cases hl : m.ptw.state = .s1 ∧ m.ptw.level = 3#2
  · -- the read of the all-ones level is withdrawn, its address stays
    have hlook := h.lookup_of_s1 hl.1
    have hh : m.ptw.tlbHit r.satp r.addr r.isInstruction = false := by
      rw [hlook.busReq_valid] at hv
      simpa using hv
    have hn := hlook.next_wrapped hh hl.2 flush rdata
    rw [hn.toTranslating.busReq hn.sel.ready, hlook.toTranslating.busReq hlook.sel.ready, next_ptw]
    simp [TableWalk.memAddr, TableWalk.next, TableWalk.levelNxt, TableWalk.baseNxt, hlook.walk]
  · rw [h.busReq_next rdata hhold hv fun hs1 hl3 => hl ⟨hs1, hl3⟩]
    exact ⟨rfl, rfl, rfl⟩

/-- The processor gets an answer in the access phase only. -/
theorem Phase.access_of_cpuReady {rdy : Bool} (h : m.Phase af rd held r)
    (hbus : rdy = true → held = some m.busReq) (hc : m.cpuReady rdy = true) :
    m.AccessPhase rd held r := by
  have hr : rdy = true := by
    simp only [cpuReady, Bool.and_eq_true] at hc
    exact hc.2
  have hno : ∀ ht : m.Translating r, m.sel.ready = false → False := by
    intro ht hd
    rw [cpuReady_of_translating ht hd] at hc
    exact absurd hc (by decide)
  cases h with
  | idle h => simp [cpuReady, answers, h.state] at hc
  | request h => exact (hno h.toTranslating h.sel.ready).elim
  | lookup h => exact (hno h.toTranslating h.sel.ready).elim
  | read h => exact (hno h.toTranslating h.sel.ready).elim
  | answered h => exact (hno h.toTranslating h.sel.ready).elim
  | check h => exact (hno h.toTranslating h.selReady).elim
  | done h => simp [h.held] at hbus; simp [hbus] at hr
  | access h => exact h

/-- Outside `STATE_IDLE` the request is the latched one. -/
theorem Phase.latched_of_busy (h : m.Phase af rd held r) (hs : m.state ≠ .idle) :
    m.Latched r ∧ m.pageFault = false := by
  cases h with
  | idle h => exact absurd h.state hs
  | request h => exact ⟨h.toLatched, h.pageFault⟩
  | lookup h => exact ⟨h.toLatched, h.pageFault⟩
  | read h => exact ⟨h.toLatched, h.pageFault⟩
  | answered h => exact ⟨h.toLatched, h.pageFault⟩
  | check h => exact ⟨h.toLatched, h.pageFault⟩
  | done h => exact ⟨h.toLatched, h.pageFault⟩
  | access h => exact ⟨h.toLatched, h.pageFault⟩

/-- After reset `sv32` is idle. -/
theorem IsReset.phase (h : m.IsReset) : m.Phase af rd none r := by
  obtain ⟨h1, h2, h3, -, -, -, -, -, -, -, -, -, h4, h5, h6, h7, h8⟩ := h
  refine .idle { state := h1, instr := ?_, data := ?_, instrValid := h4, dataValid := h5
                 walk := h8.1, walkReady := h8.2.2.1, held := rfl
                 pending := fun hp => by simp [h2] at hp, fault := fun hf => by simp [h3] at hf }
  · rw [h6]; exact ⟨rfl, rfl, rfl⟩
  · rw [h7]; exact ⟨rfl, rfl, rfl⟩

end Sv32

end KianRiscV
