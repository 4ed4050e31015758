/-
# 34-bit physical addresses

Sv32 page numbers have 22 bits and physical addresses 34.  The walker keeps the table base, the
entry and the address of an entry in 32-bit registers, so a page number above `2^20` loses its two
upper bits on the way to the bus.  This module follows the addresses on the bus through the run of
a request: the reads of entries and the access are at the specified 34-bit addresses exactly when
every page number on the path is below `2^20`.
-/
import KianRiscV.TranslationRules

namespace KianRiscV

/-! ## The walk over 34 bits -/

/-- The level and the entry in which the specified walk ends. -/
def specEnd (rd : BitVec 32 → Word) (satp address : Word) : Option (BitVec 2 × Word) :=
  if pteLinks (specPte1 rd satp address) then
    if pteLinks (specPte0 rd satp address) then none
    else some (0#2, specPte0 rd satp address)
  else some (1#2, specPte1 rd satp address)

/-- The physical page of a leaf: its page number, at level 1 with `VPN[0]` in the lower half. -/
def pageOf (level : BitVec 2) (pte address : Word) : BitVec 22 :=
  if level = 0#2 then ppnOf pte else (ppnOf pte).extractLsb' 10 12 ++ vpn0Of address

/-- A valid leaf without the reserved combination, aligned at level 1. -/
structure WellFormedLeaf (level : BitVec 2) (pte : Word) : Prop where
  valid : pteV pte = true
  leaf : pteIsPointer pte = false
  readable : pteR pte = true ∨ pteW pte = false
  aligned : level ≠ 0#2 → (ppnOf pte).extractLsb' 0 10 = 0#10

theorem pageOf_getLsbD (level : BitVec 2) (pte address : Word) {k : ℕ} (hk : k < 22) :
    (pageOf level pte address).getLsbD k =
      if level ≠ 0#2 ∧ k < 10 then address.getLsbD (12 + k) else pte.getLsbD (10 + k) := by
  unfold pageOf
  by_cases hl : level = 0#2
  · rw [if_pos hl, ppnOf_getLsbD]
    simp [hl, hk]
  · rw [if_neg hl, BitVec.getLsbD_append]
    by_cases h10 : k < 10
    · simp [hl, h10, vpn0Of]
    · simp only [h10, if_false, BitVec.getLsbD_extractLsb', ppnOf_getLsbD, and_false]
      simp [show k - 10 < 12 by omega, show 10 + (k - 10) = k by omega, hk]

/-- The translated address has the lower 32 bits of the page and the offset. -/
theorem physicalOf_leafPte {level : BitVec 2} {pte : Word} (hwf : WellFormedLeaf level pte)
    (address : Word) :
    physicalOf (leafPte level address pte) address =
      ((pageOf level pte address ++ offsetOf address).setWidth 32).setWidth 34 := by
  apply BitVec.eq_of_getLsbD_eq
  intro k hk
  rw [physicalOf_getLsbD, BitVec.getLsbD_setWidth, BitVec.getLsbD_setWidth, BitVec.getLsbD_append]
  by_cases h12 : k < 12
  · simp [h12, offsetOf, hk, show k < 32 by omega]
  by_cases h32 : k < 32
  · have hpage := pageOf_getLsbD level pte address (show k - 12 < 22 by omega)
    rw [if_neg h12, if_neg h12, hpage, leafPte_getLsbD_page _ _ _ (by omega),
      show 10 + (k - 12) = k - 2 by omega, show 12 + (k - 12) = k by omega]
    by_cases hlow : level ≠ 0#2 ∧ k - 12 < 10
    · -- the lower half of an aligned page number is zero
      obtain ⟨hl, hk22⟩ := hlow
      have hz : ((ppnOf pte).extractLsb' 0 10).getLsbD (k - 12) = (0#10).getLsbD (k - 12) := by
        rw [hwf.aligned hl]
      rw [BitVec.getLsbD_extractLsb', ppnOf_getLsbD] at hz
      have hbit : pte.getLsbD (k - 2) = false := by
        simpa [hk22, show k - 12 < 22 by omega, show 10 + (k - 12) = k - 2 by omega] using hz
      simp [hl, hk22, hbit, h32, hk, show k < 22 by omega]
    · rw [if_neg hlow]
      by_cases hl : level = 0#2
      · simp [hl, h32, hk]
      · have h22 : ¬ k < 22 := fun h => hlow ⟨hl, by omega⟩
        simp [h22, h32, hk]
  · rw [if_neg h12, BitVec.getLsbD_of_ge _ _ (by omega)]
    simp [h32]

/-- Cutting to 32 bits loses nothing exactly below 4 GiB. -/
theorem setWidth_setWidth_eq_iff (x : BitVec 34) :
    (x.setWidth 32).setWidth 34 = x ↔ x.toNat < 2 ^ 32 := by
  have hx := x.isLt
  rw [← BitVec.toNat_inj, BitVec.toNat_setWidth, BitVec.toNat_setWidth]
  omega

theorem page_append_toNat (page : BitVec 22) (offset : BitVec 12) :
    (page ++ offset).toNat = page.toNat * 4096 + offset.toNat := by
  rw [BitVec.toNat_append, ← Nat.shiftLeft_add_eq_or_of_lt offset.isLt, Nat.shiftLeft_eq]

/-- The page of a leaf is below 4 GiB exactly when its page number is. -/
theorem pageOf_lt_iff (level : BitVec 2) (pte address : Word) :
    (pageOf level pte address).toNat < 2 ^ 20 ↔ (ppnOf pte).toNat < 2 ^ 20 := by
  unfold pageOf
  split
  · exact Iff.rfl
  · have hv := (vpn0Of address).isLt
    have hp := (ppnOf pte).isLt
    rw [BitVec.toNat_append, ← Nat.shiftLeft_add_eq_or_of_lt hv, Nat.shiftLeft_eq,
      BitVec.extractLsb'_toNat, Nat.shiftRight_eq_div_pow]
    omega

/-- An access stays on its page: its word is no word of another page. -/
theorem wordAddr_ne_of_page_ne {page page' : BitVec 22} (h : page' ≠ page)
    (offset offset' : BitVec 12) : wordAddr (page' ++ offset') ≠ wordAddr (page ++ offset) := by
  intro he
  apply h
  have ho := offset.isLt
  have ho' := offset'.isLt
  have he' := congrArg BitVec.toNat he
  unfold wordAddr at he'
  rw [BitVec.extractLsb'_toNat, BitVec.extractLsb'_toNat, page_append_toNat, page_append_toNat,
    Nat.shiftRight_eq_div_pow, Nat.shiftRight_eq_div_pow] at he'
  have hp := page.isLt
  have hp' := page'.isLt
  apply BitVec.eq_of_toNat_eq
  omega

/-- A 32-bit sum is the address of an entry only in a table below 4 GiB. -/
theorem ppn_lt_of_entryAddr {sum : Word} {ppn : BitVec 22} {vpn : BitVec 10}
    (h : sum.setWidth 34 = entryAddr ppn vpn) : ppn.toNat < 2 ^ 20 := by
  have hs := sum.isLt
  have ht := congrArg BitVec.toNat h
  rw [entryAddr_toNat, BitVec.toNat_setWidth] at ht
  omega

/-! ## The reads of entries on the bus -/

namespace MmuSys

variable {iw dw : ℕ} {s : MmuSys iw dw} {r : CpuReq} {answer : ℕ → Bool}

/-- In cycle `k` of a held request, which has not ended, the bus carries the read of an entry. -/
structure ReadsEntry (s : MmuSys iw dw) (r : CpuReq) (answer : ℕ → Bool) (k : ℕ) : Prop where
  pending : ∀ j, j < k → ¬ (run s (holding r answer) j).Ends (holding r answer j)
  valid : (run s (holding r answer) k).mmu.busReq.valid = true
  entry : (run s (holding r answer) k).mmu.answers = false

/-- A request that is being translated has not ended. -/
theorem not_ends_of_translating {i : MmuIn} (h : s.mmu.Translating r)
    (hd : s.mmu.sel.ready = false) : ¬ s.Ends i := by
  have ha : s.mmu.cpuReady (s.ready i) = false := Sv32.cpuReady_of_translating h hd _
  simp [Ends, Answered, ha, h.pageFault]

/-- Where a read of an entry comes from: the walker at its place on the path. -/
theorem ReadsEntry.pathAt (hphase : ∀ k, (run s (holding r answer) k).Phase r) {k : ℕ}
    (h : ReadsEntry s r answer k) :
    Sv32.PathAt s.mem.content (run s (holding r answer) k).mmu.ptw r ∧
      (run s (holding r answer) k).mmu.busReq.addr =
        ((run s (holding r answer) k).mmu.ptw.memAddr r.addr).setWidth 34 := by
  have hcontent : (run s (holding r answer) k).mem.content = s.mem.content :=
    (presented_holding h.pending).content
  have hv := h.valid
  have he := h.entry
  have hp := hphase k
  unfold Phase at hp
  rw [hcontent] at hp
  cases hp with
  | idle hp => rw [hp.busReq_valid] at hv; cases hv
  | request hp => rw [hp.busReq_valid] at hv; cases hv
  | answered hp => rw [hp.busReq_valid] at hv; cases hv
  | check hp => rw [hp.busReq_valid] at hv; cases hv
  | access hp => simp [Sv32.answers, hp.state] at he
  | lookup hp => exact ⟨hp.path, by rw [hp.toTranslating.busReq hp.sel.ready]⟩
  | read hp => exact ⟨hp.path, by rw [hp.toTranslating.busReq hp.sel.ready]⟩
  | done hp =>
    cases hf : (run s (holding r answer) k).mmu.sel.pageFault with
    | true => rw [hp.busReq_valid_of_fault hf] at hv; cases hv
    | false =>
      simp [Sv32.answers, hp.state, Sv32.translationDone_eq hp.other,
        Sv32.anyPageFault_eq hp.other, hp.selReady, hf] at he

/-- A cycle without answer, and one with. -/
theorem holding_step (k : ℕ) {rdy : Bool}
    (h : (run s (holding r answer) k).ready (holding r answer k) = rdy) :
    (run s (holding r answer) (k + 1)).mmu =
        (run s (holding r answer) k).mmu.next r false rdy (run s (holding r answer) k).rdata ∧
      (run s (holding r answer) (k + 1)).mem.held =
        heldNext (run s (holding r answer) k).mmu.busReq rdy := by
  subst h
  exact ⟨rfl, rfl⟩

theorem ready_eq_false (h : s.mmu.busReq.valid = false) (i : MmuIn) : s.ready i = false := by
  simp [ready, Memory.ready, h]

/-- The read of the entry of level 1 waits for its answer in cycle `k`. -/
structure ReadsRoot (s : MmuSys iw dw) (r : CpuReq) (answer : ℕ → Bool) (k : ℕ) : Prop where
  read : (run s (holding r answer) k).mmu.ReadPhase s.mem.content
    (run s (holding r answer) k).mem.held r
  level : (run s (holding r answer) k).mmu.ptw.level = 1#2
  pending : ∀ j, j < k → ¬ (run s (holding r answer) j).Ends (holding r answer j)

/-- One more cycle of a translation that has no result yet. -/
theorem pending_succ {k : ℕ}
    (hk : ∀ j, j < k → ¬ (run s (holding r answer) j).Ends (holding r answer j))
    (ht : (run s (holding r answer) k).mmu.Translating r)
    (hd : (run s (holding r answer) k).mmu.sel.ready = false) :
    ∀ j, j < k + 1 → ¬ (run s (holding r answer) j).Ends (holding r answer j) := by
  intro j hj
  rcases Nat.lt_succ_iff_lt_or_eq.1 hj with hj | rfl
  · exact hk j hj
  · exact not_ends_of_translating ht hd

theorem ReadsRoot.wait {k : ℕ} (h : ReadsRoot s r answer k) (hno : ¬ answer k = true) :
    ReadsRoot s r answer (k + 1) := by
  have hready : (run s (holding r answer) k).ready (holding r answer k) = false := by
    simp [ready, Memory.ready, holding, Bool.eq_false_of_not_eq_true hno]
  obtain ⟨hstep, hheld⟩ := holding_step k hready
  obtain ⟨hn, hln⟩ := h.read.next_wait false (run s (holding r answer) k).rdata
  rw [Sv32.heldNext_wait (by rw [h.read.busReq])] at hheld
  refine ⟨?_, ?_, pending_succ h.pending h.read.toTranslating h.read.sel.ready⟩
  · rw [hheld, hstep]
    exact hn
  · rw [hstep]
    exact hln.trans h.level

/-- The answer is a pointer: the entry of level 0 is looked up and read. -/
theorem ReadsRoot.link {k : ℕ} (h : ReadsRoot s r answer k) (ha : answer k = true)
    (hlink : pteLinks (pathPte1 s.mem.content r.satp r.addr) = true) :
    ReadsEntry s r answer (k + 1) ∧
      (run s (holding r answer) (k + 1)).mmu.ptw.level = 0#2 := by
  have hcontent : (run s (holding r answer) k).mem.content = s.mem.content :=
    (presented_holding h.pending).content
  have hready : (run s (holding r answer) k).ready (holding r answer k) = true := by
    have hvalid : (run s (holding r answer) k).mmu.busReq.valid = true := by rw [h.read.busReq]
    simp [ready, Memory.ready, holding, ha, hvalid, h.read.held]
  have hdata : (run s (holding r answer) k).rdata
      = Sv32.currentPte s.mem.content (run s (holding r answer) k).mmu r := by
    rw [rdata, hcontent, h.read.busReq]
    rfl
  have hcurrent : pteLinks (Sv32.currentPte s.mem.content (run s (holding r answer) k).mmu r)
      = true := by
    rcases h.read.currentPte_cases with ⟨-, hc, -⟩ | ⟨h0, -⟩
    · rw [hc]
      exact hlink
    · rw [h.level] at h0
      exact absurd h0 (by decide)
  obtain ⟨hstep, -⟩ := holding_step k hready
  obtain ⟨hn, hln⟩ := h.read.next_link hcurrent false
  rw [← hdata, ← hstep] at hn hln
  rw [h.level] at hln
  -- level 0 is only looked up after a miss
  have hmiss : (run s (holding r answer) (k + 1)).mmu.ptw.tlbHit r.satp r.addr r.isInstruction
      = false := by
    rcases hn.path with ⟨h1, -⟩ | ⟨-, hm, -⟩ | ⟨-, hm, -⟩
    · rw [hln] at h1
      exact absurd h1 (by decide)
    · exact hm
    · exact hm
  refine ⟨⟨pending_succ h.pending h.read.toTranslating h.read.sel.ready, ?_, ?_⟩, hln⟩
  · rw [hn.busReq_valid, hmiss]
    rfl
  · simp [Sv32.answers, hn.state, Sv32.translationDone_eq hn.other, hn.sel.ready]

section Exists

variable (hrest : s.mmu.AtRest) (hheld : s.mem.held = none) (hv : r.valid = true)
  (hm : r.machine = false) (hmode : satpModeOf r.satp = true)
  (hmiss : s.mmu.ptw.tlbHit r.satp r.addr r.isInstruction = false) (answer : ℕ → Bool)

include hrest hheld hv hm hmode hmiss

/-- Two cycles after it is presented, a request that misses the TLB is looked up at level 1. -/
theorem lookup_two :
    (run s (holding r answer) 2).mmu.LookupPhase s.mem.content
        (run s (holding r answer) 2).mem.held r ∧
      (run s (holding r answer) 2).mmu.ptw.level = 1#2 ∧
      (run s (holding r answer) 2).mmu.ptw.tlbHit r.satp r.addr r.isInstruction = false ∧
      ∀ j, j < 2 → ¬ (run s (holding r answer) j).Ends (holding r answer j) := by
  have hidle : s.mmu.IdlePhase false s.mem.content s.mem.held r :=
    { hrest with
      held := hheld
      pending := fun hp => by simp [hrest.pending] at hp
      fault := fun hf => by simp [hrest.pageFault] at hf }
  obtain ⟨hstep1, -⟩ := holding_step 0
    (show (run s (holding r answer) 0).ready _ = false from ready_eq_false hidle.busReq_valid _)
  -- one cycle to latch the request, one to leave `S0`; the TLBs change in neither
  have h1 : (run s (holding r answer) 1).mmu.RequestPhase r := by
    rw [hstep1]
    exact hidle.next_start hv hrest.pageFault false _
  obtain ⟨hstep2, hheld2⟩ := holding_step 1 (ready_eq_false h1.busReq_valid _)
  rw [Sv32.heldNext_of_not_valid h1.busReq_valid] at hheld2
  obtain ⟨h2, hl2⟩ : ((run s (holding r answer) 1).mmu.next r false false
      (run s (holding r answer) 1).rdata).LookupPhase s.mem.content none r ∧ _ :=
    h1.next_lookup hm hmode false _
  have hmiss1 : (run s (holding r answer) 1).mmu.ptw.tlbHit r.satp r.addr r.isInstruction
      = false := by
    rw [hstep1, Sv32.next_ptw]
    show (s.mmu.ptw.next _).tlbHit r.satp r.addr r.isInstruction = false
    rw [TableWalk.tlbHit_next (TableWalk.fillsTlb_of_ne_s2 (by rw [hrest.walk]; decide)), hmiss,
      Bool.and_false]
  have hp1 : ∀ j, j < 1 → ¬ (run s (holding r answer) j).Ends (holding r answer j) := by
    intro j hj
    obtain rfl : j = 0 := by omega
    simp [Ends, Answered, run, Sync.run, Sv32.cpuReady, Sv32.answers, hrest.state,
      hrest.pageFault]
  refine ⟨?_, ?_, ?_, pending_succ hp1 h1.toTranslating h1.sel.ready⟩
  · rw [hheld2, hstep2]
    exact h2
  · rw [hstep2]
    exact hl2
  · rw [hstep2, Sv32.next_ptw,
      TableWalk.tlbHit_next (TableWalk.fillsTlb_of_ne_s2 (by rw [h1.walk]; decide)), hmiss1,
      Bool.and_false]

/-- The read of level 1. -/
theorem exists_readsEntry1 :
    ∃ k, ReadsEntry s r answer k ∧ (run s (holding r answer) k).mmu.ptw.level = 1#2 := by
  obtain ⟨h, hl, hh, hpend⟩ := lookup_two hrest hheld hv hm hmode hmiss answer
  refine ⟨2, ⟨hpend, ?_, ?_⟩, hl⟩
  · rw [h.busReq_valid, hh]
    rfl
  · simp [Sv32.answers, h.state, Sv32.translationDone_eq h.other, h.sel.ready]

/-- The read of level 0, when the entry of level 1 is a pointer and the memory answers. -/
theorem exists_readsEntry0 (hans : ∀ n, ∃ m, n ≤ m ∧ answer m = true)
    (hlink : pteLinks (pathPte1 s.mem.content r.satp r.addr) = true) :
    ∃ k, ReadsEntry s r answer k ∧ (run s (holding r answer) k).mmu.ptw.level = 0#2 := by
  obtain ⟨h, hl, hh, hpend⟩ := lookup_two hrest hheld hv hm hmode hmiss answer
  have hready : (run s (holding r answer) 2).ready (holding r answer 2) = false := by
    simp [ready, Memory.ready, h.held]
  obtain ⟨hstep, hheld3⟩ := holding_step 2 hready
  obtain ⟨hn, hln⟩ := h.next_read hh (by rw [hl]; decide) false (run s (holding r answer) 2).rdata
  rw [Sv32.heldNext_wait (by rw [h.busReq_valid, hh]; rfl)] at hheld3
  have hroot : ReadsRoot s r answer 3 := by
    refine ⟨?_, ?_, pending_succ hpend h.toTranslating h.sel.ready⟩
    · rw [hheld3, hstep]
      exact hn
    · rw [hstep]
      exact hln.trans hl
  obtain ⟨k, -, hk, ha⟩ := Sync.exists_of_wait (fun _ hw hno => hw.wait hno) hroot (hans 3)
  exact ⟨k + 1, hk.link ha hlink⟩

end Exists

/-! ## All bits of the page numbers -/

/-- The access is at the specified address, whose word belongs to no other page. -/
structure AccessesFullPage (s : MmuSys iw dw) (r : CpuReq) (answer : ℕ → Bool) : Prop where
  access : ∀ level pte, specEnd s.mem.content r.satp r.addr = some (level, pte) →
    WellFormedLeaf level pte → permits r pte = true →
      HasResult s r answer (.physical (pageOf level pte r.addr ++ offsetOf r.addr))
  apart : ∀ level pte, specEnd s.mem.content r.satp r.addr = some (level, pte) →
    WellFormedLeaf level pte → permits r pte = true →
      ∀ pa, HasResult s r answer (.physical pa) → ∀ page, page ≠ pageOf level pte r.addr →
        ∀ offset : BitVec 12, wordAddr (page ++ offset) ≠ wordAddr pa

/-- The addresses on the bus are the specified ones: the reads of the entries of both levels, and
the access. -/
structure UsesFullPages (s : MmuSys iw dw) (r : CpuReq) (answer : ℕ → Bool) : Prop
    extends AccessesFullPage s r answer where
  level1 : ∀ k, ReadsEntry s r answer k → (run s (holding r answer) k).mmu.ptw.level = 1#2 →
    (run s (holding r answer) k).mmu.busReq.addr = entryAddr (satpPpnOf r.satp) (vpn1Of r.addr)
  level0 : ∀ k, ReadsEntry s r answer k → (run s (holding r answer) k).mmu.ptw.level = 0#2 →
    (run s (holding r answer) k).mmu.busReq.addr =
      entryAddr (ppnOf (specPte1 s.mem.content r.satp r.addr)) (vpn0Of r.addr)

/-- The page numbers of the tables are below `2^20`: those of `satp` and of the pointer. -/
structure TablesBelow (rd : BitVec 32 → Word) (r : CpuReq) : Prop where
  root : (satpPpnOf r.satp).toNat < 2 ^ 20
  pointer : pteLinks (specPte1 rd r.satp r.addr) = true →
    (ppnOf (specPte1 rd r.satp r.addr)).toNat < 2 ^ 20

/-- So is that of a leaf that permits the access. -/
def LeafBelow (rd : BitVec 32 → Word) (r : CpuReq) : Prop :=
  ∀ level pte, specEnd rd r.satp r.addr = some (level, pte) →
    WellFormedLeaf level pte → permits r pte = true → (ppnOf pte).toNat < 2 ^ 20

/-- Every page number on the path is below `2^20`. -/
structure PagesBelow (rd : BitVec 32 → Word) (r : CpuReq) : Prop extends TablesBelow rd r where
  leaf : LeafBelow rd r

/-- With tables below 4 GiB, the walk of the machine is the specified one. -/
theorem endEntry_eq_specEnd {rd : BitVec 32 → Word} {satp address : Word}
    (hroot : (satpPpnOf satp).toNat < 2 ^ 20)
    (hptr : pteLinks (specPte1 rd satp address) = true →
      (ppnOf (specPte1 rd satp address)).toNat < 2 ^ 20) :
    endEntry rd satp address = specEnd rd satp address := by
  unfold endEntry specEnd
  rw [pathPte1_eq rd hroot]
  cases hl : pteLinks (specPte1 rd satp address) with
  | false => rfl
  | true => rw [pathPte0_eq rd hroot (hptr hl)]

/-- The outcome for a leaf that permits the access. -/
theorem check_wellFormedLeaf {level : BitVec 2} {pte : Word} (hwf : WellFormedLeaf level pte)
    (hp : permits r pte = true) :
    r.check (endPte level r.addr pte) =
      .physical (((pageOf level pte r.addr ++ offsetOf r.addr).setWidth 32).setWidth 34) := by
  rw [endPte, hwf.valid, if_pos rfl, CpuReq.check, faults_leafPte r hwf.readable, hp,
    physicalOf_seenPte, physicalOf_leafPte hwf]
  rfl

theorem page_append_lt_iff (level : BitVec 2) (pte address : Word) :
    (pageOf level pte address ++ offsetOf address).toNat < 2 ^ 32 ↔
      (ppnOf pte).toNat < 2 ^ 20 := by
  have ho := (offsetOf address).isLt
  rw [← pageOf_lt_iff level pte address, page_append_toNat]
  omega

/-- With tables below 4 GiB the access is the specified one exactly if the page is there too,
whether the request hits the TLB or not. -/
theorem accessesFullPage_iff (hrest : s.mmu.AtRest) (hheld : s.mem.held = none)
    (htlb : TlbsFor s.mem.content r.satp r.addr s.mmu.ptw) (hv : r.valid = true)
    (hans : ∀ n, ∃ m, n ≤ m ∧ answer m = true) (hmode : satpModeOf r.satp = true)
    (hm : r.machine = false) (ht : TablesBelow s.mem.content r) :
    AccessesFullPage s r answer ↔ LeafBelow s.mem.content r := by
  have hres := hasResult_iff (r := r) hrest hheld (fun _ => htlb) hv hans
  have houtcome : ∀ level pte, specEnd s.mem.content r.satp r.addr = some (level, pte) →
      WellFormedLeaf level pte → permits r pte = true →
      (r.walkOutcome s.mem.content = some (.physical (pageOf level pte r.addr ++ offsetOf r.addr)) ↔
        (ppnOf pte).toNat < 2 ^ 20) := by
    intro level pte hend hwf hp
    rw [walkOutcome_eq_map hm hmode, endEntry_eq_specEnd ht.root ht.pointer, hend, Option.map_some,
      check_wellFormedLeaf hwf hp, Option.some.injEq, Outcome.physical.injEq,
      setWidth_setWidth_eq_iff, page_append_lt_iff]
  constructor
  · intro h level pte hend hwf hp
    exact (houtcome level pte hend hwf hp).1 ((hres _).1 (h.access level pte hend hwf hp))
  · intro h
    refine ⟨fun level pte hend hwf hp => ?_, fun level pte hend hwf hp pa hpa page hne offset => ?_⟩
    · exact (hres _).2 ((houtcome level pte hend hwf hp).2 (h level pte hend hwf hp))
    · have hout := (hres _).1 hpa
      rw [(houtcome level pte hend hwf hp).2 (h level pte hend hwf hp), Option.some.injEq,
        Outcome.physical.injEq] at hout
      rw [← hout]
      exact wordAddr_ne_of_page_ne hne _ _

/-- **34-bit addresses.**  From rest, for a translated request on a memory that answers again and
again.  If it misses the TLB, the bus addresses are the specified 34-bit ones exactly when every page
number on the path is below `2^20`; if it hits, and the tables are below 4 GiB, the access is the
specified one exactly when the page is. -/
theorem full_pages_iff (hrest : s.mmu.AtRest) (hheld : s.mem.held = none)
    (htlb : TlbsFor s.mem.content r.satp r.addr s.mmu.ptw) (hv : r.valid = true)
    (hans : ∀ n, ∃ m, n ≤ m ∧ answer m = true) (hmode : satpModeOf r.satp = true)
    (hm : r.machine = false) :
    (s.mmu.ptw.tlbHit r.satp r.addr r.isInstruction = false →
        (UsesFullPages s r answer ↔ PagesBelow s.mem.content r)) ∧
      (s.mmu.ptw.tlbHit r.satp r.addr r.isInstruction = true → TablesBelow s.mem.content r →
        (AccessesFullPage s r answer ↔ LeafBelow s.mem.content r)) := by
  have haccess := accessesFullPage_iff hrest hheld htlb hv hans hmode hm
  refine ⟨fun hmiss => ?_, fun _ => haccess⟩
  have hphase : ∀ k, (run s (holding r answer) k).Phase (holding r answer k).req :=
    phase_run (phase_of_atRest hrest hheld r) (held_holding r answer)
  constructor
  · intro h
    -- each read of an entry is at an address made of the page number before it
    have hroot : (satpPpnOf r.satp).toNat < 2 ^ 20 := by
      obtain ⟨k, hk, hl⟩ := exists_readsEntry1 hrest hheld hv hm hmode hmiss answer
      obtain ⟨-, haddr⟩ := hk.pathAt hphase
      exact ppn_lt_of_entryAddr (haddr.symm.trans (h.level1 k hk hl))
    have hptr : pteLinks (specPte1 s.mem.content r.satp r.addr) = true →
        (ppnOf (specPte1 s.mem.content r.satp r.addr)).toNat < 2 ^ 20 := by
      intro hlink
      rw [← pathPte1_eq _ hroot] at hlink
      obtain ⟨k, hk, hl⟩ := exists_readsEntry0 hrest hheld hv hm hmode hmiss answer hans hlink
      obtain ⟨-, haddr⟩ := hk.pathAt hphase
      exact ppn_lt_of_entryAddr (haddr.symm.trans (h.level0 k hk hl))
    -- and the access at one made of the page number of the leaf
    exact ⟨⟨hroot, hptr⟩, (haccess ⟨hroot, hptr⟩).1 h.toAccessesFullPage⟩
  · intro h
    refine ⟨(haccess h.toTablesBelow).2 h.leaf, fun k hk hl => ?_, fun k hk hl => ?_⟩
    · obtain ⟨hpath, haddr⟩ := hk.pathAt hphase
      rcases hpath with ⟨-, hb⟩ | ⟨h0, -⟩ | ⟨h3, -⟩
      · rw [haddr, TableWalk.memAddr, hl, hb]
        exact walkMemAddr_root h.root r.addr
      · rw [hl] at h0
        exact absurd h0 (by decide)
      · rw [hl] at h3
        exact absurd h3 (by decide)
    · obtain ⟨hpath, haddr⟩ := hk.pathAt hphase
      rcases hpath with ⟨h1, -⟩ | ⟨-, -, hlink, hb⟩ | ⟨h3, -⟩
      · rw [hl] at h1
        exact absurd h1 (by decide)
      · rw [pathPte1_eq _ h.root] at hlink hb
        rw [haddr, TableWalk.memAddr, hl, hb]
        exact walkMemAddr_pointer (h.pointer hlink) r.addr
      · rw [hl] at h3
        exact absurd h3 (by decide)

/-- The page of `onePage`. -/
theorem full_pages_iff_onePage : UsesFullPages (fresh onePage) sampleLoad fun _ => true := by
  have hend : specEnd onePage sampleLoad.satp sampleLoad.addr = some (0#2, 0x00048C0F#32) := by
    decide
  refine ((full_pages_iff (r := sampleLoad) (fresh_atRest onePage) rfl (fresh_tlbsFor onePage _ _)
    rfl (fun n => ⟨n, le_rfl, rfl⟩) (by decide) (by decide)).1
    (TlbsEmpty.tlbHit ⟨fun _ _ => rfl, fun _ _ => rfl⟩ _ _ _)).2
    ⟨⟨by decide, by decide⟩, fun level pte he _ _ => ?_⟩
  obtain ⟨-, rfl⟩ := Prod.mk.inj (Option.some.inj (hend.symm.trans he))
  decide

/-- Two pages of one address space, with the page numbers `0x123` and `0x100123`: loads from both
access the same word, the second one below 4 GiB instead of above it. -/
def aliasedPages : BitVec 32 → Word := fun a =>
  if a = 0x401#32 then 0x00000801#32 else if a = 0x801#32 then 0x00048C0F#32
  else if a = 0x802#32 then 0x40048C0F#32 else 0#32

theorem high_page_aliases :
    specEnd aliasedPages sampleLoad.satp 0x00402ABC#32 = some (0#2, 0x40048C0F#32) ∧
      WellFormedLeaf 0#2 0x40048C0F#32 ∧
      HasResult (fresh aliasedPages) sampleLoad (fun _ => true) (.physical 0x123ABC#34) ∧
      HasResult (fresh aliasedPages) { sampleLoad with addr := 0x00402ABC#32 } (fun _ => true)
        (.physical 0x123ABC#34) ∧
      ¬ UsesFullPages (fresh aliasedPages) { sampleLoad with addr := 0x00402ABC#32 }
        fun _ => true := by
  have hwf : WellFormedLeaf 0#2 0x40048C0F#32 := ⟨by decide, by decide, by decide, by decide⟩
  have hend : specEnd aliasedPages sampleLoad.satp 0x00402ABC#32 = some (0#2, 0x40048C0F#32) := by
    decide
  refine ⟨hend, hwf, fresh_hasResult rfl (by decide), fresh_hasResult rfl (by decide), fun h => ?_⟩
  exact not_hasResult_fresh rfl (by decide) (h.access 0#2 0x40048C0F#32 hend hwf (by decide))

end MmuSys

end KianRiscV
