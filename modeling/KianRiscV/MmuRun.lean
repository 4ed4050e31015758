/-
# The memory management unit with a memory

`sv32` between a client that holds its requests and a memory that answers a request
after an arbitrary number of cycles, at least one.  Every request whose walk ends is
answered or found to fault: a rank over the phases drops with every edge that does not
wait for the memory.
-/
import KianRiscV.WriteMask
import KianRiscV.TlbSound

namespace KianRiscV

/-! ## The memory -/

namespace Memory

variable {m : Memory} {q : BusReq} {i : MemIn}

theorem of_ready (h : m.ready q i = true) : q.valid = true ∧ m.held = some q := by
  simp only [ready, Bool.and_eq_true, beq_iff_eq] at h
  exact ⟨h.1.2, h.2⟩

/-- Reads leave the contents alone. -/
theorem next_content_of_read (h : q.wstrb = 0#4) : (m.next q i).content = m.content := by
  have hs : m.served q = m.content := by
    funext a
    unfold served
    split
    · rw [h, mergeBytes_zero]
    · rfl
  simp only [next, hs, ite_self]

end Memory

/-- The bus carries no strobes unless it carries the access itself. -/
theorem Sv32.busReq_wstrb {iw dw : ℕ} {m : Sv32 iw dw} (h : m.answers = false) :
    m.busReq.wstrb = 0#4 := by
  unfold Sv32.answers at h
  unfold Sv32.busReq
  cases hs : m.state with
  | idle => rfl
  | access => simp [hs] at h
  | translate =>
    rw [hs] at h
    simp only at h ⊢
    rw [h]
    rfl

/-! ## The rank of a phase -/

namespace Sv32

variable {iw dw : ℕ} {af : Bool} {rd : BitVec 32 → Word} {held : Option BusReq}
  {m : Sv32 iw dw} {r : CpuReq}

/-- How far a request is from its end. -/
def phaseRank (m : Sv32 iw dw) : ℕ :=
  match m.state with
  | .idle => 10
  | .access => 1
  | .translate =>
    if m.sel.ready then 2
    else if m.sel.state = .s1 then 3
    else match m.ptw.state with
      | .s0 => if m.ptw.ready then 4 else 9
      | .s1 => if m.ptw.level = 1#2 then 8 else 6
      | .s2 => if m.ptw.level = 1#2 then 7 else 5

/-- `sv32` waits for the memory: for an entry or for the access. -/
def waitsForMem (m : Sv32 iw dw) : Bool :=
  m.state == .access || (m.state == .translate && m.ptw.state == .s2)

theorem IdlePhase.phaseRank (h : m.IdlePhase af rd held r) : m.phaseRank = 10 := by
  simp [Sv32.phaseRank, h.state]

theorem RequestPhase.phaseRank (h : m.RequestPhase r) : m.phaseRank = 9 := by
  simp [Sv32.phaseRank, h.state, h.sel.ready, h.sel.state, h.walk, h.walkReady]

theorem LookupPhase.phaseRank (h : m.LookupPhase rd held r) :
    m.phaseRank = if m.ptw.level = 1#2 then 8 else 6 := by
  simp [Sv32.phaseRank, h.state, h.sel.ready, h.sel.state, h.walk]

theorem ReadPhase.phaseRank (h : m.ReadPhase rd held r) :
    m.phaseRank = if m.ptw.level = 1#2 then 7 else 5 := by
  simp [Sv32.phaseRank, h.state, h.sel.ready, h.sel.state, h.walk]

theorem AnsweredPhase.phaseRank (h : m.AnsweredPhase af rd r) : m.phaseRank = 4 := by
  simp [Sv32.phaseRank, h.state, h.sel.ready, h.sel.state, h.walk, h.walkReady]

theorem CheckPhase.phaseRank (h : m.CheckPhase af rd r) : m.phaseRank = 3 := by
  simp [Sv32.phaseRank, h.state, h.selReady, h.selState]

theorem DonePhase.phaseRank (h : m.DonePhase af rd held r) : m.phaseRank = 2 := by
  simp [Sv32.phaseRank, h.state, h.selReady]

theorem AccessPhase.phaseRank (h : m.AccessPhase rd held r) : m.phaseRank = 1 := by
  simp [Sv32.phaseRank, h.state]

/-- A request whose walk ends is never found on the all-ones level. -/
theorem LookupPhase.level_ne (h : m.LookupPhase rd held r)
    (hend : r.walkOutcome rd ≠ none) : m.ptw.level = 1#2 ∨ m.ptw.level = 0#2 := by
  rcases h.path with ⟨hl, -⟩ | ⟨hl, -⟩ | ⟨-, -, h1, h0⟩
  · exact .inl hl
  · exact .inr hl
  · refine absurd ?_ hend
    simp [CpuReq.walkOutcome, CpuReq.outcomeOf, h.machine, h.mode, walkPte, h1, h0]

/-- An edge without answer leaves a waiting phase waiting. -/
theorem Phase.wait_next (h : m.Phase af rd held r) (hw : m.waitsForMem = true) (rdata : Word) :
    (m.next r false false rdata).waitsForMem = true ∧
      (m.next r false false rdata).phaseRank = m.phaseRank := by
  cases h with
  | read h =>
    obtain ⟨hn, hl⟩ := h.next_wait false rdata
    refine ⟨?_, ?_⟩
    · simp [waitsForMem, hn.state, hn.walk]
    · rw [hn.phaseRank, h.phaseRank, hl]
  | access h =>
    obtain ⟨hn, -⟩ := h.next_wait rdata
    refine ⟨?_, ?_⟩
    · simp [waitsForMem, hn.state]
    · rw [hn.phaseRank, h.phaseRank]
  | idle h => simp [waitsForMem, h.state] at hw
  | request h => simp [waitsForMem, h.state, h.walk] at hw
  | lookup h => simp [waitsForMem, h.state, h.walk] at hw
  | answered h => simp [waitsForMem, h.state, h.walk] at hw
  | check h => simp [waitsForMem, h.state, h.walk] at hw
  | done h => simp [waitsForMem, h.state, h.walk] at hw

/-- In a waiting phase the request is on the bus and known to the memory. -/
theorem Phase.held_of_waits (h : m.Phase af rd held r) (hw : m.waitsForMem = true) :
    m.busReq.valid = true ∧ held = some m.busReq := by
  cases h with
  | read h => exact ⟨by rw [h.busReq], h.held⟩
  | access h => exact ⟨by rw [h.busReq]; rfl, h.held⟩
  | idle h => simp [waitsForMem, h.state] at hw
  | request h => simp [waitsForMem, h.state, h.walk] at hw
  | lookup h => simp [waitsForMem, h.state, h.walk] at hw
  | answered h => simp [waitsForMem, h.state, h.walk] at hw
  | check h => simp [waitsForMem, h.state, h.walk] at hw
  | done h => simp [waitsForMem, h.state, h.walk] at hw

/-- An edge that is not waiting for the memory brings the request nearer to its end, or
is the end. -/
theorem Phase.rank_next {rdy : Bool} {rdata : Word} (h : m.Phase false rd held r)
    (hv : r.valid = true) (hf : m.pageFault = false) (hend : r.walkOutcome rd ≠ none)
    (hbus : rdy = true → m.busReq.valid = true ∧ held = some m.busReq)
    (hrd : rdy = true → m.state = .translate → rdata = rd (wordAddr m.busReq.addr))
    (hgo : m.waitsForMem = true → rdy = true) :
    m.cpuReady rdy = true ∨ (m.next r false rdy rdata).pageFault = true ∨
      (m.next r false rdy rdata).phaseRank < m.phaseRank := by
  have hno := not_ready_of_not_held hbus
  -- one case for each phase: the rank of the next phase is smaller, whatever way it goes
  cases h with
  | idle h =>
    obtain rfl := hno (.inl h.busReq_valid)
    have hn := h.next_start hv hf false rdata
    exact .inr (.inr (by rw [hn.phaseRank, h.phaseRank]; omega))
  | request h =>
    obtain rfl := hno (.inl h.busReq_valid)
    refine .inr (.inr ?_)
    rw [h.phaseRank]
    cases hm : r.machine with
    | true =>
      have hn : (m.next r false false rdata).DonePhase false rd none r := h.next_machine hm false rdata
      rw [hn.phaseRank]; omega
    | false =>
      cases hmode : satpModeOf r.satp with
      | true =>
        obtain ⟨hn, hl⟩ : (m.next r false false rdata).LookupPhase rd none r ∧ _ :=
          h.next_lookup hm hmode false rdata
        rw [hn.phaseRank, hl]; decide
      | false =>
        have hn : (m.next r false false rdata).AnsweredPhase false rd r :=
          h.next_bare hm hmode false rdata
        rw [hn.phaseRank]; omega
  | lookup h =>
    obtain rfl := hno (.inr h.held)
    refine .inr (.inr ?_)
    rw [h.phaseRank]
    cases hh : m.ptw.tlbHit r.satp r.addr r.isInstruction with
    | true =>
      have hn : (m.next r false false rdata).AnsweredPhase false rd r := h.next_hit hh rdata
      rw [hn.phaseRank]
      split <;> omega
    | false =>
      have hl3 : m.ptw.level ≠ 3#2 := by
        rcases h.level_ne hend with hl | hl <;> rw [hl] <;> decide
      obtain ⟨hn, hl⟩ := h.next_read hh hl3 false rdata
      rw [hn.phaseRank, hl]
      split <;> omega
  | read h =>
    obtain rfl : rdy = true := hgo (by simp [waitsForMem, h.state, h.walk])
    refine .inr (.inr ?_)
    have hc : rdata = currentPte rd m r := by rw [hrd rfl h.state, h.busReq]; rfl
    rw [hc, h.phaseRank]
    cases hlink : pteLinks (currentPte rd m r) with
    | false =>
      have hn : (m.next r false true (currentPte rd m r)).AnsweredPhase false rd r :=
        h.next_end hlink
      rw [hn.phaseRank]
      split <;> omega
    | true =>
      obtain ⟨hn, hl⟩ := h.next_link hlink false
      rcases h.currentPte_cases with ⟨h1, -⟩ | ⟨h0, -⟩
      · rw [hn.phaseRank, hl, h1]
        decide
      · -- a pointer at level 0 would be a walk without end
        rcases hn.level_ne hend with hl' | hl' <;> rw [hl, h0] at hl' <;> exact absurd hl' (by decide)
  | answered h =>
    obtain rfl := hno (.inl h.busReq_valid)
    refine .inr (.inr ?_)
    rw [(h.next rdata).phaseRank, h.phaseRank]
    omega
  | check h =>
    obtain rfl := hno (.inl h.busReq_valid)
    refine .inr (.inr ?_)
    rw [(h.next rdata).phaseRank, h.phaseRank]
    omega
  | done h =>
    obtain rfl := hno (.inr h.held)
    cases hpf : m.sel.pageFault with
    | true => exact .inr (.inl (h.next_fault hpf rdata).2)
    | false =>
      refine .inr (.inr ?_)
      rw [(h.next_access hpf rdata).1.phaseRank, h.phaseRank]
      omega
  | access h =>
    obtain rfl : rdy = true := hgo (by simp [waitsForMem, h.state])
    exact .inl (by simp [cpuReady, answers, h.state])

end Sv32

/-! ## Runs -/

/-- `sv32` and the memory behind it. -/
structure MmuSys (iw dw : ℕ) where
  mmu : Sv32 iw dw
  mem : Memory

/-- One cycle: what the client presents, whether it flushes the TLBs, and whether the
memory answers. -/
structure MmuIn where
  req : CpuReq
  flush : Bool
  answer : Bool

namespace MmuSys

variable {iw dw : ℕ} {s : MmuSys iw dw} {i : MmuIn} {r' : CpuReq}

/-- `mem_ready`. -/
def ready (s : MmuSys iw dw) (i : MmuIn) : Bool := s.mem.ready s.mmu.busReq ⟨i.answer, false⟩

/-- `mem_rdata`. -/
def rdata (s : MmuSys iw dw) : Word := s.mem.content (wordAddr s.mmu.busReq.addr)

/-- One clock edge. -/
def next (s : MmuSys iw dw) (i : MmuIn) : MmuSys iw dw where
  mmu := s.mmu.next i.req i.flush (s.ready i) s.rdata
  mem := s.mem.next s.mmu.busReq ⟨i.answer, false⟩

/-- The processor side gets an answer in this cycle. -/
def Answered (s : MmuSys iw dw) (i : MmuIn) : Prop := s.mmu.cpuReady (s.ready i) = true

/-- The request ends in this cycle, with an answer or a page fault. -/
def Ends (s : MmuSys iw dw) (i : MmuIn) : Prop := s.Answered i ∨ s.mmu.pageFault = true

/-- The joint invariant, on a memory that refuses nothing. -/
def Phase (s : MmuSys iw dw) (r : CpuReq) : Prop := s.mmu.Phase false s.mem.content s.mem.held r

theorem of_ready (h : s.ready i = true) :
    s.mmu.busReq.valid = true ∧ s.mem.held = some s.mmu.busReq :=
  Memory.of_ready h

/-- The contents change only with an answer to the processor side. -/
theorem content_next (hc : ¬ s.Answered i) : (s.next i).mem.content = s.mem.content := by
  unfold Answered at hc
  rw [Bool.not_eq_true] at hc
  cases ha : s.mmu.answers with
  | false => exact Memory.next_content_of_read (Sv32.busReq_wstrb ha)
  | true =>
    have hr : s.mem.ready s.mmu.busReq ⟨i.answer, false⟩ = false := by
      simpa [Sv32.cpuReady, ha, ready] using hc
    simp [MmuSys.next, Memory.next, hr]

theorem Phase.next (h : s.Phase i.req)
    (hhold : s.mmu.Holds (s.ready i) i.flush i.req r') : (s.next i).Phase r' := by
  refine Sv32.Phase.next h of_ready (fun _ _ => .inl rfl) hhold fun hc => content_next ?_
  unfold Answered ready
  rw [hc]
  decide

/-- The result of a request that ends. -/
theorem Phase.result (h : s.Phase i.req) :
    (s.Answered i → i.req.outcome s.mmu.ptw s.mem.content = some (.physical s.mmu.busReq.addr) ∧
        s.mmu.busReq.wstrb = i.req.wstrb) ∧
      (s.mmu.pageFault = true →
        i.req.outcome s.mmu.ptw s.mem.content = some .pageFault ∧
          s.mmu.faultAddress = i.req.addr) := by
  constructor
  · intro hc
    have hacc := Sv32.Phase.access_of_cpuReady h (fun hr => (of_ready hr).2) hc
    rw [hacc.result, hacc.busReq]
    exact ⟨rfl, rfl⟩
  · intro hf
    cases h with
    | idle h =>
      obtain ⟨-, ha, ho | hno⟩ := h.fault hf
      · exact ⟨ho, ha⟩
      · exact absurd hno (by decide)
    | request h => simp [h.pageFault] at hf
    | lookup h => simp [h.pageFault] at hf
    | read h => simp [h.pageFault] at hf
    | answered h => simp [h.pageFault] at hf
    | check h => simp [h.pageFault] at hf
    | done h => simp [h.pageFault] at hf
    | access h => simp [h.pageFault] at hf

/-- The TLBs stay sound over an edge, for the memory before it. -/
theorem tlbsOk_next {i : MmuIn} {roots : Roots} (h : s.Phase i.req)
    (hadm : i.req.valid = true → satpModeOf i.req.satp = true → roots.Admits i.req.satp)
    (htlb : TlbsOk roots s.mem.content s.mmu.ptw) :
    TlbsOk roots s.mem.content (s.next i).mmu.ptw :=
  Sv32.Phase.tlbsOk_next h (fun _ _ => .inl rfl) hadm htlb

/-! ## Every request whose walk ends has a result -/

section Run

variable {inp : ℕ → MmuIn}

/-- The state after `n` cycles. -/
def run (s : MmuSys iw dw) (inp : ℕ → MmuIn) : ℕ → MmuSys iw dw := Sync.run next s inp

theorem run_succ (n : ℕ) : run s inp (n + 1) = (run s inp n).next (inp n) := rfl

/-- The client of the run holds its requests. -/
def Held (s : MmuSys iw dw) (inp : ℕ → MmuIn) : Prop :=
  ∀ n, (run s inp n).mmu.Holds ((run s inp n).ready (inp n)) (inp n).flush (inp n).req
    (inp (n + 1)).req

theorem phase_run (h0 : s.Phase (inp 0).req) (hheld : Held s inp) (n : ℕ) :
    (run s inp n).Phase (inp n).req := by
  induction n with
  | zero => exact h0
  | succ n ih => exact ih.next (hheld n)

/-- The request of cycle `n` is still presented in cycle `k`, and the memory is
unchanged. -/
structure Presented (s : MmuSys iw dw) (inp : ℕ → MmuIn) (n k : ℕ) : Prop where
  req : (inp n).req.SameAs (inp k).req
  content : (run s inp k).mem.content = (run s inp n).mem.content
  pending : ∀ j, n ≤ j → j < k → ¬ (run s inp j).Ends (inp j)

theorem Presented.succ {n k : ℕ} (hheld : Held s inp) (h : Presented s inp n k) (hnk : n ≤ k)
    (hv : (inp n).req.valid = true) (he : ¬ (run s inp k).Ends (inp k)) :
    Presented s inp n (k + 1) ∧ (inp k).flush = false := by
  simp only [Ends, not_or] at he
  have hv' : (inp k).req.valid = true := h.req.valid.trans hv
  have hc : (run s inp k).mmu.cpuReady ((run s inp k).ready (inp k)) = false := by
    simpa [Answered] using he.1
  obtain ⟨hs, hfl⟩ := hheld k hv' hc (by simpa using he.2)
  refine ⟨⟨h.req.trans hs, ?_, ?_⟩, hfl⟩
  · rw [run_succ, content_next he.1, h.content]
  · intro j hnj hj
    rcases Nat.lt_succ_iff_lt_or_eq.1 hj with hj | rfl
    · exact h.pending j hnj hj
    · simpa [Ends, not_or] using he

/-- The rank of a cycle: zero at the end of the request. -/
noncomputable def runRank (s : MmuSys iw dw) (inp : ℕ → MmuIn) (k : ℕ) : ℕ :=
  open Classical in
  if (run s inp k).Ends (inp k) then 0 else (run s inp k).mmu.phaseRank + 1

theorem runRank_of_ends {k : ℕ} (h : (run s inp k).Ends (inp k)) : runRank s inp k = 0 :=
  if_pos h

theorem runRank_of_not_ends {k : ℕ} (h : ¬ (run s inp k).Ends (inp k)) :
    runRank s inp k = (run s inp k).mmu.phaseRank + 1 :=
  if_neg h

/-- One cycle of a request that has not ended and, where it waits for the memory, is
answered. -/
theorem runRank_succ (hphase : ∀ k, (run s inp k).Phase (inp k).req) (hheld : Held s inp)
    {n k : ℕ} (hnk : n ≤ k) (hv : (inp n).req.valid = true) (hk : Presented s inp n k)
    (hend : (inp n).req.walkOutcome (run s inp n).mem.content ≠ none)
    (he : ¬ (run s inp k).Ends (inp k))
    (hgo : (run s inp k).mmu.waitsForMem = true → (run s inp k).ready (inp k) = true) :
    Presented s inp n (k + 1) ∧ runRank s inp (k + 1) < runRank s inp k := by
  obtain ⟨hk', hfl⟩ := hk.succ hheld hnk hv he
  refine ⟨hk', ?_⟩
  rw [runRank_of_not_ends he]
  by_cases he' : (run s inp (k + 1)).Ends (inp (k + 1))
  · rw [runRank_of_ends he']
    omega
  rw [runRank_of_not_ends he']
  simp only [Ends, not_or] at he he'
  have hend' : (inp k).req.walkOutcome (run s inp k).mem.content ≠ none := by
    rw [hk.content, hk.req.walkOutcome]
    exact hend
  rcases (hphase k).rank_next (hk.req.valid.trans hv) (by simpa using he.2) hend' of_ready
    (fun _ _ => rfl) hgo with h | h | h
  · exact absurd h he.1
  · refine absurd ?_ he'.2
    rw [run_succ, MmuSys.next, hfl]
    exact h
  · rw [run_succ, MmuSys.next, hfl]
    exact Nat.succ_lt_succ h

/-- **A request whose walk ends has a result**: on a memory that answers again and
again it is held until the first cycle that answers it or finds its page fault. -/
theorem exists_ends (hphase : ∀ k, (run s inp k).Phase (inp k).req) (hheld : Held s inp)
    (hans : ∀ n, ∃ m, n ≤ m ∧ (inp m).answer = true) {n : ℕ}
    (hv : (inp n).req.valid = true)
    (hend : (inp n).req.walkOutcome (run s inp n).mem.content ≠ none) :
    ∃ k, n ≤ k ∧ Presented s inp n k ∧ (run s inp k).Ends (inp k) := by
  -- the rank of the run drops from one answer of the memory to the next
  have hstep : ∀ k, (n ≤ k ∧ Presented s inp n k) →
      (n ≤ k ∧ Presented s inp n k ∧ (run s inp k).Ends (inp k)) ∨
      ∃ j, k < j ∧ (n ≤ j ∧ Presented s inp n j) ∧ runRank s inp j < runRank s inp k := by
    rintro k ⟨hnk, hk⟩
    by_cases he : (run s inp k).Ends (inp k)
    · exact .inl ⟨hnk, hk, he⟩
    right
    by_cases hw : (run s inp k).mmu.waitsForMem = true
    · -- wait for the answer
      have hstay : ∀ j, ((n ≤ j ∧ Presented s inp n j) ∧ (run s inp j).mmu.waitsForMem = true ∧
            (run s inp j).mmu.phaseRank = (run s inp k).mmu.phaseRank) →
          ¬ (inp j).answer = true →
          ((n ≤ j + 1 ∧ Presented s inp n (j + 1)) ∧
            (run s inp (j + 1)).mmu.waitsForMem = true ∧
            (run s inp (j + 1)).mmu.phaseRank = (run s inp k).mmu.phaseRank) := by
        rintro j ⟨⟨hnj, hj⟩, hwj, hrj⟩ ha
        have hready : (run s inp j).ready (inp j) = false := by
          simp [ready, Memory.ready, Bool.eq_false_of_not_eq_true ha]
        have hej : ¬ (run s inp j).Ends (inp j) := by
          have hbusy : (run s inp j).mmu.state ≠ .idle := by
            intro hidle
            simp [Sv32.waitsForMem, hidle] at hwj
          simp [Ends, Answered, Sv32.cpuReady, hready,
            (Sv32.Phase.latched_of_busy (hphase j) hbusy).2]
        obtain ⟨hj', hfl⟩ := hj.succ hheld hnj hv hej
        obtain ⟨hw', hr'⟩ := Sv32.Phase.wait_next (hphase j) hwj (run s inp j).rdata
        refine ⟨⟨by omega, hj'⟩, ?_, ?_⟩
        · rw [run_succ, MmuSys.next, hfl, hready]; exact hw'
        · rw [run_succ, MmuSys.next, hfl, hready]; exact hr'.trans hrj
      obtain ⟨j, hkj, ⟨⟨hnj, hj⟩, hwj, hrj⟩, ha⟩ :=
        Sync.exists_of_wait hstay ⟨⟨hnk, hk⟩, hw, rfl⟩ (hans k)
      by_cases hej : (run s inp j).Ends (inp j)
      · refine ⟨j, lt_of_le_of_ne hkj ?_, ⟨hnj, hj⟩, ?_⟩
        · rintro rfl
          exact he hej
        · rw [runRank_of_ends hej, runRank_of_not_ends he]
          omega
      · have hready : (run s inp j).ready (inp j) = true := by
          obtain ⟨hbv, hbh⟩ := Sv32.Phase.held_of_waits (hphase j) hwj
          simp [ready, Memory.ready, ha, hbv, hbh]
        obtain ⟨hj', hlt⟩ := runRank_succ hphase hheld hnj hv hj hend hej fun _ => hready
        refine ⟨j + 1, by omega, ⟨by omega, hj'⟩, ?_⟩
        have hrank : runRank s inp j = runRank s inp k := by
          rw [runRank_of_not_ends hej, runRank_of_not_ends he, hrj]
        rw [← hrank]
        exact hlt
    · obtain ⟨hk', hlt⟩ := runRank_succ hphase hheld hnk hv hk hend he fun h => absurd h hw
      exact ⟨k + 1, by omega, ⟨by omega, hk'⟩, hlt⟩
  have hn : Presented s inp n n :=
    ⟨CpuReq.SameAs.refl _, rfl, fun j hnj hj => absurd hj (by omega)⟩
  obtain ⟨k, -, hk⟩ := Sync.eventually_of_rank (runRank s inp) hstep ⟨le_rfl, hn⟩
  exact ⟨k, hk⟩

end Run

end MmuSys

end KianRiscV
