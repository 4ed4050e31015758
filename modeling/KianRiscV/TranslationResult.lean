/-
# The result of a request that is held

`sv32` at rest, a client that presents one request and holds it, and a memory that answers
again and again.  `HasResult` says how the request first ends: with an access at a physical
address, or with a page fault and nothing but reads of entries on the bus.  With TLBs that are
sound for the address, the result is the one of walking memory, and a walk without end has none
(`hasResult_iff`).
-/
import KianRiscV.MmuRun

namespace KianRiscV

/-- `sv32` with no request in work and nothing to report. -/
structure Sv32.AtRest {iw dw : ℕ} (m : Sv32 iw dw) : Prop where
  state : m.state = .idle
  instr : m.instrTranslator.Quiet
  data : m.dataTranslator.Quiet
  instrValid : m.instrTranslateValid = false
  dataValid : m.dataTranslateValid = false
  walk : m.ptw.state = .s0
  walkReady : m.ptw.ready = false
  pending : m.translationPendingQ = false
  pageFault : m.pageFault = false

namespace MmuSys

variable {iw dw : ℕ} {s : MmuSys iw dw}

theorem phase_of_atRest (h : s.mmu.AtRest) (hh : s.mem.held = none) (r : CpuReq) :
    s.Phase r :=
  .idle { h with
    held := hh
    pending := fun hp => by simp [h.pending] at hp
    fault := fun hf => by simp [h.pageFault] at hf }

/-- The inputs of a client that presents one request for ever. -/
def holding (r : CpuReq) (answer : ℕ → Bool) : ℕ → MmuIn := fun n => ⟨r, false, answer n⟩

theorem held_holding (r : CpuReq) (answer : ℕ → Bool) : Held s (holding r answer) :=
  fun _ _ _ _ => ⟨CpuReq.SameAs.refl r, rfl⟩

/-! ## Along the run of a held request -/

section Held

variable {r : CpuReq} {answer : ℕ → Bool} {k : ℕ}

/-- Nothing is written before the request ends. -/
theorem presented_holding
    (hk : ∀ j, j < k → ¬ (run s (holding r answer) j).Ends (holding r answer j)) :
    Presented s (holding r answer) 0 k := by
  refine ⟨CpuReq.SameAs.refl r, ?_, fun j _ hj => hk j hj⟩
  induction k with
  | zero => rfl
  | succ k ih =>
    have hne := hk k (by omega)
    rw [run_succ, content_next fun ha => hne (.inl ha), ih fun j hj => hk j (by omega)]

/-- The TLBs stay sound for the address of the request. -/
theorem tlbsFor_holding
    (hphase : ∀ k, (run s (holding r answer) k).Phase r)
    (htlb : TlbsFor s.mem.content r.satp r.addr s.mmu.ptw)
    (hk : ∀ j, j < k → ¬ (run s (holding r answer) j).Ends (holding r answer j)) :
    TlbsFor s.mem.content r.satp r.addr (run s (holding r answer) k).mmu.ptw := by
  induction k with
  | zero => exact htlb
  | succ k ih =>
    have hkk : ∀ j, j < k → ¬ (run s (holding r answer) j).Ends (holding r answer j) :=
      fun j hj => hk j (by omega)
    have hcontent : (run s (holding r answer) k).mem.content = s.mem.content :=
      (presented_holding hkk).content
    have hsound := ih hkk
    rw [← hcontent] at hsound ⊢
    exact Sv32.Phase.tlbsFor_next (hphase k) (fun _ _ => .inl rfl) (fun _ _ _ => rfl) hsound

/-- Up to its end the request has the result of walking the memory of the beginning. -/
theorem outcome_holding
    (hphase : ∀ k, (run s (holding r answer) k).Phase r)
    (htlb : satpModeOf r.satp = true → TlbsFor s.mem.content r.satp r.addr s.mmu.ptw)
    (hk : ∀ j, j < k → ¬ (run s (holding r answer) j).Ends (holding r answer j)) :
    r.outcome (run s (holding r answer) k).mmu.ptw (run s (holding r answer) k).mem.content
      = r.walkOutcome s.mem.content := by
  have hcontent : (run s (holding r answer) k).mem.content = s.mem.content :=
    (presented_holding hk).content
  rw [hcontent]
  exact TlbsFor.outcome fun hmode => tlbsFor_holding hphase (htlb hmode) hk

end Held

/-- An access on the bus is at the address of the request's result. -/
theorem Phase.physical_of_answers {r : CpuReq} (h : s.Phase r) (ha : s.mmu.answers = true) :
    r.outcome s.mmu.ptw s.mem.content = some (.physical s.mmu.busReq.addr) := by
  have hbusy : ∀ {m : Sv32 iw dw}, m.Translating r → m.sel.ready = false → m.answers = false := by
    intro m ht hr
    simp [Sv32.answers, ht.state, Sv32.translationDone_eq ht.other, hr]
  cases h with
  | idle h => simp [Sv32.answers, h.state] at ha
  | request h => rw [hbusy h.toTranslating h.sel.ready] at ha; cases ha
  | lookup h => rw [hbusy h.toTranslating h.sel.ready] at ha; cases ha
  | read h => rw [hbusy h.toTranslating h.sel.ready] at ha; cases ha
  | answered h => rw [hbusy h.toTranslating h.sel.ready] at ha; cases ha
  | check h => rw [hbusy h.toTranslating h.selReady] at ha; cases ha
  | done h =>
    have hf : s.mmu.sel.pageFault = false := by
      simpa [Sv32.answers, h.state, Sv32.anyPageFault_eq h.other, Sv32.translationDone_eq h.other,
        h.selReady] using ha
    rcases h.result with hres | ⟨hno, -⟩
    · rw [hres, h.busReq hf, hf]
      rfl
    · cases hno
  | access h =>
    rw [h.result, h.busReq]
    rfl

/-! ## The result -/

/-- How a request held from `s` first ends. -/
def HasResult (s : MmuSys iw dw) (r : CpuReq) (answer : ℕ → Bool) : Outcome → Prop
  | .physical pa =>
    ∃ n, (∀ k, k < n → ¬ (run s (holding r answer) k).Ends (holding r answer k)) ∧
      (run s (holding r answer) n).Answered (holding r answer n) ∧
      (run s (holding r answer) n).mmu.pageFault = false ∧
      (run s (holding r answer) n).mmu.busReq.valid = true ∧
      (run s (holding r answer) n).mmu.busReq.addr = pa ∧
      (run s (holding r answer) n).mmu.busReq.wstrb = r.wstrb
  | .pageFault =>
    ∃ n, (∀ k, k < n → ¬ (run s (holding r answer) k).Ends (holding r answer k)) ∧
      (∀ k, k ≤ n → (run s (holding r answer) k).mmu.answers = false) ∧
      (run s (holding r answer) n).mmu.pageFault = true ∧
      (run s (holding r answer) n).mmu.faultAddress = r.addr ∧
      (run s (holding r answer) n).mem.content = s.mem.content

theorem hasResult_iff (hrest : s.mmu.AtRest) (hheld : s.mem.held = none) {r : CpuReq}
    (htlb : satpModeOf r.satp = true → TlbsFor s.mem.content r.satp r.addr s.mmu.ptw)
    (hv : r.valid = true) {answer : ℕ → Bool} (hans : ∀ n, ∃ m, n ≤ m ∧ answer m = true)
    (o : Outcome) : HasResult s r answer o ↔ r.walkOutcome s.mem.content = some o := by
  have hphase : ∀ k, (run s (holding r answer) k).Phase (holding r answer k).req :=
    phase_run (phase_of_atRest hrest hheld r) (held_holding r answer)
  constructor
  · intro h
    cases o with
    | physical pa =>
      obtain ⟨n, hpend, ha, -, -, rfl, -⟩ := h
      rw [← outcome_holding hphase htlb hpend]
      exact ((hphase n).result.1 ha).1
    | pageFault =>
      obtain ⟨n, hpend, -, hf, -⟩ := h
      rw [← outcome_holding hphase htlb hpend]
      exact ((hphase n).result.2 hf).1
  · intro ho
    -- the walk ends, and until then the request is presented on the same memory
    obtain ⟨n, -, hpres, hends⟩ := exists_ends (n := 0) hphase (held_holding r answer) hans hv
      (by rw [show (holding r answer 0).req = r from rfl]; exact ho ▸ Option.some_ne_none _)
    have hpend : ∀ k, k < n → ¬ (run s (holding r answer) k).Ends (holding r answer k) :=
      fun k hk => hpres.pending k (Nat.zero_le k) hk
    have hout := fun {k : ℕ} (hk : k ≤ n) =>
      (outcome_holding (k := k) hphase htlb fun j hj => hpend j (by omega)).trans ho
    obtain ⟨hanswered, hfault⟩ := (hphase n).result
    rcases hends with ha | hf
    · obtain ⟨hphys, hw⟩ := hanswered ha
      obtain rfl := Option.some.inj (hphys.symm.trans (hout le_rfl))
      have hacc := Sv32.Phase.access_of_cpuReady (hphase n) (fun hr => (of_ready hr).2) ha
      exact ⟨n, hpend, ha, hacc.pageFault, by rw [hacc.busReq]; rfl, rfl, hw⟩
    · obtain ⟨hpf, haddr⟩ := hfault hf
      obtain rfl := Option.some.inj (hpf.symm.trans (hout le_rfl))
      refine ⟨n, hpend, fun k hk => ?_, hf, haddr, hpres.content⟩
      by_contra hne
      have hphys := (hphase k).physical_of_answers (Bool.eq_true_of_not_eq_false hne)
      cases Option.some.inj (hphys.symm.trans (hout hk))

end MmuSys

end KianRiscV
