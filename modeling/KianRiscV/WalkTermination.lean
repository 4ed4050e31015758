/-
# Termination of the page-table walk

`sv32_table_walk` on its own, with a request held by its client and a memory that
answers again and again.  The level counter wraps below level 0, and from the
all-ones level the walker goes back to `S0` without raising `ready`, where the held
request starts the same walk again.  So the walk ends, after at most two reads,
exactly when the TLB hits or no valid pointer stands at level 0.
-/
import KianRiscV.Sv32
import Mathlib.Order.Nat
import Mathlib.Data.Nat.Count

namespace KianRiscV

/-! ## The walker with its client and its memory -/

/-- What surrounds the walker: the request its client holds, the page tables by byte
address, the cycles in which memory answers a request on the bus, the words on the bus
in the other cycles, and the cycles with a TLB flush. -/
structure WalkEnv where
  address : Word
  satp : Word
  isInstruction : Bool
  mem : Word → Word
  answer : ℕ → Bool
  noise : ℕ → Word
  flush : ℕ → Bool

namespace WalkEnv

variable {iw dw : ℕ} {e : WalkEnv} {w : TableWalk iw dw}

/-- `walk_mem_ready` in cycle `n`. -/
def memReady (e : WalkEnv) (n : ℕ) (w : TableWalk iw dw) : Bool :=
  e.answer n && w.memValid e.satp e.address e.isInstruction

/-- The inputs of the walker in cycle `n`. -/
def input (e : WalkEnv) (n : ℕ) (w : TableWalk iw dw) : WalkIn where
  address := e.address
  satp := e.satp
  isInstruction := e.isInstruction
  tlbFlush := e.flush n
  valid := true
  memReady := e.memReady n w
  memRdata := if e.memReady n w then e.mem (w.memAddr e.address) else e.noise n

/-- The walker after `n` cycles. -/
def walk (e : WalkEnv) (w : TableWalk iw dw) : ℕ → TableWalk iw dw :=
  Sync.run (fun w n => w.next (e.input n w)) w id

theorem walk_succ (n : ℕ) : e.walk w (n + 1) = (e.walk w n).next (e.input n (e.walk w n)) := rfl

/-- Cycle `n` completes a read of a page-table entry. -/
def reads (e : WalkEnv) (w : TableWalk iw dw) (n : ℕ) : Bool :=
  (e.walk w n).state == .s2 && e.memReady n (e.walk w n)

/-- The word read in cycle `n`. -/
def readWord (e : WalkEnv) (w : TableWalk iw dw) (n : ℕ) : Word :=
  e.mem ((e.walk w n).memAddr e.address)

/-- The entry of level 1 on the path of the request. -/
def pte1 (e : WalkEnv) : Word := e.mem (walkMemAddr (satpBase e.satp) e.address 1#2)

/-- The entry of level 0 on the path, below a pointer at level 1. -/
def pte0 (e : WalkEnv) : Word := e.mem (walkMemAddr (pointerBase e.pte1) e.address 0#2)

/-- A valid pointer stands at level 0 of the path. -/
def pointerAtLevel0 (e : WalkEnv) : Bool :=
  pteV e.pte1 && pteIsPointer e.pte1 && pteV e.pte0 && pteIsPointer e.pte0

/-- Both translators raise a page fault on this entry, for every privilege mode,
`mstatus` and direction of the access. -/
def RaisesPageFault (pte : Word) : Prop :=
  ∀ (priv : BitVec 2) (mstatus : Word) (isWrite : Bool),
    instrPageFault priv pte = true ∧ dataPageFault priv mstatus isWrite (mxrPte mstatus pte) = true

/-- The walk ends in cycle `n`, for the first time with `ready`, after at most two
reads; and if one of them was a valid pointer at level 0, with an entry that raises a
page fault. -/
def EndsAt (e : WalkEnv) (w : TableWalk iw dw) (n : ℕ) : Prop :=
  (e.walk w n).ready = true ∧ (∀ m, m < n → (e.walk w m).ready = false) ∧
    Nat.count (fun m => e.reads w m = true) n ≤ 2 ∧
    ((∃ m, m < n ∧ e.reads w m = true ∧ (e.walk w m).level = 0#2 ∧
        pteV (e.readWord w m) = true ∧ pteIsPointer (e.readWord w m) = true) →
      RaisesPageFault (e.walk w n).pte)

/-! ## Phases of a walk that misses -/

/-- `S1` or `S2` at the given level, with the base of the table of that level and
without a hit. -/
structure At (e : WalkEnv) (w : TableWalk iw dw) (st : WalkState) (level : BitVec 2) (base : Word) :
    Prop where
  state : w.state = st
  level : w.level = level
  base : w.base = base
  ready : w.ready = false
  miss : w.tlbHit e.satp e.address e.isInstruction = false

/-- The edge from `S0` starts a walk at level 1. -/
theorem start_next (hmode : satpModeOf e.satp = true) (hs : w.state = .s0)
    (hr : w.ready = false) (n : ℕ) :
    (w.next (e.input n w)).state = .s1 ∧ (w.next (e.input n w)).level = 1#2 ∧
      (w.next (e.input n w)).base = satpBase e.satp ∧ (w.next (e.input n w)).ready = false ∧
      (w.next (e.input n w)).tlbHit e.satp e.address e.isInstruction
        = (!e.flush n && w.tlbHit e.satp e.address e.isInstruction) := by
  refine ⟨?_, ?_, ?_, ?_, TableWalk.tlbHit_next (TableWalk.fillsTlb_of_ne_s2 ?_) _ _ _⟩
  · simp [TableWalk.next, TableWalk.stateNxt, hs, hr, input, hmode]
  · simp [TableWalk.next, TableWalk.levelNxt, hs, input, hmode]
  · simp [TableWalk.next, TableWalk.baseNxt, hs, input]
  · simp [TableWalk.next, TableWalk.readyNxt, hs, input, hmode]
  · simp [hs]

/-- A miss stays a miss over an edge that fills no entry. -/
theorem At.miss_next {st : WalkState} {level : BitVec 2} {base : Word} (h : e.At w st level base)
    {n : ℕ} (hf : w.fillsTlb (e.input n w) = false) :
    (w.next (e.input n w)).tlbHit e.satp e.address e.isInstruction = false := by
  rw [TableWalk.tlbHit_next hf, h.miss, Bool.and_false]

/-- `S1` puts the read on the bus. -/
theorem At.next_s1 {level : BitVec 2} {base : Word} (h : e.At w .s1 level base)
    (hl : level ≠ 3#2) (n : ℕ) : e.At (w.next (e.input n w)) .s2 level base where
  state := by
    have hm := h.miss
    simp [TableWalk.next, TableWalk.stateNxt, h.state, h.level, hl, input, hm]
  level := by simp [TableWalk.next, TableWalk.levelNxt, h.state, h.level]
  base := by simp [TableWalk.next, TableWalk.baseNxt, h.state, h.base]
  ready := by
    have hm := h.miss
    simp [TableWalk.next, TableWalk.readyNxt, h.state, h.ready, input, hm]
  miss := h.miss_next (TableWalk.fillsTlb_of_ne_s2 (by simp [h.state]))

theorem At.memReady_s2 {level : BitVec 2} {base : Word} (h : e.At w .s2 level base) (n : ℕ) :
    e.memReady n w = e.answer n := by
  simp [memReady, TableWalk.memValid, h.state]

/-- `S2` waits. -/
theorem At.next_s2_wait {level : BitVec 2} {base : Word} (h : e.At w .s2 level base) {n : ℕ}
    (ha : e.answer n = false) : e.At (w.next (e.input n w)) .s2 level base := by
  have hr : (e.input n w).memReady = false := (h.memReady_s2 n).trans ha
  constructor
  · simp [TableWalk.next, TableWalk.stateNxt, h.state, hr]
  · simp [TableWalk.next, TableWalk.levelNxt, h.state, hr, h.level]
  · simp [TableWalk.next, TableWalk.baseNxt, h.state, hr, h.base]
  · simp [TableWalk.next, TableWalk.readyNxt, h.state, hr, h.ready]
  · exact h.miss_next (TableWalk.fillsTlb_of_not_ready hr)

/-- The answer to a read: a valid pointer leads to the next level, anything else
ends the walk. -/
theorem At.next_s2_answer {level : BitVec 2} {base : Word} (h : e.At w .s2 level base) {n : ℕ}
    (ha : e.answer n = true) :
    (pteV (e.mem (walkMemAddr base e.address level)) = true ∧
        pteIsPointer (e.mem (walkMemAddr base e.address level)) = true ∧
        e.At (w.next (e.input n w)) .s1 (level - 1#2)
          (pointerBase (e.mem (walkMemAddr base e.address level)))) ∨
      ((pteV (e.mem (walkMemAddr base e.address level)) &&
          pteIsPointer (e.mem (walkMemAddr base e.address level))) = false ∧
        (w.next (e.input n w)).ready = true) := by
  have hr : (e.input n w).memReady = true := (h.memReady_s2 n).trans ha
  have hd : (e.input n w).memRdata = e.mem (walkMemAddr base e.address level) := by
    have : e.memReady n w = true := hr
    simp [input, this, TableWalk.memAddr, h.base, h.level]
  generalize e.mem (walkMemAddr base e.address level) = pte at hd ⊢
  cases hp : (pteV pte && pteIsPointer pte) with
  | false => right; simp [TableWalk.next, TableWalk.readyNxt, h.state, hr, hd, hp]
  | true =>
    obtain ⟨hv, hptr⟩ : pteV pte = true ∧ pteIsPointer pte = true := by simpa using hp
    refine .inl ⟨hv, hptr, ?_⟩
    constructor
    · simp [TableWalk.next, TableWalk.stateNxt, TableWalk.readyNxt, h.state, hr, hd, hv, hptr]
    · simp [TableWalk.next, TableWalk.levelNxt, h.state, hr, hd, hv, hptr, h.level]
    · simp [TableWalk.next, TableWalk.baseNxt, h.state, hr, hd, hv, hptr]
    · simp [TableWalk.next, TableWalk.readyNxt, h.state, hr, hd, hv, hptr]
    · exact h.miss_next (by simp [TableWalk.fillsTlb, hd, hptr])

/-- The all-ones level ends in `S0`, without `ready`. -/
theorem At.next_wrapped {base : Word} (h : e.At w .s1 3#2 base) (n : ℕ) :
    (w.next (e.input n w)).state = .s0 ∧ (w.next (e.input n w)).ready = false ∧
      (w.next (e.input n w)).tlbHit e.satp e.address e.isInstruction = false := by
  have hm := h.miss
  refine ⟨?_, ?_, h.miss_next (TableWalk.fillsTlb_of_ne_s2 (by simp [h.state]))⟩
  · simp [TableWalk.next, TableWalk.stateNxt, h.state, h.level]
  · simp [TableWalk.next, TableWalk.readyNxt, h.state, h.ready, input, hm]

/-! ## A walk that ends -/

/-- Up to cycle `n` there was no `ready`, `k` reads, and no valid pointer read at
level 0. -/
structure Before (e : WalkEnv) (w : TableWalk iw dw) (n k : ℕ) : Prop where
  ready : ∀ m, m ≤ n → (e.walk w m).ready = false
  count : Nat.count (fun m => e.reads w m = true) n = k
  noPointer : ∀ m, m < n → e.reads w m = true → (e.walk w m).level = 0#2 →
    (pteV (e.readWord w m) && pteIsPointer (e.readWord w m)) = false

/-- A cycle without read. -/
theorem Before.succ {n k : ℕ} (h : e.Before w n k) (hr : e.reads w n = false)
    (hn : (e.walk w (n + 1)).ready = false) : e.Before w (n + 1) k where
  ready := by
    intro m hm
    rcases Nat.le_succ_iff.1 hm with h' | rfl
    · exact h.ready m h'
    · exact hn
  count := by rw [Nat.count_succ, h.count, if_neg (by simp [hr]), Nat.add_zero]
  noPointer := by
    intro m hm hrd hl
    rcases Nat.lt_succ_iff_lt_or_eq.1 hm with h' | rfl
    · exact h.noPointer m h' hrd hl
    · simp [hr] at hrd

/-- A cycle with a read above level 0. -/
theorem Before.succ_read {n k : ℕ} (h : e.Before w n k) (hl : (e.walk w n).level ≠ 0#2)
    (hr : e.reads w n = true) (hn : (e.walk w (n + 1)).ready = false) :
    e.Before w (n + 1) (k + 1) where
  ready := by
    intro m hm
    rcases Nat.le_succ_iff.1 hm with h' | rfl
    · exact h.ready m h'
    · exact hn
  count := by rw [Nat.count_succ, h.count, if_pos hr]
  noPointer := by
    intro m hm hrd hl'
    rcases Nat.lt_succ_iff_lt_or_eq.1 hm with h' | rfl
    · exact h.noPointer m h' hrd hl'
    · exact absurd hl' hl

/-- The cycle that ends the walk. -/
theorem Before.endsAt {n k : ℕ} (h : e.Before w n k) (hk : k ≤ 1)
    (hp : e.reads w n = true → (e.walk w n).level = 0#2 →
      (pteV (e.readWord w n) && pteIsPointer (e.readWord w n)) = false)
    (hn : (e.walk w (n + 1)).ready = true) : e.EndsAt w (n + 1) := by
  refine ⟨hn, fun m hm => h.ready m (by omega), ?_, ?_⟩
  · rw [Nat.count_succ, h.count]
    split <;> omega
  · rintro ⟨m, hm, hr, hl, hv, hptr⟩
    have hno : (pteV (e.readWord w m) && pteIsPointer (e.readWord w m)) = false := by
      rcases Nat.lt_succ_iff_lt_or_eq.1 hm with h' | rfl
      · exact h.noPointer m h' hr hl
      · exact hp hr hl
    simp [hv, hptr] at hno

theorem reads_of_ne_s2 {n : ℕ} (h : (e.walk w n).state ≠ .s2) : e.reads w n = false := by
  simp [reads, h]

/-- A read on the bus is answered, and nothing changes until then. -/
theorem exists_answer (hans : ∀ n, ∃ m, n ≤ m ∧ e.answer m = true) {level : BitVec 2}
    {base : Word} {n k : ℕ} (hat : e.At (e.walk w n) .s2 level base) (hb : e.Before w n k) :
    ∃ m, e.At (e.walk w m) .s2 level base ∧ e.Before w m k ∧ e.answer m = true := by
  have stay : ∀ i, (e.At (e.walk w i) .s2 level base ∧ e.Before w i k) → ¬ e.answer i = true →
      (e.At (e.walk w (i + 1)) .s2 level base ∧ e.Before w (i + 1) k) := by
    rintro i ⟨hat, hb⟩ ha
    have ha' : e.answer i = false := by simpa using ha
    have hat' := hat.next_s2_wait ha'
    exact ⟨hat', hb.succ (by simp [reads, hat.memReady_s2, ha']) hat'.ready⟩
  obtain ⟨m, -, ⟨hatm, hbm⟩, ha⟩ := Sync.exists_of_wait stay ⟨hat, hb⟩ (hans n)
  exact ⟨m, hatm, hbm, ha⟩

theorem reads_answer {level : BitVec 2} {base : Word} {n : ℕ}
    (hat : e.At (e.walk w n) .s2 level base) (ha : e.answer n = true) :
    e.reads w n = true ∧ e.readWord w n = e.mem (walkMemAddr base e.address level) := by
  constructor
  · simp [reads, hat.state, hat.memReady_s2, ha]
  · simp [readWord, TableWalk.memAddr, hat.base, hat.level]

/-- One level: the read is answered, and either the walk ends or it goes one level
down. -/
theorem level_cases (hans : ∀ n, ∃ m, n ≤ m ∧ e.answer m = true) {level : BitVec 2}
    {base : Word} {n k : ℕ} (hl : level ≠ 3#2) (hat : e.At (e.walk w n) .s1 level base)
    (hb : e.Before w n k) :
    ∃ m, e.Before w m k ∧ e.reads w m = true ∧ (e.walk w m).level = level ∧
      e.readWord w m = e.mem (walkMemAddr base e.address level) ∧
      ((pteV (e.readWord w m) = true ∧ pteIsPointer (e.readWord w m) = true ∧
          e.At (e.walk w (m + 1)) .s1 (level - 1#2) (pointerBase (e.readWord w m))) ∨
        ((pteV (e.readWord w m) && pteIsPointer (e.readWord w m)) = false ∧
          (e.walk w (m + 1)).ready = true)) := by
  have hat2 : e.At (e.walk w (n + 1)) .s2 level base := hat.next_s1 hl n
  have hb2 : e.Before w (n + 1) k :=
    hb.succ (reads_of_ne_s2 (by simp [hat.state])) hat2.ready
  obtain ⟨m, hatm, hbm, ha⟩ := exists_answer hans hat2 hb2
  obtain ⟨hr, hw⟩ := reads_answer hatm ha
  refine ⟨m, hbm, hr, hatm.level, hw, ?_⟩
  rw [hw]
  exact hatm.next_s2_answer ha

/-- A walk that misses and meets no valid pointer at level 0 ends. -/
theorem exists_endsAt_of_miss (hans : ∀ n, ∃ m, n ≤ m ∧ e.answer m = true)
    (hnp : e.pointerAtLevel0 = false) {n : ℕ}
    (hat : e.At (e.walk w n) .s1 1#2 (satpBase e.satp)) (hb : e.Before w n 0) :
    ∃ n, e.EndsAt w n := by
  obtain ⟨m, hbm, hr, hl, hw, ⟨hv, hptr, hat'⟩ | ⟨-, hready⟩⟩ :=
    level_cases hans (by decide) hat hb
  · -- a pointer at level 1: the walk goes on at level 0
    have hb' : e.Before w (m + 1) 1 := hbm.succ_read (by simp [hl]) hr hat'.ready
    obtain ⟨m', hbm', hr', hl', hw', hend⟩ := level_cases hans (by decide) hat' hb'
    have hpte1 : e.readWord w m = e.pte1 := hw
    have hpte0 : e.readWord w m' = e.pte0 := by rw [hw', hpte1]; rfl
    have hno : (pteV (e.readWord w m') && pteIsPointer (e.readWord w m')) = false := by
      rw [hpte1] at hv hptr
      simpa [pointerAtLevel0, hv, hptr, hpte0] using hnp
    rcases hend with ⟨hv', hptr', -⟩ | ⟨-, hready⟩
    · simp [hv', hptr'] at hno
    · exact ⟨m' + 1, hbm'.endsAt le_rfl (fun _ _ => hno) hready⟩
  · exact ⟨m + 1, hbm.endsAt (by omega) (fun _ h0 => absurd (hl.symm.trans h0) (by decide))
      hready⟩

/-! ## A walk that does not end -/

/-- Where a walk with a valid pointer at level 0 can be. -/
def Looping (e : WalkEnv) (w : TableWalk iw dw) : Prop :=
  (w.state = .s0 ∧ w.ready = false ∧ w.tlbHit e.satp e.address e.isInstruction = false) ∨
    e.At w .s1 1#2 (satpBase e.satp) ∨ e.At w .s2 1#2 (satpBase e.satp) ∨
    e.At w .s1 0#2 (pointerBase e.pte1) ∨ e.At w .s2 0#2 (pointerBase e.pte1) ∨
    e.At w .s1 3#2 (pointerBase e.pte0)

theorem Looping.ready (h : e.Looping w) : w.ready = false := by
  rcases h with h | h | h | h | h | h
  · exact h.2.1
  all_goals exact h.ready

theorem Looping.next (hmode : satpModeOf e.satp = true) (hptr : e.pointerAtLevel0 = true)
    (h : e.Looping w) (n : ℕ) : e.Looping (w.next (e.input n w)) := by
  simp only [pointerAtLevel0, Bool.and_eq_true] at hptr
  obtain ⟨⟨⟨hv1, hp1⟩, hv0⟩, hp0⟩ := hptr
  rcases h with ⟨hs, hr, hm⟩ | h | h | h | h | h
  · obtain ⟨h1, h2, h3, h4, h5⟩ := start_next (e := e) hmode hs hr n
    exact .inr (.inl ⟨h1, h2, h3, h4, by rw [h5, hm, Bool.and_false]⟩)
  · exact .inr (.inr (.inl (h.next_s1 (by decide) n)))
  · cases ha : e.answer n with
    | false => exact .inr (.inr (.inl (h.next_s2_wait ha)))
    | true =>
      rcases h.next_s2_answer ha with ⟨-, -, h'⟩ | ⟨hno, -⟩
      · exact .inr (.inr (.inr (.inl h')))
      · exact absurd ((Bool.and_eq_true_iff).2 ⟨hv1, hp1⟩) (by rw [pte1, hno]; decide)
  · exact .inr (.inr (.inr (.inr (.inl (h.next_s1 (by decide) n)))))
  · cases ha : e.answer n with
    | false => exact .inr (.inr (.inr (.inr (.inl (h.next_s2_wait ha)))))
    | true =>
      rcases h.next_s2_answer ha with ⟨-, -, h'⟩ | ⟨hno, -⟩
      · exact .inr (.inr (.inr (.inr (.inr h'))))
      · exact absurd ((Bool.and_eq_true_iff).2 ⟨hv0, hp0⟩) (by rw [pte0, hno]; decide)
  · exact .inl (h.next_wrapped n)

theorem not_endsAt_of_looping (hmode : satpModeOf e.satp = true)
    (hptr : e.pointerAtLevel0 = true) (h : e.Looping w) (n : ℕ) : ¬ e.EndsAt w n := by
  intro hend
  have hloop : e.Looping (e.walk w n) :=
    Sync.run_invariant (P := e.Looping) h (fun i hi => hi.next hmode hptr i) n
  exact absurd hloop.ready (by simp [hend.1])

/-! ## The exact condition -/

/-- **Termination of the walk.**  Started in `S0` with `MODE = 1`, on a memory that
answers again and again, the walk ends after at most two reads exactly when the first
lookup hits or there is no valid pointer at level 0. -/
theorem walk_ends_iff (hmode : satpModeOf e.satp = true) (hs : w.state = .s0)
    (hr : w.ready = false) (hans : ∀ n, ∃ m, n ≤ m ∧ e.answer m = true) :
    (∃ n, e.EndsAt w n) ↔
      (w.tlbHit e.satp e.address e.isInstruction = true ∧ e.flush 0 = false) ∨
        e.pointerAtLevel0 = false := by
  obtain ⟨h1, h2, h3, h4, h5⟩ := start_next (e := e) hmode hs hr 0
  have hb0 : e.Before w 0 0 :=
    ⟨fun m hm => by rw [Nat.le_zero.1 hm]; exact hr, rfl, fun m hm => absurd hm (Nat.not_lt_zero m)⟩
  have hb1 : e.Before w 1 0 := hb0.succ (reads_of_ne_s2 (by rw [walk, Sync.run_zero, hs]; decide)) h4
  cases hhit : (!e.flush 0 && w.tlbHit e.satp e.address e.isInstruction) with
  | true =>
    -- the lookup of the first `S1` hits
    have hw : w.tlbHit e.satp e.address e.isInstruction = true ∧ e.flush 0 = false := by
      simp only [Bool.and_eq_true, Bool.not_eq_true'] at hhit
      exact hhit.symm
    refine iff_of_true ⟨2, ?_⟩ (.inl hw)
    refine hb1.endsAt (by omega) (fun hrd => ?_) ?_
    · rw [reads_of_ne_s2 (w := w) (n := 1) (by rw [walk_succ, walk, Sync.run_zero, h1]; decide)] at hrd
      exact absurd hrd (by decide)
    · rw [walk_succ]
      have hh : (e.walk w 1).tlbHit e.satp e.address e.isInstruction = true := h5.trans hhit
      have hst : (e.walk w 1).state = .s1 := h1
      simp [TableWalk.next, TableWalk.readyNxt, hst, input, hh]
  | false =>
    have hat : e.At (e.walk w 1) .s1 1#2 (satpBase e.satp) := ⟨h1, h2, h3, h4, h5.trans hhit⟩
    have hor : ¬ (w.tlbHit e.satp e.address e.isInstruction = true ∧ e.flush 0 = false) := by
      rintro ⟨ha, hb⟩
      simp [ha, hb] at hhit
    rw [or_iff_right hor]
    constructor
    · rintro ⟨n, hend⟩
      by_contra hptr
      rw [Bool.not_eq_false] at hptr
      have hloop : ∀ m, e.Looping (e.walk w (m + 1)) := by
        intro m
        induction m with
        | zero => exact .inr (.inl hat)
        | succ m ih => exact ih.next hmode hptr (m + 1)
      cases n with
      | zero => exact absurd hend.1 (by rw [walk, Sync.run_zero, hr]; decide)
      | succ n => exact absurd hend.1 (by rw [(hloop n).ready]; decide)
    · intro hnp
      exact exists_endsAt_of_miss hans hnp hat hb1

/-- A page table whose entries are all valid pointers to itself. -/
def selfPointingEnv : WalkEnv where
  address := 0#32
  satp := 0x80000000#32
  isInstruction := false
  mem := fun _ => 1#32
  answer := fun _ => true
  noise := fun _ => 0#32
  flush := fun _ => false

/-- A page table with a writable megapage at level 1. -/
def megapageEnv : WalkEnv := { selfPointingEnv with mem := fun _ => 0xF#32 }

/-- The walk ends at the megapage. -/
theorem walk_ends_iff_megapage : ∃ n, megapageEnv.EndsAt (TableWalk.reset 4 3) n :=
  (walk_ends_iff (by decide) rfl rfl fun n => ⟨n, le_rfl, rfl⟩).2 (.inr (by decide +kernel))

/-- On the self-pointing table the walk goes round for ever. -/
theorem self_pointing_walk_never_ends :
    ¬ ∀ (e : WalkEnv) (w : TableWalk 4 3), satpModeOf e.satp = true → w.state = .s0 →
      w.ready = false → (∀ n, ∃ m, n ≤ m ∧ e.answer m = true) → ∃ n, e.EndsAt w n := by
  intro h
  obtain ⟨n, hn⟩ := h selfPointingEnv (TableWalk.reset 4 3) (by decide) rfl rfl
    fun n => ⟨n, le_rfl, rfl⟩
  refine not_endsAt_of_looping (by decide) (by decide) (.inl ⟨rfl, rfl, ?_⟩) n hn
  decide +kernel

end WalkEnv

end KianRiscV
