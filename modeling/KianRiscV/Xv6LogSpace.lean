/-
# The space in the log of xv6

`Counted` ties the counters of `struct log` to the processes, in every order of their steps:
`outstanding` counts the processes in a transaction, `committing` says whether there is one in
`commit`, of which there is never a second, and `lh.n` with what the transactions may still add fits
the log.
-/
import Mathlib.Algebra.BigOperators.Group.Finset.Basic
import Mathlib.Algebra.Order.BigOperators.Group.Finset
import KianRiscV.Xv6Log

namespace KianRiscV

namespace Xv6

/-! ## The functions of the log -/

namespace Log

variable {l l' : Log} {b : BlockNo} {pins : Bool}

theorem beginOp_eq_some (h : l.beginOp = some l') : l.committing = false ∧
    (l.lh.length : ℤ) + (l.outstanding + 1) * maxOpBlocks ≤ logBlocks ∧
    l' = { l with outstanding := l.outstanding + 1 } := by
  unfold beginOp at h
  split_ifs at h with hc hn
  exact ⟨by simpa using hc, by omega, (Option.some.inj h).symm⟩

theorem endOp_eq_some {c : Bool} (h : l.endOp = some (l', c)) : l.committing = false ∧
    l' = ⟨l.outstanding - 1, c, l.lh⟩ ∧ (c = true ↔ l.outstanding = 1) := by
  unfold endOp at h
  split_ifs at h with hc hn
  · obtain ⟨rfl, rfl⟩ := Prod.mk.inj (Option.some.inj h)
    exact ⟨by simpa using hc, rfl, by simp; omega⟩
  · obtain ⟨rfl, rfl⟩ := Prod.mk.inj (Option.some.inj h)
    exact ⟨by simpa using hc, rfl, by simp; omega⟩

/-- The loop of `log_write` finds the block, or adds it. -/
theorem logWrite_eq (l : Log) (b : BlockNo) : l.logWrite b =
    if l.lh.length ≥ logBlocks ∨ l.outstanding < 1 then none
    else if b ∈ l.lh then some (l, false)
    else some ({ l with lh := l.lh ++ [b] }, true) := by
  unfold logWrite
  by_cases hn : l.lh.length ≥ logBlocks
  · rw [if_pos hn, if_pos (.inl hn)]
  by_cases ho : l.outstanding < 1
  · rw [if_neg hn, if_pos ho, if_pos (.inr ho)]
  rw [if_neg hn, if_neg ho, if_neg (not_or.2 ⟨hn, ho⟩)]
  by_cases hb : b ∈ l.lh
  · have hlt : l.lh.findIdx (· == b) < l.lh.length :=
      List.findIdx_lt_length_of_exists ⟨b, hb, beq_self_eq_true b⟩
    have hget : l.lh[l.lh.findIdx (· == b)] = b := by
      have hp := List.findIdx_getElem (w := hlt)
      exact eq_of_beq hp
    have hset : l.lh.set (l.lh.findIdx (· == b)) b = l.lh := by
      calc l.lh.set (l.lh.findIdx (· == b)) b
          = l.lh.set (l.lh.findIdx (· == b)) l.lh[l.lh.findIdx (· == b)] := by rw [hget]
        _ = l.lh := List.set_getElem_self hlt
    simp only [if_neg (Nat.ne_of_lt hlt), if_pos hb, hset]
  · have heq : l.lh.findIdx (· == b) = l.lh.length := by
      rw [List.findIdx_eq_length]
      intro c hc
      rw [beq_eq_false_iff_ne]
      rintro rfl
      exact hb hc
    simp only [heq, if_pos trivial, if_neg hb]

theorem logWrite_eq_some (h : l.logWrite b = some (l', pins)) : l.lh.length < logBlocks ∧
    l' = { l with lh := if pins then l.lh ++ [b] else l.lh } ∧ (pins = true ↔ b ∉ l.lh) := by
  rw [logWrite_eq] at h
  split_ifs at h with hn hb
  · obtain ⟨rfl, rfl⟩ := Prod.mk.inj (Option.some.inj h)
    exact ⟨by omega, rfl, by simp [hb]⟩
  · obtain ⟨rfl, rfl⟩ := Prod.mk.inj (Option.some.inj h)
    exact ⟨by omega, rfl, by simp [hb]⟩

end Log

/-! ## The counters -/

/-- The blocks a process may still add to the log. -/
def Proc.budget : Proc → ℕ
  | .op blocks => maxOpBlocks - blocks.card
  | _ => 0

section Counters

variable {π : Type} [DecidableEq π] [Fintype π] {s t : State π} {A : Finset π} {p : π}

/-- The counters of `struct log` are those of the processes: `outstanding` of those in a transaction,
`committing` of the one in `commit`, and `lh.n` leaves room for what the former may add. -/
structure Counted (s : State π) (A : Finset π) : Prop where
  active : ∀ p, p ∈ A ↔ ∃ blocks, s.procs p = .op blocks
  outstanding : s.log.outstanding = A.card
  committing : s.log.committing = true ↔ ∃ p pc, s.procs p = .commit pc
  unique : ∀ {p q pc pc'}, s.procs p = .commit pc → s.procs q = .commit pc' → p = q
  alone : ∀ {p pc}, s.procs p = .commit pc → A = ∅
  boot : s.boot ≠ none → ∀ p, s.procs p = .idle
  space : s.log.lh.length + ∑ p, (s.procs p).budget ≤ logBlocks
  written : ∀ {p blocks}, s.procs p = .op blocks →
    blocks.card ≤ maxOpBlocks ∧ ∀ b ∈ blocks, b ∈ s.log.lh

omit [DecidableEq π] in
theorem Counted.congr (h : Counted s A) (hl : t.log = s.log) (hp : t.procs = s.procs)
    (hb : t.boot = s.boot) : Counted t A := by
  obtain ⟨h1, h2, h3, h4, h5, h6, h7, h8⟩ := h
  cases s
  cases t
  subst hl hp hb
  exact ⟨h1, h2, h3, h4, h5, h6, h7, h8⟩

/-- One process goes on. -/
theorem sum_budget_update (f : π → Proc) (p : π) (q : Proc) :
    ∑ x, (Function.update f p q x).budget + (f p).budget = ∑ x, (f x).budget + q.budget := by
  have h1 := Finset.add_sum_erase Finset.univ (fun x => (Function.update f p q x).budget)
    (Finset.mem_univ p)
  have h2 := Finset.add_sum_erase Finset.univ (fun x => (f x).budget) (Finset.mem_univ p)
  have h3 : ∑ x ∈ Finset.univ.erase p, (Function.update f p q x).budget
      = ∑ x ∈ Finset.univ.erase p, (f x).budget :=
    Finset.sum_congr rfl fun x hx => by
      rw [Function.update_of_ne (Finset.ne_of_mem_erase hx)]
  simp only [Function.update_self] at h1
  omega

omit [DecidableEq π] in
/-- While no process commits, none is in `commit`. -/
theorem Counted.not_commit (h : Counted s A) (hc : s.log.committing = false) (p : π)
    (pc : CommitPc) : s.procs p ≠ .commit pc := by
  intro hp
  have := h.committing.2 ⟨p, pc, hp⟩
  rw [hc] at this
  exact absurd this (by decide)

theorem Counted.begin (h : Counted s A) (hp : s.procs p = .idle) (hboot : s.boot = none)
    (hc : s.log.committing = false)
    (hn : (s.log.lh.length : ℤ) + (s.log.outstanding + 1) * maxOpBlocks ≤ logBlocks)
    (hl : t.log = { s.log with outstanding := s.log.outstanding + 1 })
    (hprocs : t.procs = Function.update s.procs p (.op ∅)) (hb : t.boot = s.boot) :
    p ∉ A ∧ Counted t (insert p A) := by
  have hpA : p ∉ A := by
    rw [h.active]
    rintro ⟨blocks, hop⟩
    rw [hp] at hop
    exact Proc.noConfusion hop
  have hno := h.not_commit hc
  have hother : ∀ q pc, t.procs q ≠ .commit pc := by
    intro q pc hq
    rw [hprocs] at hq
    by_cases hqp : q = p
    · rw [hqp, Function.update_self] at hq
      exact Proc.noConfusion hq
    · rw [Function.update_of_ne hqp] at hq
      exact hno q pc hq
  refine ⟨hpA, ⟨fun q => ?_, ?_, ?_, fun {q} _ _ _ hq => absurd hq (hother q _),
    fun {q} _ hq => absurd hq (hother q _), fun hne => absurd (hb.trans hboot) hne, ?_,
    fun {q blocks} hq => ?_⟩⟩
  · rw [hprocs, Finset.mem_insert, h.active]
    by_cases hqp : q = p
    · rw [hqp, Function.update_self]
      exact ⟨fun _ => ⟨∅, rfl⟩, fun _ => .inl rfl⟩
    · rw [Function.update_of_ne hqp]
      exact ⟨fun ho => ho.resolve_left hqp, .inr⟩
  · rw [hl, Finset.card_insert_of_notMem hpA]
    simp only [h.outstanding]
    push_cast
    rfl
  · rw [hl]
    exact ⟨fun hc' => absurd (hc.symm.trans hc') (by decide),
      fun ⟨q, pc, hq⟩ => absurd hq (hother q pc)⟩
  -- the other transactions add at most `MAXOPBLOCKS` each
  · have hsum := sum_budget_update s.procs p (.op ∅)
    have hle : ∑ x, (s.procs x).budget ≤ A.card * maxOpBlocks := by
      have hzero : ∑ x, (s.procs x).budget = ∑ x ∈ A, (s.procs x).budget := by
        refine (Finset.sum_subset (Finset.subset_univ A) fun x _ hx => ?_).symm
        rw [h.active] at hx
        cases hpx : s.procs x with
        | idle => rfl
        | commit pc => rfl
        | op blocks => exact absurd ⟨blocks, hpx⟩ hx
      rw [hzero]
      refine Finset.sum_le_card_nsmul A _ maxOpBlocks fun x _ => ?_
      cases s.procs x with
      | idle => exact Nat.zero_le _
      | commit pc => exact Nat.zero_le _
      | op blocks => exact Nat.sub_le _ _
    have hop : Proc.budget (.op ∅) = maxOpBlocks := rfl
    rw [h.outstanding] at hn
    rw [hp, hop] at hsum
    have hidle : Proc.budget .idle = 0 := rfl
    rw [hl, hprocs]
    have hn' : s.log.lh.length + (A.card + 1) * maxOpBlocks ≤ logBlocks := by exact_mod_cast hn
    have hmul : (A.card + 1) * maxOpBlocks = A.card * maxOpBlocks + maxOpBlocks :=
      Nat.succ_mul _ _
    show s.log.lh.length + _ ≤ _
    omega
  · rw [hprocs] at hq
    by_cases hqp : q = p
    · rw [hqp, Function.update_self] at hq
      obtain rfl := Proc.op.inj hq
      exact ⟨Nat.zero_le _, fun b hb => absurd hb (Finset.notMem_empty b)⟩
    · rw [Function.update_of_ne hqp] at hq
      rw [hl]
      exact h.written hq

/-- A write adds its block to the transaction, and to the log if it is not there. -/
theorem Counted.write (h : Counted s A) {blocks : Finset BlockNo} {b : BlockNo} {pins : Bool}
    (hp : s.procs p = .op blocks) (hbud : b ∈ blocks ∨ blocks.card < maxOpBlocks)
    (hpins : pins = true ↔ b ∉ s.log.lh)
    (hl : t.log = { s.log with lh := if pins then s.log.lh ++ [b] else s.log.lh })
    (hprocs : t.procs = Function.update s.procs p (.op (insert b blocks)))
    (hb : t.boot = s.boot) : Counted t A := by
  have hpA : p ∈ A := (h.active p).2 ⟨blocks, hp⟩
  have hcommit : ∀ {q pc}, t.procs q = .commit pc → s.procs q = .commit pc := by
    intro q pc hq
    rw [hprocs] at hq
    by_cases hqp : q = p
    · rw [hqp, Function.update_self] at hq
      exact Proc.noConfusion hq
    · rwa [Function.update_of_ne hqp] at hq
  have hbin : b ∈ t.log.lh := by
    rw [hl]
    cases pins with
    | true => exact List.mem_append_right _ (List.mem_singleton.2 rfl)
    | false =>
      by_contra hno
      exact absurd (hpins.2 hno) Bool.false_ne_true
  have hmono : ∀ c ∈ s.log.lh, c ∈ t.log.lh := by
    intro c hc
    rw [hl]
    cases pins with
    | true => exact List.mem_append_left _ hc
    | false => exact hc
  obtain ⟨hcard, hin⟩ := h.written hp
  have hcard' : (insert b blocks).card ≤ maxOpBlocks := by
    rcases hbud with hmem | hlt
    · rw [Finset.insert_eq_of_mem hmem]
      exact hcard
    · exact (Finset.card_insert_le b blocks).trans hlt
  refine ⟨fun q => ?_, by rw [hl]; exact h.outstanding, ?_,
    fun hq hq' => h.unique (hcommit hq) (hcommit hq'), fun hq => h.alone (hcommit hq), fun hne => ?_,
    ?_, fun {q c} hq => ?_⟩
  · rw [h.active, hprocs]
    by_cases hqp : q = p
    · rw [hqp, Function.update_self]
      exact ⟨fun _ => ⟨_, rfl⟩, fun _ => ⟨blocks, hp⟩⟩
    · rw [Function.update_of_ne hqp]
  · rw [hl]
    refine h.committing.trans ⟨fun ⟨q, pc, hq⟩ => ⟨q, pc, ?_⟩, fun ⟨q, pc, hq⟩ => ⟨q, pc, hcommit hq⟩⟩
    rw [hprocs, Function.update_of_ne, hq]
    rintro rfl
    rw [hp] at hq
    exact Proc.noConfusion hq
  · have hidle := h.boot (by rw [← hb]; exact hne) p
    rw [hp] at hidle
    exact Proc.noConfusion hidle
  -- a new block is taken from the budget of the process
  · have hsum := sum_budget_update s.procs p (.op (insert b blocks))
    have hbudget : (Proc.op (insert b blocks)).budget = maxOpBlocks - (insert b blocks).card := rfl
    have hbudget' : (Proc.op blocks).budget = maxOpBlocks - blocks.card := rfl
    have hspace := h.space
    rw [hp, hbudget, hbudget'] at hsum
    rw [hprocs, hl]
    cases pins with
    | true =>
      have hb : b ∉ blocks := fun hmem => hpins.1 rfl (hin b hmem)
      have hcins := Finset.card_insert_of_notMem hb
      simp only [if_true, List.length_append, List.length_singleton]
      omega
    | false =>
      have hle := Finset.card_le_card (Finset.subset_insert b blocks)
      simp only [Bool.false_eq_true, if_false]
      omega
  · rw [hprocs] at hq
    by_cases hqp : q = p
    · rw [hqp, Function.update_self] at hq
      obtain rfl := Proc.op.inj hq
      refine ⟨hcard', fun d hd => ?_⟩
      rcases Finset.mem_insert.1 hd with rfl | hd
      · exact hbin
      · exact hmono d (hin d hd)
    · rw [Function.update_of_ne hqp] at hq
      exact ⟨(h.written hq).1, fun d hd => hmono d ((h.written hq).2 d hd)⟩

/-- The end of a transaction; the last one starts the commit. -/
theorem Counted.finish (h : Counted s A) {blocks : Finset BlockNo} {c : Bool}
    (hp : s.procs p = .op blocks) (hcomm : s.log.committing = false)
    (hl : t.log = ⟨s.log.outstanding - 1, c, s.log.lh⟩) (hc : c = true ↔ s.log.outstanding = 1)
    (hprocs : t.procs = Function.update s.procs p (if c then .commit .check else .idle))
    (hb : t.boot = s.boot) : p ∈ A ∧ Counted t (A.erase p) := by
  have hpA : p ∈ A := (h.active p).2 ⟨blocks, hp⟩
  have hcard : (A.erase p).card + 1 = A.card := Finset.card_erase_add_one hpA
  have hno := h.not_commit hcomm
  have hcommit : ∀ {q pc}, t.procs q = .commit pc → q = p ∧ c = true := by
    intro q pc hq
    rw [hprocs] at hq
    by_cases hqp : q = p
    · refine ⟨hqp, ?_⟩
      rw [hqp, Function.update_self] at hq
      cases c with
      | true => rfl
      | false => exact Proc.noConfusion hq
    · rw [Function.update_of_ne hqp] at hq
      exact absurd hq (hno q pc)
  have hout := h.outstanding
  have hempty : c = true → A.erase p = ∅ := by
    intro hct
    rw [hc.1 hct] at hout
    exact Finset.card_eq_zero.1 (by omega)
  refine ⟨hpA, fun q => ?_, ?_, ?_, fun hq hq' => (hcommit hq).1.trans (hcommit hq').1.symm,
    fun hq => hempty (hcommit hq).2, fun hne => ?_, ?_, fun {q d} hq => ?_⟩
  · rw [Finset.mem_erase, h.active, hprocs]
    by_cases hqp : q = p
    · rw [hqp, Function.update_self]
      refine ⟨fun ⟨hne, _⟩ => absurd rfl hne, fun ⟨d, hd⟩ => ?_⟩
      cases c <;> exact Proc.noConfusion hd
    · rw [Function.update_of_ne hqp]
      exact ⟨fun hq => hq.2, fun hq => ⟨hqp, hq⟩⟩
  · rw [hl]
    show s.log.outstanding - 1 = _
    omega
  · rw [hl]
    refine ⟨fun hct => ⟨p, .check, ?_⟩, fun ⟨q, pc, hq⟩ => (hcommit hq).2⟩
    have hct' : c = true := hct
    rw [hprocs, Function.update_self, hct']
    rfl
  · have hidle := h.boot (by rw [← hb]; exact hne) p
    rw [hp] at hidle
    exact Proc.noConfusion hidle
  · have hsum := sum_budget_update s.procs p (if c then .commit .check else .idle)
    have hzero : Proc.budget (if c then .commit .check else .idle) = 0 := by cases c <;> rfl
    have hspace := h.space
    rw [hprocs, hl]
    show s.log.lh.length + _ ≤ _
    omega
  · rw [hprocs] at hq
    by_cases hqp : q = p
    · rw [hqp, Function.update_self] at hq
      cases c <;> exact Proc.noConfusion hq
    · rw [Function.update_of_ne hqp] at hq
      rw [hl]
      exact h.written hq

/-- The process in `commit` goes on. -/
theorem Counted.commit_next (h : Counted s A) {pc pc' : CommitPc} {lh : List BlockNo}
    (hp : s.procs p = .commit pc) (hl : t.log = { s.log with lh := lh })
    (hlen : lh.length ≤ s.log.lh.length)
    (hprocs : t.procs = Function.update s.procs p (.commit pc')) (hb : t.boot = s.boot) :
    Counted t A := by
  have hA := h.alone hp
  have hop : ∀ q blocks, t.procs q ≠ .op blocks := by
    intro q blocks hq
    rw [hprocs] at hq
    by_cases hqp : q = p
    · rw [hqp, Function.update_self] at hq
      exact Proc.noConfusion hq
    · rw [Function.update_of_ne hqp] at hq
      have hqA := (h.active q).2 ⟨blocks, hq⟩
      rw [hA] at hqA
      exact Finset.notMem_empty q hqA
  have hcommit : ∀ {q d}, t.procs q = .commit d → q = p := by
    intro q d hq
    by_contra hqp
    rw [hprocs, Function.update_of_ne hqp] at hq
    exact hqp (h.unique hq hp)
  refine ⟨fun q => ?_, by rw [hl]; exact h.outstanding, ?_,
    fun hq hq' => (hcommit hq).trans (hcommit hq').symm, fun _ => hA, fun hne => ?_, ?_,
    fun hq => absurd hq (hop _ _)⟩
  · rw [hA]
    exact ⟨fun hq => absurd hq (Finset.notMem_empty q), fun ⟨d, hd⟩ => absurd hd (hop q d)⟩
  · rw [hl]
    refine ⟨fun _ => ⟨p, pc', ?_⟩, fun _ => h.committing.2 ⟨p, pc, hp⟩⟩
    rw [hprocs, Function.update_self]
  · have hidle := h.boot (by rw [← hb]; exact hne) p
    rw [hp] at hidle
    exact Proc.noConfusion hidle
  · have hsum := sum_budget_update s.procs p (.commit pc')
    have hzero : (Proc.commit pc').budget = 0 := rfl
    have hspace := h.space
    rw [hprocs, hl]
    show lh.length + _ ≤ _
    omega

omit [DecidableEq π] in
/-- All processes are idle. -/
theorem counted_idle (ho : t.log.outstanding = 0) (hc : t.log.committing = false)
    (hp : ∀ p, t.procs p = .idle) (hl : t.log.lh.length ≤ logBlocks) : Counted t ∅ := by
  have hne : ∀ {p pc}, t.procs p ≠ .commit pc := fun {p pc} h =>
    Proc.noConfusion ((hp p).symm.trans h)
  have hno : ∀ {p blocks}, t.procs p ≠ .op blocks := fun {p blocks} h =>
    Proc.noConfusion ((hp p).symm.trans h)
  refine ⟨fun p => ⟨fun h => absurd h (Finset.notMem_empty p), fun ⟨_, h⟩ => absurd h hno⟩, ho,
    ⟨fun h => absurd (hc.symm.trans h) (by decide), fun ⟨_, _, h⟩ => absurd h hne⟩,
    fun h => absurd h hne, fun h => absurd h hne, fun _ => hp, ?_, fun h => absurd h hno⟩
  have hsum : ∑ p, (t.procs p).budget = 0 := Finset.sum_eq_zero fun p _ => by
    rw [hp p]
    rfl
  rw [hsum]
  exact hl

end Counters

end Xv6

end KianRiscV
