/-
# Transactions of xv6 are atomic

The log of `log.c` keeps what `RedoLog.Store` promises: whatever the processes do in whatever order,
and whenever the power fails, also during a recovery, readers see the current contents and a
recovery restores the contents of the last commit.  A commit happens while no process is inside of a
transaction, so that no transaction survives in part.
-/
import KianRiscV.Xv6Recovery

namespace KianRiscV

namespace Xv6

open RedoLog (Holds Installed Store)

section Runs

variable {π : Type} [DecidableEq π] [Fintype π] {start b : BlockNo} {s t : State π} {T : Contents π}
  {pins : List BlockNo} {p : π}

/-! ## Recovery comes to an end -/

omit [Fintype π] in
/-- Steps of `initlog` only. -/
theorem run_boot {pc : BootPc} {k : ℕ} (hb : s.boot = some pc)
    (h : (s.bootStep start pc).run start (List.replicate k .boot) = some (t, [])) :
    s.run start (List.replicate (k + 1) .boot) = some (t, []) := by
  have hstep : s.step start .boot = some (s.bootStep start pc) := by
    rw [State.step, hb]
    rfl
  rw [List.replicate_succ, State.run, hstep]
  simp only [Option.bind_eq_bind, Option.bind_some, h]
  rfl

omit [Fintype π] in
/-- No block is left. -/
theorem install_ends {k : ℕ} (hb : s.boot = some (.install k)) (hk : s.log.lh[k]? = none) :
    ∃ u, s.run start (List.replicate 2 .boot) = some (u, []) ∧ u.boot = none ∧ u.log.lh = [] := by
  have hboot : s.bootStep start (.install k) = { s with boot := some .clear } := by
    simp only [State.bootStep, hk]
  have hclear : (s.bootStep start (.install k)).boot = some .clear := by rw [hboot]
  exact ⟨_, run_boot hb (run_boot hclear rfl), rfl, rfl⟩

omit [Fintype π] in
/-- One round for each block that is left, and the header again. -/
theorem install_terminates {k : ℕ} (n : ℕ) (hb : s.boot = some (.install k))
    (hn : s.log.lh.length ≤ k + n) : ∃ j u, s.run start (List.replicate j .boot) = some (u, []) ∧
      u.boot = none ∧ u.log.lh = [] := by
  induction n generalizing s k with
  | zero => exact ⟨2, install_ends hb (List.getElem?_eq_none_iff.2 hn)⟩
  | succ n ih =>
    cases hk : s.log.lh[k]? with
    | none => exact ⟨2, install_ends hb hk⟩
    | some b =>
      have hboot : s.bootStep start (.install k)
          = { s.installTrans start true k b with boot := some (.install (k + 1)) } := by
        simp only [State.bootStep, hk]
      have hb' : (s.bootStep start (.install k)).boot = some (.install (k + 1)) := by rw [hboot]
      have hn' : (s.bootStep start (.install k)).log.lh.length ≤ k + 1 + n := by
        rw [hboot]
        show s.log.lh.length ≤ k + 1 + n
        omega
      obtain ⟨j, u, hu, hub, hul⟩ := ih hb' hn'
      exact ⟨j + 1, u, run_boot hb hu, hub, hul⟩

omit [Fintype π] in
theorem recovery_terminates (start : BlockNo) (s : State π) : ∃ j u,
    s.crashed.run start (List.replicate j .boot) = some (u, []) ∧ u.boot = none ∧ u.log.lh = [] := by
  have hb : (s.crashed.bootStep start .readHead).boot = some (.install 0) := rfl
  obtain ⟨j, u, hu, hub, hul⟩ := install_terminates _ hb (Nat.le_add_left _ 0)
  exact ⟨j + 1, u, run_boot rfl hu, hub, hul⟩

omit [DecidableEq π] in
/-- Without transactions and commit the log is empty. -/
theorem Counted.rest_of_quiet (hc : Counted s T.active) (hph : Phase start s T pins)
    (hboot : s.boot = none) (hop : ∀ p blocks, s.procs p ≠ .op blocks)
    (hno : ∀ p pc, s.procs p ≠ .commit pc) :
    Collecting start s.disk s.log.lh T ∧ s.log.lh = [] := by
  have hcomm : s.log.committing = false := by
    by_contra hct
    obtain ⟨q, pc, hq⟩ := hc.committing.1 (Bool.eq_true_of_not_eq_false hct)
    exact hno q pc hq
  obtain ⟨hcol, -, he⟩ := hph.of_opened hc hboot hcomm
  refine ⟨hcol, he (Finset.eq_empty_of_forall_notMem fun q hq => ?_)⟩
  obtain ⟨blocks, hq⟩ := (hc.active q).1 hq
  exact hop q blocks hq

/-- **Transactions are atomic.**  In every run, with its processes and failures of the power in any
order, the events are those of a store: commits come when no process is in a transaction, readers
see the current contents, and from any state the power may fail in, a recovery comes to an end with
the contents of the last commit on the disk.  When all processes are out of the file system the last
commit has them all. -/
theorem transactions_atomic {disk : BlockNo → Block} (hdisk : readHead (disk start) = [])
    {as : List (Action π)} {es : List (RedoLog.Event BlockNo Block π)}
    (hrun : (State.init disk).run start as = some (s, es)) :
    ∃ T, Store.run ⟨disk, disk, ∅⟩ es = some T ∧
      (s.boot = none → ∀ b, IsHome start b → s.view b = T.current b) ∧
      (s.boot = none → (∀ p, s.procs p = .idle) →
        ∀ b, IsHome start b → T.current b = T.durable b) ∧
      ∃ j u, s.crashed.run start (List.replicate j .boot) = some (u, []) ∧ u.boot = none ∧
        ∀ b, IsHome start b → u.disk b = T.durable b := by
  obtain ⟨T, hT, hinv⟩ := (inv_init hdisk).run as hrun
  refine ⟨T, hT, fun hboot b hb => ?_, fun hboot hidle b hb => ?_, ?_⟩
  · obtain ⟨-, pins, hs, hph⟩ := hinv
    exact hph.view_eq hs hboot hb
  · obtain ⟨hc, pins, hs, hph⟩ := hinv
    obtain ⟨hcol, hnil⟩ := hc.rest_of_quiet hph hboot (fun p blocks hp =>
      Proc.noConfusion ((hidle p).symm.trans hp)) fun p pc hp =>
      Proc.noConfusion ((hidle p).symm.trans hp)
    exact hcol.rest b hb (by rw [hnil]; exact List.not_mem_nil)
  · obtain ⟨j, u, hu, hub, hul⟩ := recovery_terminates start s
    refine ⟨j, u, hu, hub, fun b hb => ?_⟩
    obtain ⟨T', hT', hinv'⟩ := hinv.crash.run _ hu
    obtain rfl := Option.some.inj hT'
    obtain ⟨-, pins, hs, hph⟩ := hinv'
    refine hph.disk_eq hs hub hb fun hmem => ?_
    have hlog := hph.pins_subset b hmem
    rw [hul] at hlog
    exact List.not_mem_nil hlog

/-- `w` is written to block 40, committed and installed, and the power fails in between. -/
def commitRun (v : Block) : List (Action Bool) :=
  [.boot, .boot, .boot, .beginOp true, .bread true 40#32, .write true 40#32 v, .brelse true 40#32,
    .endOp true, .commit true, .commit true, .commit true, .commit true, .crash, .boot, .boot]

theorem transactions_atomic_commit :
    ∃ s es T, (State.init fun _ _ => 0#32).run 2#32 (commitRun fun _ => 7#32) = some (s, es) ∧
      Store.run ⟨fun _ _ => 0#32, fun _ _ => 0#32, ∅⟩ es = some T ∧
      (s.boot = none → ∀ b, IsHome 2#32 b → s.view b = T.current b) ∧
      (s.boot = none → (∀ p, s.procs p = .idle) →
        ∀ b, IsHome 2#32 b → T.current b = T.durable b) ∧
      ∃ j u, s.crashed.run 2#32 (List.replicate j .boot) = some (u, []) ∧ u.boot = none ∧
        ∀ b, IsHome 2#32 b → u.disk b = T.durable b := by
  have hsome : ((State.init fun _ _ => 0#32).run 2#32 (commitRun fun _ => 7#32)).isSome = true := by
    decide +kernel
  obtain ⟨⟨s, es⟩, hrun⟩ := Option.isSome_iff_exists.1 hsome
  obtain ⟨T, hT⟩ := transactions_atomic (by rfl) hrun
  exact ⟨s, es, T, hrun, hT⟩

/-! ## Space -/

/-- In every run the log has room for what the transactions may still write: `end_op` does not reach
its panic, `log_write` panics only when the log is full, and then only a transaction that has written
all of its `MAXOPBLOCKS` blocks; no two processes are in `commit`; and where `begin_op` sleeps some
process is in a transaction or in `commit`. -/
theorem log_space {disk : BlockNo → Block} (hdisk : readHead (disk start) = [])
    {as : List (Action π)} {es : List (RedoLog.Event BlockNo Block π)}
    (hrun : (State.init disk).run start as = some (s, es)) :
    s.log.lh.length ≤ logBlocks ∧
      (∀ p blocks, s.procs p = .op blocks → s.log.endOp ≠ none ∧
        ∀ b, (s.log.logWrite b = none ↔ s.log.lh.length = logBlocks) ∧
          (s.log.logWrite b = none → blocks.card = maxOpBlocks)) ∧
      (∀ p q pc pc', s.procs p = .commit pc → s.procs q = .commit pc' → p = q) ∧
      (s.boot = none → s.log.beginOp = none →
        ∃ p, (∃ blocks, s.procs p = .op blocks) ∨ ∃ pc, s.procs p = .commit pc) := by
  obtain ⟨T, -, hc, pins, hs, hph⟩ := (inv_init hdisk).run as hrun
  have hspace := hc.space
  refine ⟨by omega, fun p blocks hp => ?_, fun p q pc pc' hp hq => hc.unique hp hq,
    fun hboot hsleep => ?_⟩
  · have hpA := (hc.active p).2 ⟨blocks, hp⟩
    have hcomm : s.log.committing = false := by
      by_contra hno
      obtain ⟨q, pc, hq⟩ := hc.committing.1 (Bool.eq_true_of_not_eq_false hno)
      rw [hc.alone hq] at hpA
      exact Finset.notMem_empty p hpA
    have hout : ¬ s.log.outstanding < 1 := by
      have hpos := Finset.card_pos.2 ⟨p, hpA⟩
      rw [hc.outstanding]
      omega
    have hbudget := Finset.single_le_sum (f := fun x => (s.procs x).budget)
      (fun _ _ => Nat.zero_le _) (Finset.mem_univ p)
    have hop : (s.procs p).budget = maxOpBlocks - blocks.card := by rw [hp]; rfl
    have hwritten := (hc.written hp).1
    refine ⟨?_, fun b => ?_⟩
    · unfold Log.endOp
      rw [hcomm, if_neg Bool.false_ne_true]
      split_ifs <;> simp
    · have hiff : s.log.logWrite b = none ↔ s.log.lh.length = logBlocks := by
        rw [Log.logWrite_eq]
        by_cases hfull : s.log.lh.length ≥ logBlocks
        · rw [if_pos (.inl hfull)]
          exact ⟨fun _ => by omega, fun _ => rfl⟩
        · rw [if_neg (not_or.2 ⟨hfull, hout⟩)]
          refine ⟨fun hno => ?_, fun hno => absurd hno (by omega)⟩
          split_ifs at hno
      refine ⟨hiff, fun hno => ?_⟩
      rw [hiff] at hno
      omega
  · by_contra hnone
    rw [not_exists] at hnone
    obtain ⟨-, hnil⟩ := hc.rest_of_quiet hph hboot
      (fun q blocks hq => hnone q (.inl ⟨blocks, hq⟩)) fun q pc hq => hnone q (.inr ⟨pc, hq⟩)
    have hcomm : s.log.committing = false := by
      by_contra hno
      obtain ⟨q, pc, hq⟩ := hc.committing.1 (Bool.eq_true_of_not_eq_false hno)
      exact hnone q (.inr ⟨pc, hq⟩)
    have hout : s.log.outstanding = 0 := by
      rw [hc.outstanding, Finset.eq_empty_of_forall_notMem fun q hq =>
        hnone q (.inl ((hc.active q).1 hq))]
      rfl
    simp [Log.beginOp, hcomm, hout, hnil, maxOpBlocks, logBlocks] at hsleep

theorem log_space_commit :
    ∃ s es, (State.init fun _ _ => 0#32).run 2#32 (commitRun fun _ => 7#32) = some (s, es) ∧
      s.log.lh.length ≤ logBlocks ∧
      (∀ p blocks, s.procs p = .op blocks → s.log.endOp ≠ none ∧
        ∀ b, (s.log.logWrite b = none ↔ s.log.lh.length = logBlocks) ∧
          (s.log.logWrite b = none → blocks.card = maxOpBlocks)) ∧
      (∀ p q pc pc', s.procs p = .commit pc → s.procs q = .commit pc' → p = q) ∧
      (s.boot = none → s.log.beginOp = none →
        ∃ p, (∃ blocks, s.procs p = .op blocks) ∨ ∃ pc, s.procs p = .commit pc) := by
  have hsome : ((State.init fun _ _ => 0#32).run 2#32 (commitRun fun _ => 7#32)).isSome = true := by
    decide +kernel
  obtain ⟨⟨s, es⟩, hrun⟩ := Option.isSome_iff_exists.1 hsome
  exact ⟨s, es, hrun, log_space (by rfl) hrun⟩

end Runs

end Xv6

end KianRiscV
