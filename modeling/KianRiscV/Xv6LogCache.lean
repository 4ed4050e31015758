/-
# The log of xv6 uses the cache of blocks

`State.calls` lists what every step of the log and the processes calls of `bio.c`, in the order of
the code.  A step does to the disk and the buffers what these calls do to a `BlockCache`
(`Inv.calls`), so between two failures of the power a run of the log is a run of the cache
(`log_uses_cache`), and a failure leaves an empty cache.  Every call is allowed where it is made: no
round takes the lock of a block twice, as the blocks of the header are outside of the log.  So the
log runs on any cache that refines this one, as that of `bio.c` does.
-/
import KianRiscV.BlockCache
import KianRiscV.Xv6Transactions

namespace KianRiscV

namespace Xv6

section Steps

variable {π : Type} [DecidableEq π] {start b : BlockNo} {s t : State π} {T : Contents π} {p : π}
  {a : Action π} {k : ℕ}

/-- The disk and the buffers. -/
def State.blocks (s : State π) : BlockCache.Cache BlockNo Block π := ⟨s.disk, s.buf, s.refcnt, s.holder⟩

/-! ## What a step calls -/

/-- One round of `write_log`. -/
def State.writeLogCalls (start : BlockNo) (s : State π) (p : π) (tail : ℕ) (b : BlockNo) :
    List (BlockCache.Action BlockNo Block π) :=
  [.bread p (logBlock start tail), .bread p b, .write p (logBlock start tail) (s.view b),
    .bwrite p (logBlock start tail), .brelse p b, .brelse p (logBlock start tail)]

/-- One round of `install_trans`. -/
def State.installTransCalls (start : BlockNo) (recovering : Bool) (s : State π) (p : π) (tail : ℕ)
    (b : BlockNo) : List (BlockCache.Action BlockNo Block π) :=
  [.bread p (logBlock start tail), .bread p b, .write p b (s.view (logBlock start tail)),
    .bwrite p b] ++ (if recovering then [] else [.bunpin p b]) ++
    [.brelse p (logBlock start tail), .brelse p b]

/-- `write_head` of these blocks. -/
def State.writeHeadCalls (start : BlockNo) (s : State π) (p : π) (lh : List BlockNo) :
    List (BlockCache.Action BlockNo Block π) :=
  [.bread p start, .write p start (putHead lh (s.view start)), .bwrite p start, .brelse p start]

/-- The next piece of `commit`. -/
def State.commitCalls (start : BlockNo) (s : State π) (p : π) :
    CommitPc → List (BlockCache.Action BlockNo Block π)
  | .check => []
  | .writeLog tail =>
    match s.log.lh[tail]? with
    | none => []
    | some b => s.writeLogCalls start p tail b
  | .writeHead => s.writeHeadCalls start p s.log.lh
  | .install tail =>
    match s.log.lh[tail]? with
    | none => []
    | some b => s.installTransCalls start false p tail b
  | .clear => s.writeHeadCalls start p []
  | .finish => []

/-- The next piece of `recover_from_log`. -/
def State.bootCalls (start : BlockNo) (s : State π) (p : π) :
    BootPc → List (BlockCache.Action BlockNo Block π)
  | .readHead => [.bread p start, .brelse p start]
  | .install tail =>
    match s.log.lh[tail]? with
    | none => []
    | some b => s.installTransCalls start true p tail b
  | .clear => s.writeHeadCalls start p []

/-- What a step calls; `q` is the process that runs `initlog`. -/
def State.calls (start : BlockNo) (q : π) (s : State π) :
    Action π → List (BlockCache.Action BlockNo Block π)
  | .evict b => [.evict b]
  | .bread p b => [.bread p b]
  | .brelse p b => [.brelse p b]
  | .write p b v =>
    -- `log_write` pins a block that is not in the header yet
    .write p b v :: if (s.log.logWrite b).map Prod.snd = some true then [.bpin p b] else []
  | .commit p =>
    match s.procs p with
    | .commit pc => s.commitCalls start p pc
    | _ => []
  | .boot =>
    match s.boot with
    | some pc => s.bootCalls start q pc
    | none => []
  | .beginOp _ | .endOp _ | .crash => []

/-- What a run calls. -/
def State.runCalls (start : BlockNo) (q : π) (s : State π) :
    List (Action π) → List (BlockCache.Action BlockNo Block π)
  | [] => []
  | a :: as =>
    s.calls start q a ++
      match s.step start a with
      | some t => t.runCalls start q as
      | none => []

/-! ## The rounds of `commit` and `recover_from_log` -/

theorem run_writeHead (hfree : s.holder start = none) (p : π) :
    s.blocks.run (s.writeHeadCalls start p s.log.lh) = some (s.writeHead start).blocks :=
  BlockCache.Cache.run_bwrite (c := s.blocks) (p := p) hfree

theorem run_writeLog (hne : b ≠ logBlock start k) (hb : s.holder b = none)
    (hlog : s.holder (logBlock start k) = none) (p : π) :
    s.blocks.run (s.writeLogCalls start p k b) = some (s.writeLog start k b).blocks :=
  (BlockCache.Cache.run_bread_comm (c := s.blocks) hne hb hlog _).trans
    (BlockCache.Cache.run_copy (c := s.blocks) (p := p) hne hb hlog)

theorem run_installTrans {recovering : Bool} (hne : b ≠ logBlock start k) (hb : s.holder b = none)
    (hlog : s.holder (logBlock start k) = none) (p : π) :
    s.blocks.run (s.installTransCalls start recovering p k b)
      = some (s.installTrans start recovering k b).blocks := by
  cases recovering with
  | true => exact BlockCache.Cache.run_copy (c := s.blocks) (p := p) hne.symm hlog hb
  | false => exact BlockCache.Cache.run_copy_bunpin (c := s.blocks) (p := p) hne.symm hlog hb

/-! ## Where the blocks are -/

omit [DecidableEq π] in
/-- The blocks of the header are outside of the log, once it has been read. -/
theorem Phase.home {pins : List BlockNo} (h : Phase start s T pins) (hs : Sound start s.disk)
    (hboot : s.boot ≠ some .readHead) : ∀ b ∈ s.log.lh, IsHome start b := by
  cases h with
  | readHead hb _ => exact absurd hb hboot
  | recover k _ h => exact h.header ▸ hs.home
  | recovered _ h => exact h.header ▸ hs.home
  | opened _ _ h _ => exact h.home
  | check p _ _ h => exact h.home
  | writeLog p k _ _ h _ => exact h.home
  | writeHead p _ _ h _ => exact h.home
  | install p k _ _ h _ => exact h.header ▸ hs.home
  | clear p _ _ h => exact h.header ▸ hs.home
  | finish p _ _ hl _ =>
    rw [hl]
    exact fun b hb => absurd hb List.not_mem_nil

variable [Fintype π]

omit [DecidableEq π] in
/-- A block and its place in the log are not the same. -/
theorem Inv.ne_logBlock (h : Inv start s T) (hboot : s.boot ≠ some .readHead)
    (hk : s.log.lh[k]? = some b) : b ≠ logBlock start k := by
  obtain ⟨hc, pins, hs, hph⟩ := h
  obtain ⟨hlt, -⟩ := List.getElem?_eq_some_iff.1 hk
  have hspace := hc.space
  exact (hph.home hs.sound hboot b (List.mem_of_getElem? hk)).2 k (by omega)

omit [Fintype π] in
theorem commitStep_holder {pc : CommitPc} (h : s.commitStep start p pc = some t) :
    t.holder = s.holder ∧ t.boot = s.boot := by
  cases pc with
  | check =>
    obtain rfl := Option.some.inj h
    exact ⟨rfl, rfl⟩
  | writeLog k =>
    simp only [State.commitStep] at h
    split at h
    · obtain rfl := Option.some.inj h
      exact ⟨rfl, rfl⟩
    · split_ifs at h
      obtain rfl := Option.some.inj h
      exact ⟨rfl, rfl⟩
  | writeHead =>
    simp only [State.commitStep] at h
    split_ifs at h
    obtain rfl := Option.some.inj h
    exact ⟨rfl, rfl⟩
  | install k =>
    simp only [State.commitStep] at h
    split at h
    · obtain rfl := Option.some.inj h
      exact ⟨rfl, rfl⟩
    · split_ifs at h
      obtain rfl := Option.some.inj h
      exact ⟨rfl, rfl⟩
  | clear =>
    simp only [State.commitStep] at h
    split_ifs at h
    obtain rfl := Option.some.inj h
    exact ⟨rfl, rfl⟩
  | finish =>
    obtain rfl := Option.some.inj h
    exact ⟨rfl, rfl⟩

omit [Fintype π] in
/-- While `initlog` is not through no process has a buffer. -/
theorem free_step (hstep : s.step start a = some t) (h : s.boot ≠ none → ∀ b, s.holder b = none)
    (hboot : t.boot ≠ none) : ∀ b, t.holder b = none := by
  cases a with
  | crash =>
    obtain rfl := Option.some.inj hstep
    exact fun _ => rfl
  | evict b =>
    simp only [State.step] at hstep
    split_ifs at hstep
    obtain rfl := Option.some.inj hstep
    exact h hboot
  | boot =>
    simp only [State.step, Option.map_eq_some_iff] at hstep
    obtain ⟨pc, hb, rfl⟩ := hstep
    have hfree := h (hb ▸ Option.some_ne_none pc)
    cases pc with
    | readHead => exact hfree
    | install k =>
      simp only [State.bootStep]
      cases s.log.lh[k]? <;> exact hfree
    | clear => exact hfree
  | bread p b =>
    simp only [State.step] at hstep
    split_ifs at hstep with hg
    obtain rfl := Option.some.inj hstep
    exact absurd hg.1 hboot
  | brelse p b =>
    simp only [State.step] at hstep
    split_ifs at hstep with hheld
    obtain rfl := Option.some.inj hstep
    rw [h hboot b] at hheld
    exact absurd hheld (Option.some_ne_none p).symm
  | beginOp p =>
    simp only [State.step] at hstep
    split_ifs at hstep
    obtain ⟨l, -, rfl⟩ := Option.map_eq_some_iff.1 hstep
    exact h hboot
  | write p b v =>
    simp only [State.step] at hstep
    cases hp : s.procs p with
    | idle => simp [hp] at hstep
    | commit pc => simp [hp] at hstep
    | op blocks =>
      simp only [hp] at hstep
      split_ifs at hstep
      obtain ⟨r, -, rfl⟩ := Option.map_eq_some_iff.1 hstep
      exact h hboot
  | endOp p =>
    simp only [State.step] at hstep
    cases hp : s.procs p with
    | idle => simp [hp] at hstep
    | commit pc => simp [hp] at hstep
    | op blocks =>
      simp only [hp] at hstep
      obtain ⟨r, -, rfl⟩ := Option.map_eq_some_iff.1 hstep
      exact h hboot
  | commit p =>
    simp only [State.step] at hstep
    cases hp : s.procs p with
    | idle => simp [hp] at hstep
    | op blocks => simp [hp] at hstep
    | commit pc =>
      simp only [hp] at hstep
      obtain ⟨hholder, hbt⟩ := commitStep_holder hstep
      rw [hholder]
      exact h (hbt ▸ hboot)

/-! ## Steps and runs -/

theorem Inv.commitCalls {pc : CommitPc} (h : Inv start s T) (hp : s.procs p = .commit pc)
    (hstep : s.commitStep start p pc = some t) :
    s.blocks.run (s.commitCalls start p pc) = some t.blocks := by
  have hboot : s.boot ≠ some .readHead := fun hb =>
    Proc.noConfusion ((h.counted.boot (hb ▸ Option.some_ne_none _) p).symm.trans hp)
  cases pc with
  | check =>
    obtain rfl := Option.some.inj hstep
    rfl
  | writeLog k =>
    simp only [State.commitStep] at hstep
    cases hk : s.log.lh[k]? with
    | none =>
      rw [hk] at hstep
      obtain rfl := Option.some.inj hstep
      simp only [State.commitCalls, hk]
      rfl
    | some b =>
      simp only [hk] at hstep
      split_ifs at hstep with hfree
      obtain rfl := Option.some.inj hstep
      simp only [State.commitCalls, hk]
      exact run_writeLog (h.ne_logBlock hboot hk) hfree.1 hfree.2 p
  | writeHead =>
    simp only [State.commitStep] at hstep
    split_ifs at hstep with hfree
    obtain rfl := Option.some.inj hstep
    exact run_writeHead hfree p
  | install k =>
    simp only [State.commitStep] at hstep
    cases hk : s.log.lh[k]? with
    | none =>
      rw [hk] at hstep
      obtain rfl := Option.some.inj hstep
      simp only [State.commitCalls, hk]
      rfl
    | some b =>
      simp only [hk] at hstep
      split_ifs at hstep with hfree
      obtain rfl := Option.some.inj hstep
      simp only [State.commitCalls, hk]
      exact run_installTrans (h.ne_logBlock hboot hk) hfree.1 hfree.2 p
  | clear =>
    simp only [State.commitStep] at hstep
    split_ifs at hstep with hfree
    obtain rfl := Option.some.inj hstep
    exact run_writeHead (s := { s with log := { s.log with lh := [] } }) hfree p
  | finish =>
    obtain rfl := Option.some.inj hstep
    rfl

/-- Every step but a failure of the power. -/
theorem Inv.calls (h : Inv start s T) (hfree : s.boot ≠ none → ∀ b, s.holder b = none) (q : π)
    (hstep : s.step start a = some t) (ha : a ≠ .crash) :
    s.blocks.run (s.calls start q a) = some t.blocks := by
  cases a with
  | crash => exact absurd rfl ha
  | evict b =>
    simp only [State.step] at hstep
    split_ifs at hstep with hr
    obtain rfl := Option.some.inj hstep
    simp [State.calls, BlockCache.Cache.run, BlockCache.Cache.step, State.blocks, hr]
  | boot =>
    simp only [State.step, Option.map_eq_some_iff] at hstep
    obtain ⟨pc, hb, rfl⟩ := hstep
    have hlocks := hfree (hb ▸ Option.some_ne_none pc)
    simp only [State.calls, hb]
    cases pc with
    | readHead => exact BlockCache.Cache.run_bread (c := s.blocks) (p := q) (hlocks start)
    | install k =>
      have hne : s.boot ≠ some .readHead := by simp [hb]
      cases hk : s.log.lh[k]? with
      | none =>
        simp only [State.bootCalls, State.bootStep, hk]
        rfl
      | some b =>
        simp only [State.bootCalls, State.bootStep, hk]
        exact run_installTrans (h.ne_logBlock hne hk) (hlocks _) (hlocks _) q
    | clear =>
      exact run_writeHead (s := { s with log := { s.log with lh := [] } }) (hlocks start) q
  | bread p b =>
    simp only [State.step] at hstep
    split_ifs at hstep with hg
    obtain rfl := Option.some.inj hstep
    have hno : s.holder b = none := hg.2
    simp [State.calls, BlockCache.Cache.run, BlockCache.Cache.step, State.blocks, State.load, hno]
    rfl
  | brelse p b =>
    simp only [State.step] at hstep
    split_ifs at hstep with hheld
    obtain rfl := Option.some.inj hstep
    simp [State.calls, BlockCache.Cache.run, BlockCache.Cache.step, State.blocks, hheld]
  | beginOp p =>
    simp only [State.step] at hstep
    split_ifs at hstep
    obtain ⟨l, -, rfl⟩ := Option.map_eq_some_iff.1 hstep
    rfl
  | write p b v =>
    simp only [State.step] at hstep
    cases hp : s.procs p with
    | idle => simp [hp] at hstep
    | commit pc => simp [hp] at hstep
    | op blocks =>
      simp only [hp] at hstep
      split_ifs at hstep with hg
      obtain ⟨⟨l, pin⟩, hlog, rfl⟩ := Option.map_eq_some_iff.1 hstep
      have hheld : s.holder b = some p := hg.1
      simp only [State.calls, hlog, Option.map_some]
      cases pin with
      | true => simp [BlockCache.Cache.run, BlockCache.Cache.step, State.blocks, State.goto, hheld]
      | false => simp [BlockCache.Cache.run, BlockCache.Cache.step, State.blocks, State.goto, hheld]
  | endOp p =>
    simp only [State.step] at hstep
    cases hp : s.procs p with
    | idle => simp [hp] at hstep
    | commit pc => simp [hp] at hstep
    | op blocks =>
      simp only [hp] at hstep
      obtain ⟨r, -, rfl⟩ := Option.map_eq_some_iff.1 hstep
      rfl
  | commit p =>
    simp only [State.step] at hstep
    cases hp : s.procs p with
    | idle => simp [hp] at hstep
    | op blocks => simp [hp] at hstep
    | commit pc =>
      simp only [hp] at hstep
      simp only [State.calls, hp]
      exact h.commitCalls hp hstep

/-- A run keeps what the steps need, and is one of the cache unless the power fails. -/
theorem Inv.runCalls (h : Inv start s T) (hfree : s.boot ≠ none → ∀ b, s.holder b = none) (q : π)
    (as : List (Action π)) {es : List (RedoLog.Event BlockNo Block π)}
    (hrun : s.run start as = some (t, es)) :
    (t.boot ≠ none → ∀ b, t.holder b = none) ∧
      (Action.crash ∉ as → s.blocks.run (s.runCalls start q as) = some t.blocks) := by
  induction as generalizing s T es with
  | nil =>
    obtain ⟨rfl, -⟩ := Prod.mk.inj (Option.some.inj hrun)
    exact ⟨hfree, fun _ => rfl⟩
  | cons a as ih =>
    simp only [State.run, Option.bind_eq_bind, Option.bind_eq_some_iff, Option.pure_def,
      Option.some.injEq, Prod.mk.injEq] at hrun
    obtain ⟨u, hu, ⟨t', es'⟩, hr, rfl, -⟩ := hrun
    obtain ⟨T', -, hinv⟩ := h.step hu
    obtain ⟨hlocks, hruns⟩ := ih hinv (free_step hu hfree) hr
    refine ⟨hlocks, fun hno => ?_⟩
    obtain ⟨ha, has⟩ := not_or.1 fun hmem => hno (List.mem_cons.2 hmem)
    simp only [State.runCalls, hu]
    rw [BlockCache.Cache.run_append, h.calls hfree q hu (Ne.symm ha)]
    exact hruns has

/-- **The log uses the cache of blocks**: from any state that can be reached to the next failure of
the power the calls of its steps, one after the other, are a run of the cache to where the log gets.
The blocks that a round takes are two different ones, and a failure leaves a cache that is empty. -/
theorem log_uses_cache {disk : BlockNo → Block} (hdisk : readHead (disk start) = [])
    {as : List (Action π)} {es : List (RedoLog.Event BlockNo Block π)}
    (hrun : (State.init disk).run start as = some (s, es)) :
    (∀ q as' t es', Action.crash ∉ as' → s.run start as' = some (t, es') →
      s.blocks.run (s.runCalls start q as') = some t.blocks) ∧
      (s.boot ≠ some .readHead →
        ∀ (tail : ℕ) b, s.log.lh[tail]? = some b → b ≠ logBlock start tail) ∧
      s.crashed.blocks = .init s.disk := by
  obtain ⟨T, -, hinv⟩ := (inv_init hdisk).run as hrun
  refine ⟨fun q as' t es' hno hrun' => ?_, fun hboot tail b hk => hinv.ne_logBlock hboot hk, rfl⟩
  obtain ⟨hlocks, -⟩ := (inv_init hdisk).runCalls (fun _ _ => rfl) q as hrun
  exact (hinv.runCalls hlocks q as' hrun').2 hno

theorem log_uses_cache_commit :
    ∃ s es, (State.init fun _ _ => 0#32).run 2#32 (commitRun fun _ => 7#32) = some (s, es) ∧
      (∀ q as' t es', Action.crash ∉ as' → s.run 2#32 as' = some (t, es') →
        s.blocks.run (s.runCalls 2#32 q as') = some t.blocks) ∧
      (s.boot ≠ some .readHead →
        ∀ (tail : ℕ) b, s.log.lh[tail]? = some b → b ≠ logBlock 2#32 tail) ∧
      s.crashed.blocks = .init s.disk := by
  have hsome : ((State.init fun _ _ => 0#32).run 2#32 (commitRun fun _ => 7#32)).isSome = true := by
    decide +kernel
  obtain ⟨⟨s, es⟩, hrun⟩ := Option.isSome_iff_exists.1 hsome
  exact ⟨s, es, hrun, log_uses_cache (by rfl) hrun⟩

end Steps

end Xv6

end KianRiscV
