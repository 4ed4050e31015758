/-
# Commits and recoveries of xv6

Every step of a process, of `commit` and of `recover_from_log` keeps the invariant, and is a step of
the store: a transaction begins, writes or ends, all that has been written becomes durable, or the
power fails.
-/
import KianRiscV.Xv6LogDisk

namespace KianRiscV

namespace Xv6

open RedoLog (Holds Installed Store)

section Steps

variable {π : Type} [DecidableEq π] [Fintype π] {start b : BlockNo} {s t : State π} {T : Contents π}
  {pins : List BlockNo} {p : π}

/-- The invariant. -/
structure Inv (start : BlockNo) (s : State π) (T : Contents π) : Prop where
  counted : Counted s T.active
  stored : ∃ pins, Stored start s T pins ∧ Phase start s T pins

omit [DecidableEq π] [Fintype π] in
theorem Stored.congr (h : Stored start s T pins) (hd : t.disk = s.disk) (hb : t.buf = s.buf)
    (hr : t.refcnt = s.refcnt) (hh : t.holder = s.holder) : Stored start t T pins := by
  obtain ⟨h1, h2, ⟨h3, h4⟩, h5, h6⟩ := h
  cases s
  cases t
  subst hd hb hr hh
  exact ⟨h1, h2, ⟨h3, h4⟩, h5, h6⟩

omit [DecidableEq π] in
/-- While nothing is recovered or committed. -/
theorem Phase.of_opened (h : Phase start s T pins) (hc : Counted s T.active) (hb : s.boot = none)
    (hcomm : s.log.committing = false) :
    Collecting start s.disk s.log.lh T ∧ pins = s.log.lh ∧ (T.active = ∅ → s.log.lh = []) := by
  have hno := hc.not_commit hcomm
  cases h with
  | readHead hb' _ => exact absurd (hb'.symm.trans hb) (by simp)
  | recover k hb' _ => exact absurd (hb'.symm.trans hb) (by simp)
  | recovered hb' _ => exact absurd (hb'.symm.trans hb) (by simp)
  | opened _ _ h he => exact ⟨h, rfl, he⟩
  | check p _ hp _ => exact absurd hp (hno p _)
  | writeLog p k _ hp _ _ => exact absurd hp (hno p _)
  | writeHead p _ hp _ _ => exact absurd hp (hno p _)
  | install p k _ hp _ _ => exact absurd hp (hno p _)
  | clear p _ hp _ => exact absurd hp (hno p _)
  | finish p _ hp _ _ => exact absurd hp (hno p _)

/-- What holds at each place in `commit`. -/
def AtCommit (start : BlockNo) (s : State π) (T : Contents π) (pins : List BlockNo) : CommitPc → Prop
  | .check => pins = s.log.lh ∧ Collecting start s.disk s.log.lh T
  | .writeLog k => pins = s.log.lh ∧ Collecting start s.disk s.log.lh T ∧
      Logged start s.disk s.log.lh T k
  | .writeHead => pins = s.log.lh ∧ Collecting start s.disk s.log.lh T ∧
      Logged start s.disk s.log.lh T s.log.lh.length
  | .install k => pins = s.log.lh.drop k ∧ Installing start s.disk s.log.lh T k ∧ s.log.lh.Nodup
  | .clear => pins = [] ∧ Installing start s.disk s.log.lh T s.log.lh.length
  | .finish => pins = [] ∧ s.log.lh = [] ∧ Collecting start s.disk [] T

omit [DecidableEq π] in
theorem Phase.of_commit {pc : CommitPc} (h : Phase start s T pins) (hc : Counted s T.active)
    (hp : s.procs p = .commit pc) : s.boot = none ∧ AtCommit start s T pins pc := by
  have hboot : s.boot = none := by
    by_contra hne
    exact Proc.noConfusion ((hc.boot hne p).symm.trans hp)
  refine ⟨hboot, ?_⟩
  have hpc : ∀ {q pc'}, s.procs q = .commit pc' → pc' = pc := by
    intro q pc' hq
    rw [hc.unique hq hp, hp] at hq
    exact (Proc.commit.inj hq).symm
  cases h with
  | readHead hb' _ => exact absurd (hb'.symm.trans hboot) (by simp)
  | recover k hb' _ => exact absurd (hb'.symm.trans hboot) (by simp)
  | recovered hb' _ => exact absurd (hb'.symm.trans hboot) (by simp)
  | opened _ hcomm _ _ => exact absurd hp (hc.not_commit hcomm p _)
  | check q _ hq h =>
    obtain rfl := hpc hq
    exact ⟨rfl, h⟩
  | writeLog q k _ hq h hl =>
    obtain rfl := hpc hq
    exact ⟨rfl, h, hl⟩
  | writeHead q _ hq h hl =>
    obtain rfl := hpc hq
    exact ⟨rfl, h, hl⟩
  | install q k _ hq h hn =>
    obtain rfl := hpc hq
    exact ⟨rfl, h, hn⟩
  | clear q _ hq h =>
    obtain rfl := hpc hq
    exact ⟨rfl, h⟩
  | finish q _ hq hl h =>
    obtain rfl := hpc hq
    exact ⟨rfl, hl, h⟩

/-! ### Buffers -/

omit [DecidableEq π] in
theorem Inv.evict (h : Inv start s T) (hr : s.refcnt b = 0) :
    Inv start { s with buf := Function.update s.buf b none } T := by
  obtain ⟨hc, pins, hs, hp⟩ := h
  refine ⟨hc.congr rfl rfl rfl, pins, ⟨hs.holds, hs.sound, ⟨?_, ?_⟩, hs.referenced.refs, ?_⟩,
    hp.congr rfl rfl rfl rfl⟩
  · intro c v hc hv
    have hcb : c ≠ b := by
      rintro rfl
      simp at hv
    exact hs.cached.home c v hc ((Function.update_of_ne hcb none s.buf).symm.trans hv)
  · intro c v hc hv
    have hcb : c ≠ b := by
      rintro rfl
      simp at hv
    exact hs.cached.log c v hc ((Function.update_of_ne hcb none s.buf).symm.trans hv)
  · intro c hc
    have hcb : c ≠ b := by
      rintro rfl
      have hle := hs.referenced.refs c
      rw [if_pos hc, hr] at hle
      omega
    exact (congrArg Option.isSome (Function.update_of_ne hcb none s.buf)).trans
      (hs.referenced.valid c hc)

omit [DecidableEq π] in
theorem Inv.bread (h : Inv start s T) (hboot : s.boot = none) (hfree : s.Free b) (p : π) :
    Inv start { s.load b with
      refcnt := Function.update s.refcnt b (s.refcnt b + 1)
      holder := Function.update s.holder b (some p) } T := by
  obtain ⟨hc, pins, hs, hp⟩ := h
  refine ⟨hc.congr rfl rfl rfl, pins, ⟨hs.holds, hs.sound,
    hs.cached.load (hp.view_eq hs hboot) rfl rfl, fun c => ?_, fun c hcp => ?_⟩,
    hp.congr rfl rfl rfl rfl⟩
  · have hle := hs.referenced.refs c
    show (if (Function.update s.holder b (some p) c).isSome then 1 else 0) + _
      ≤ Function.update s.refcnt b (s.refcnt b + 1) c
    by_cases hcb : c = b
    · subst hcb
      rw [hfree] at hle
      simp only [Function.update_self, Option.isSome_some, if_true]
      simp only [Option.isSome_none, Bool.false_eq_true, if_false] at hle
      omega
    · rw [Function.update_of_ne hcb, Function.update_of_ne hcb]
      exact hle
  · exact isSome_update s.buf b _ (hs.referenced.valid c hcp)

omit [DecidableEq π] in
theorem Inv.brelse (h : Inv start s T) (hheld : s.holder b = some p) :
    Inv start { s with
      refcnt := Function.update s.refcnt b (s.refcnt b - 1)
      holder := Function.update s.holder b none } T := by
  obtain ⟨hc, pins, hs, hp⟩ := h
  refine ⟨hc.congr rfl rfl rfl, pins, ⟨hs.holds, hs.sound, ⟨hs.cached.home, hs.cached.log⟩,
    fun c => ?_, hs.referenced.valid⟩, hp.congr rfl rfl rfl rfl⟩
  have hle := hs.referenced.refs c
  show (if (Function.update s.holder b none c).isSome then 1 else 0) + _
    ≤ Function.update s.refcnt b (s.refcnt b - 1) c
  by_cases hcb : c = b
  · subst hcb
    rw [hheld] at hle
    simp only [Function.update_self, Option.isSome_none, Bool.false_eq_true, if_false]
    simp only [Option.isSome_some, if_true] at hle
    omega
  · rw [Function.update_of_ne hcb, Function.update_of_ne hcb]
    exact hle

/-! ### Transactions -/

theorem Inv.begin {l : Log} (h : Inv start s T) (hboot : s.boot = none) (hp : s.procs p = .idle)
    (hl : s.log.beginOp = some l) :
    p ∉ T.active ∧ Inv start ({ s with log := l }.goto p (.op ∅))
      { T with active := insert p T.active } := by
  obtain ⟨hc, pins, hs, hph⟩ := h
  obtain ⟨hcomm, hn, rfl⟩ := Log.beginOp_eq_some hl
  obtain ⟨hcol, rfl, -⟩ := hph.of_opened hc hboot hcomm
  obtain ⟨hpA, hc'⟩ := hc.begin (t := { s with log := _ }.goto p (.op ∅)) hp hboot hcomm hn rfl rfl rfl
  exact ⟨hpA, hc', s.log.lh, ⟨hs.holds, hs.sound, ⟨hs.cached.home, hs.cached.log⟩,
    hs.referenced.refs, hs.referenced.valid⟩,
    .opened hboot hcomm ⟨hcol.empty, hcol.nodup, hcol.home, hcol.rest⟩
      fun he => absurd he (Finset.insert_ne_empty p T.active)⟩

theorem Inv.write {blocks : Finset BlockNo} {l : Log} {pin : Bool} {v : Block}
    (h : Inv start s T) (hp : s.procs p = .op blocks) (hb : IsHome start b)
    (hbud : b ∈ blocks ∨ blocks.card < maxOpBlocks) (hl : s.log.logWrite b = some (l, pin)) :
    p ∈ T.active ∧ Inv start
      ({ s with
        log := l
        buf := Function.update s.buf b (some v)
        refcnt := if pin then Function.update s.refcnt b (s.refcnt b + 1) else s.refcnt }.goto p
        (.op (insert b blocks))) { T with current := Function.update T.current b v } := by
  obtain ⟨hc, pins, hs, hph⟩ := h
  obtain ⟨-, rfl, hpin⟩ := Log.logWrite_eq_some hl
  have hpA : p ∈ T.active := (hc.active p).2 ⟨blocks, hp⟩
  have hboot : s.boot = none := by
    by_contra hne
    exact Proc.noConfusion ((hc.boot hne p).symm.trans hp)
  have hcomm : s.log.committing = false := by
    by_contra hno
    obtain ⟨q, pc, hq⟩ := hc.committing.1 (Bool.eq_true_of_not_eq_false hno)
    rw [hc.alone hq] at hpA
    exact Finset.notMem_empty p hpA
  obtain ⟨hcol, rfl, -⟩ := hph.of_opened hc hboot hcomm
  -- the block is in the new log, and nothing else is new there
  have hmem : ∀ c, c ∈ (if pin then s.log.lh ++ [b] else s.log.lh) ↔ c = b ∨ c ∈ s.log.lh := by
    intro c
    cases pin with
    | true => simp [or_comm]
    | false =>
      have hbl : b ∈ s.log.lh := by
        by_contra hno
        exact absurd (hpin.2 hno) Bool.false_ne_true
      refine ⟨.inr, ?_⟩
      rintro (rfl | hcl)
      · exact hbl
      · exact hcl
  have hother : ∀ c, c ≠ b → Function.update T.current b v c = T.current c :=
    fun c hcb => Function.update_of_ne hcb _ _
  refine ⟨hpA, hc.write hp hbud hpin rfl rfl rfl, (if pin then s.log.lh ++ [b] else s.log.lh),
    ⟨hs.holds, hs.sound, ⟨fun c w hch hw => ?_, fun c w hch hw => ?_⟩, fun c => ?_, fun c hcl => ?_⟩,
    .opened hboot hcomm ⟨hcol.empty, ?_, fun c hcl => ?_, fun c hch hcl => ?_⟩ fun he => ?_⟩
  · have hw' : Function.update s.buf b (some v) c = some w := hw
    show w = Function.update T.current b v c
    by_cases hcb : c = b
    · subst hcb
      rw [Function.update_self] at hw' ⊢
      exact (Option.some.inj hw').symm
    · rw [Function.update_of_ne hcb] at hw' ⊢
      exact hs.cached.home c w hch hw'
  · have hw' : Function.update s.buf b (some v) c = some w := hw
    have hcb : c ≠ b := by
      rintro rfl
      exact hch hb
    rw [Function.update_of_ne hcb] at hw'
    exact hs.cached.log c w hch hw'
  · have hle := hs.referenced.refs c
    show (if (s.holder c).isSome then 1 else 0) + _
      ≤ (if pin then Function.update s.refcnt b (s.refcnt b + 1) else s.refcnt) c
    cases pin with
    | true =>
      have hbl := hpin.1 rfl
      simp only [if_true]
      by_cases hcb : c = b
      · subst hcb
        rw [if_neg hbl] at hle
        rw [if_pos (List.mem_append_right _ (List.mem_singleton.2 rfl)), Function.update_self]
        omega
      · rw [Function.update_of_ne hcb]
        simp only [List.mem_append, List.mem_singleton, hcb, or_false]
        exact hle
    | false =>
      simp only [Bool.false_eq_true, if_false]
      exact hle
  · show (Function.update s.buf b (some v) c).isSome = true
    rcases (hmem c).1 hcl with rfl | hcl
    · rw [Function.update_self]
      rfl
    · exact isSome_update s.buf b v (hs.referenced.valid c hcl)
  · cases pin with
    | true =>
      refine List.nodup_append.2 ⟨hcol.nodup, List.nodup_singleton b, fun c hcl d hd => ?_⟩
      rintro rfl
      exact hpin.1 rfl (List.mem_singleton.1 hd ▸ hcl)
    | false => exact hcol.nodup
  · rcases (hmem c).1 hcl with rfl | hcl
    · exact hb
    · exact hcol.home c hcl
  · have hno : ¬ (c = b ∨ c ∈ s.log.lh) := fun hyes => hcl ((hmem c).2 hyes)
    rw [not_or] at hno
    show Function.update T.current b v c = T.durable c
    rw [hother c hno.1]
    exact hcol.rest c hch hno.2
  · exact absurd (he ▸ hpA) (Finset.notMem_empty p)

theorem Inv.finish {blocks : Finset BlockNo} {l : Log} {c : Bool} (h : Inv start s T)
    (hp : s.procs p = .op blocks) (hl : s.log.endOp = some (l, c)) :
    p ∈ T.active ∧ Inv start ({ s with log := l }.goto p (if c then .commit .check else .idle))
      { T with active := T.active.erase p } := by
  obtain ⟨hc, pins, hs, hph⟩ := h
  obtain ⟨hcomm, rfl, hout⟩ := Log.endOp_eq_some hl
  have hboot : s.boot = none := by
    by_contra hne
    exact Proc.noConfusion ((hc.boot hne p).symm.trans hp)
  obtain ⟨hcol, rfl, -⟩ := hph.of_opened hc hboot hcomm
  obtain ⟨hpA, hc'⟩ := hc.finish (t := { s with log := _ }.goto p (if c then .commit .check else .idle))
    hp hcomm rfl hout rfl rfl
  have hcol' : Collecting start s.disk s.log.lh { T with active := T.active.erase p } :=
    ⟨hcol.empty, hcol.nodup, hcol.home, hcol.rest⟩
  refine ⟨hpA, hc', s.log.lh, ⟨hs.holds, hs.sound, ⟨hs.cached.home, hs.cached.log⟩,
    hs.referenced.refs, hs.referenced.valid⟩, ?_⟩
  cases c with
  | true => exact .check p hboot (Function.update_self p _ _) hcol'
  | false =>
    refine .opened hboot rfl hcol' fun he => ?_
    -- another transaction is still on its way
    have hone : s.log.outstanding = 1 := by
      have hcard := Finset.card_erase_add_one hpA
      have hzero : (T.active.erase p).card = 0 := Finset.card_eq_zero.2 he
      rw [hc.outstanding]
      omega
    exact absurd (hout.2 hone) Bool.false_ne_true

/-! ### Installing -/

omit [DecidableEq π] [Fintype π] in
theorem Installing.mono {disk : BlockNo → Block} {lh : List BlockNo} {k : ℕ}
    (h : Installing start disk lh T k) (hk : lh.length ≤ k) :
    Installing start disk lh T lh.length := by
  refine ⟨h.header, h.current, fun t ht _ => h.installed t ht ?_⟩
  have hlen : t < (readHead (disk start)).length := ht
  rw [h.header] at hlen
  omega

omit [DecidableEq π] [Fintype π] in
/-- Once all blocks are installed, the disk has the durable contents. -/
theorem Installing.all {lh : List BlockNo} (h : Installing start s.disk lh T lh.length)
    (hh : Holds (IsHome start) (diskOf start s.disk) T.durable) (hb : IsHome start b) :
    s.disk b = T.durable b :=
  h.disk_eq hh hb (by simp)

omit [DecidableEq π] [Fintype π] in
/-- One round of `install_trans`. -/
theorem Installing.round {k : ℕ} (h : Installing start s.disk s.log.lh T k)
    (hs : Stored start s T pins) (hk : s.log.lh[k]? = some b)
    (hdisk : t.disk = Function.update s.disk b (s.view (logBlock start k)))
    (hbuf : t.buf = Function.update (s.load (logBlock start k)).buf b
      (some (s.view (logBlock start k)))) :
    Holds (IsHome start) (diskOf start t.disk) T.durable ∧ Sound start t.disk ∧ Cached start t T ∧
      Installing start t.disk s.log.lh T (k + 1) := by
  have hk' : (readHead (s.disk start))[k]? = some b := by
    rw [h.header]
    exact hk
  obtain ⟨hlt', hget'⟩ := List.getElem?_eq_some_iff.1 hk'
  have hmem : b ∈ readHead (s.disk start) := List.mem_of_getElem? hk'
  have hhome := hs.sound.home b hmem
  have hview : s.view (logBlock start k) = s.disk (logBlock start k) :=
    hs.view_log (not_isHome_logBlock (Nat.lt_of_lt_of_le hlt' hs.sound.length))
  have hdur : s.disk (logBlock start k) = T.durable b := by
    rw [← hget']
    exact hs.holds.slots k hlt'
  have hstart : Function.update s.disk b (s.view (logBlock start k)) start = s.disk start :=
    Function.update_of_ne hhome.1.symm _ _
  rw [hdisk]
  refine ⟨holds_home hs.sound hs.holds hmem, hs.sound.of_head hstart, ?_, ⟨?_, h.current, ?_⟩⟩
  · have hload : Cached start (s.load (logBlock start k)) T :=
      hs.cached.load (fun hno => absurd hno
        (not_isHome_logBlock (Nat.lt_of_lt_of_le hlt' hs.sound.length))) rfl rfl
    refine hload.bwrite (fun _ => ?_) hbuf hdisk
    rw [hview, hdur, h.current b hhome]
  · rw [hstart]
    exact h.header
  · exact installed_home hs.sound hs.holds h.installed hlt' hget' hview.symm

omit [DecidableEq π] [Fintype π] in
/-- `write_head` with an empty log. -/
theorem Installing.clear (h : Installing start s.disk s.log.lh T s.log.lh.length)
    (hs : Stored start s T pins) (hr : t.refcnt = s.refcnt) (hh : t.holder = s.holder)
    (hdisk : t.disk = Function.update s.disk start (putHead [] (s.view start)))
    (hbuf : t.buf = Function.update s.buf start (some (putHead [] (s.view start)))) :
    Stored start t T [] ∧ Collecting start t.disk [] T := by
  have hempty : readHead (putHead [] (s.view start)) = [] :=
    readHead_putHead (Nat.zero_le _) _
  have hstart : readHead (t.disk start) = [] := by
    rw [hdisk, Function.update_self]
    exact hempty
  refine ⟨⟨?_, ⟨?_, ?_⟩, ?_, ?_⟩, ⟨hstart, List.nodup_nil, fun b hb => absurd hb List.not_mem_nil,
    fun b hb _ => h.current b hb⟩⟩
  · rw [hdisk]
    exact holds_clear (fun c hc => h.all hs.holds hc) hempty
  · rw [hstart]
    exact Nat.zero_le _
  · rw [hstart]
    exact fun b hb => absurd hb List.not_mem_nil
  · exact hs.cached.bwrite (fun hno => absurd hno not_isHome_start) hbuf hdisk
  · refine hs.referenced.of_subset (fun b hb => absurd hb List.not_mem_nil) hr hh fun b hb => ?_
    rw [hbuf]
    exact isSome_update s.buf start _ hb

/-! ### The commit -/

theorem Inv.commit_check (h : Inv start s T) (hp : s.procs p = .commit .check) :
    Inv start (s.goto p (.commit (if s.log.lh.length > 0 then .writeLog 0 else .finish))) T := by
  obtain ⟨hc, pins, hs, hph⟩ := h
  obtain ⟨hboot, rfl, hcol⟩ := hph.of_commit hc hp
  refine ⟨hc.commit_next hp rfl le_rfl rfl rfl, s.log.lh, hs.congr rfl rfl rfl rfl, ?_⟩
  by_cases hlen : s.log.lh.length > 0
  · rw [if_pos hlen]
    exact .writeLog p 0 hboot (Function.update_self p _ _) hcol
      fun t _ ht => absurd ht (Nat.not_lt_zero t)
  · have hnil : s.log.lh = [] := List.eq_nil_of_length_eq_zero (by omega)
    rw [if_neg hlen]
    have hcol' := hcol
    rw [hnil] at hcol' ⊢
    exact .finish p hboot (Function.update_self p _ _) hnil hcol'

theorem Inv.commit_writeLog {k : ℕ} (h : Inv start s T) (hp : s.procs p = .commit (.writeLog k))
    (hstep : s.commitStep start p (.writeLog k) = some t) : Inv start t T := by
  obtain ⟨hc, pins, hs, hph⟩ := h
  obtain ⟨hboot, rfl, hcol, hlog⟩ := hph.of_commit hc hp
  simp only [State.commitStep] at hstep
  cases hk : s.log.lh[k]? with
  | none =>
    rw [hk] at hstep
    obtain rfl := Option.some.inj hstep
    have hlen := List.getElem?_eq_none_iff.1 hk
    exact ⟨hc.commit_next hp rfl le_rfl rfl rfl, s.log.lh, hs.congr rfl rfl rfl rfl,
      .writeHead p hboot (Function.update_self p _ _) hcol fun t ht _ => hlog t ht
        (Nat.lt_of_lt_of_le ht hlen)⟩
  | some b =>
    simp only [hk] at hstep
    obtain ⟨hlt, hget⟩ := List.getElem?_eq_some_iff.1 hk
    split_ifs at hstep with hfree
    obtain rfl := Option.some.inj hstep
    have hb : IsHome start b := hcol.home b (List.mem_of_getElem? hk)
    have hview : s.view b = T.current b := hph.view_eq hs hboot hb
    have hkl : k < logBlocks := by
      have := hc.space
      omega
    have hslot : ¬ IsHome start (logBlock start k) := not_isHome_logBlock hkl
    have hstart : Function.update s.disk (logBlock start k) (s.view b) start = s.disk start :=
      Function.update_of_ne (logBlock_ne_start hkl).symm _ _
    refine ⟨hc.commit_next hp rfl le_rfl rfl rfl, s.log.lh, ⟨holds_slot hs.holds hcol.empty hkl,
      hs.sound.of_head hstart, ?_, ?_⟩, .writeLog p (k + 1) hboot (Function.update_self p _ _)
      ⟨?_, hcol.nodup, hcol.home, hcol.rest⟩ ?_⟩
    · have hload : Cached start (s.load b) T := hs.cached.load (fun _ => hview) rfl rfl
      exact hload.bwrite (fun hno => absurd hno hslot) rfl rfl
    · exact hs.referenced.of_subset (fun _ hb => hb) rfl rfl fun c hcs =>
        isSome_update _ _ _ (isSome_update s.buf b _ hcs)
    · exact (congrArg readHead hstart).trans hcol.empty
    · intro t ht htk
      show Function.update s.disk (logBlock start k) (s.view b) (logBlock start t) = _
      have htl : t < logBlocks := by
        have := hc.space
        have hlen : t < s.log.lh.length := ht
        omega
      by_cases hteq : t = k
      · subst hteq
        rw [Function.update_self, hview, ← hget]
        rfl
      · rw [Function.update_of_ne fun heq => hteq (logBlock_inj htl hkl heq)]
        exact hlog t ht (by omega)

theorem Inv.commit_writeHead (h : Inv start s T) (hp : s.procs p = .commit .writeHead) :
    T.active = ∅ ∧ Inv start ((s.writeHead start).goto p (.commit (.install 0)))
      { T with durable := T.current } := by
  obtain ⟨hc, pins, hs, hph⟩ := h
  obtain ⟨hboot, rfl, hcol, hlog⟩ := hph.of_commit hc hp
  have hlen : s.log.lh.length ≤ logBlocks := by
    have := hc.space
    omega
  have hhead : readHead (putHead s.log.lh (s.view start)) = s.log.lh := readHead_putHead hlen _
  have hstart : readHead (Function.update s.disk start (putHead s.log.lh (s.view start)) start)
      = s.log.lh := (congrArg readHead (Function.update_self _ _ _)).trans hhead
  have hcached : Cached start ((s.writeHead start).goto p (.commit (.install 0))) T :=
    hs.cached.bwrite (fun hno => absurd hno not_isHome_start) rfl rfl
  have hph' : Phase start ((s.writeHead start).goto p (.commit (.install 0)))
      { T with durable := T.current } (s.log.lh.drop 0) :=
    .install p 0 hboot (Function.update_self p _ _)
      ⟨hstart, fun _ _ => rfl, RedoLog.installed_zero _ _⟩ hcol.nodup
  refine ⟨hc.alone hp, hc.commit_next hp rfl le_rfl rfl rfl, s.log.lh, ⟨?_, ⟨?_, ?_⟩,
    ⟨hcached.home, hcached.log⟩, ?_⟩, hph'⟩
  · exact holds_head hs.holds hcol.empty hlen hhead (fun t ht => hlog t ht ht) hcol.rest
  · rw [show ((s.writeHead start).goto p (.commit (.install 0))).disk
      = Function.update s.disk start (putHead s.log.lh (s.view start)) from rfl, hstart]
    exact hlen
  · rw [show ((s.writeHead start).goto p (.commit (.install 0))).disk
      = Function.update s.disk start (putHead s.log.lh (s.view start)) from rfl, hstart]
    exact hcol.home
  · exact hs.referenced.of_subset (fun _ hb => hb) rfl rfl fun c hcs => isSome_update s.buf start _ hcs

theorem Inv.commit_install {k : ℕ} (h : Inv start s T) (hp : s.procs p = .commit (.install k))
    (hstep : s.commitStep start p (.install k) = some t) : Inv start t T := by
  obtain ⟨hc, pins, hs, hph⟩ := h
  obtain ⟨hboot, rfl, hins, hnodup⟩ := hph.of_commit hc hp
  simp only [State.commitStep] at hstep
  cases hk : s.log.lh[k]? with
  | none =>
    rw [hk] at hstep
    obtain rfl := Option.some.inj hstep
    have hlen := List.getElem?_eq_none_iff.1 hk
    have hdrop : s.log.lh.drop k = [] := List.drop_eq_nil_of_le hlen
    rw [hdrop] at hs
    exact ⟨hc.commit_next hp rfl le_rfl rfl rfl, [], hs.congr rfl rfl rfl rfl,
      .clear p hboot (Function.update_self p _ _) (hins.mono hlen)⟩
  | some b =>
    simp only [hk] at hstep
    obtain ⟨hlt, hget⟩ := List.getElem?_eq_some_iff.1 hk
    split_ifs at hstep with hfree
    obtain rfl := Option.some.inj hstep
    obtain ⟨hholds, hsound, hcached, hins'⟩ := hins.round
      (t := (s.installTrans start false k b).goto p (.commit (.install (k + 1)))) hs hk rfl rfl
    have hdrop : s.log.lh.drop k = b :: s.log.lh.drop (k + 1) := by
      rw [← hget]
      exact List.drop_eq_getElem_cons hlt
    have hnot : b ∉ s.log.lh.drop (k + 1) := by
      have hn := hnodup.sublist (List.drop_sublist k s.log.lh)
      rw [hdrop] at hn
      exact (List.nodup_cons.1 hn).1
    have href := hs.referenced
    rw [hdrop] at href
    refine ⟨hc.commit_next hp rfl le_rfl rfl rfl, s.log.lh.drop (k + 1),
      ⟨hholds, hsound, hcached, href.unpin hnot rfl rfl fun c hcs => ?_⟩,
      .install p (k + 1) hboot (Function.update_self p _ _) hins' hnodup⟩
    exact isSome_update _ _ _ (isSome_update s.buf _ _ hcs)

theorem Inv.commit_clear (h : Inv start s T) (hp : s.procs p = .commit .clear) :
    Inv start (({ s with log := { s.log with lh := [] } }.writeHead start).goto p
      (.commit .finish)) T := by
  obtain ⟨hc, pins, hs, hph⟩ := h
  obtain ⟨hboot, -, hins⟩ := hph.of_commit hc hp
  obtain ⟨hs', hcol⟩ := hins.clear
    (t := ({ s with log := { s.log with lh := [] } }.writeHead start).goto p (.commit .finish))
    hs rfl rfl rfl rfl
  exact ⟨hc.commit_next hp rfl (Nat.zero_le _) rfl rfl, [], hs',
    .finish p hboot (Function.update_self p _ _) rfl hcol⟩

theorem Inv.commit_finish (h : Inv start s T) (hp : s.procs p = .commit .finish) :
    Inv start ({ s with log := { s.log with committing := false } }.goto p .idle) T := by
  obtain ⟨hc, pins, hs, hph⟩ := h
  obtain ⟨hboot, rfl, hnil, hcol⟩ := hph.of_commit hc hp
  have hA := hc.alone hp
  have hidle : ∀ q, ({ s with log := { s.log with committing := false } }.goto p .idle).procs q
      = .idle := by
    intro q
    show Function.update s.procs p .idle q = .idle
    by_cases hqp : q = p
    · rw [hqp, Function.update_self]
    · rw [Function.update_of_ne hqp]
      cases hq : s.procs q with
      | idle => rfl
      | commit pc => exact absurd (hc.unique hq hp) hqp
      | op blocks =>
        have hqA := (hc.active q).2 ⟨blocks, hq⟩
        rw [hA] at hqA
        exact absurd hqA (Finset.notMem_empty q)
  have hout := hc.outstanding
  rw [hA] at hout
  have hph' : Phase start ({ s with log := { s.log with committing := false } }.goto p .idle) T
      s.log.lh := .opened hboot rfl (hnil ▸ hcol) fun _ => hnil
  rw [hnil] at hph'
  refine ⟨?_, [], hs.congr rfl rfl rfl rfl, hph'⟩
  rw [hA]
  refine counted_idle hout rfl hidle ?_
  show s.log.lh.length ≤ logBlocks
  rw [hnil]
  exact Nat.zero_le _

/-! ### The recovery -/

omit [DecidableEq π] in
/-- Before `initlog` is through no process is in the file system. -/
theorem Counted.of_boot {A : Finset π} (h : Counted s A) (hb : s.boot ≠ none) :
    A = ∅ ∧ s.log.outstanding = 0 ∧ s.log.committing = false := by
  have hidle := h.boot hb
  have hA : A = ∅ := by
    refine Finset.eq_empty_of_forall_notMem fun q hq => ?_
    obtain ⟨blocks, hop⟩ := (h.active q).1 hq
    exact Proc.noConfusion ((hidle q).symm.trans hop)
  refine ⟨hA, ?_, ?_⟩
  · rw [h.outstanding, hA]
    rfl
  · by_contra hno
    obtain ⟨q, pc, hq⟩ := h.committing.1 (Bool.eq_true_of_not_eq_false hno)
    exact Proc.noConfusion ((hidle q).symm.trans hq)

omit [DecidableEq π] in
/-- The counters while the log changes. -/
theorem Counted.boot_next {A : Finset π} (h : Counted s A) (hb : s.boot ≠ none)
    (hp : t.procs = s.procs) {lh : List BlockNo} (hl : t.log = { s.log with lh := lh })
    (hlen : lh.length ≤ logBlocks) : Counted t A := by
  obtain ⟨rfl, hout, hcomm⟩ := h.of_boot hb
  refine counted_idle ?_ ?_ (fun q => ?_) ?_
  · rw [hl]
    exact hout
  · rw [hl]
    exact hcomm
  · rw [hp]
    exact h.boot hb q
  · rw [hl]
    exact hlen

omit [DecidableEq π] in
theorem Inv.recover {pc : BootPc} (h : Inv start s T) (hb : s.boot = some pc) :
    Inv start (s.bootStep start pc) T := by
  obtain ⟨hc, pins, hs, hph⟩ := h
  have hne : s.boot ≠ none := by
    rw [hb]
    exact Option.some_ne_none pc
  have hpc : ∀ {pc'}, s.boot = some pc' → pc' = pc := fun h' => Option.some.inj (h'.symm.trans hb)
  cases hph with
  | readHead hb' hcur =>
    obtain rfl := hpc hb'
    have hview := hs.view_log (b := start) not_isHome_start
    refine ⟨hc.boot_next hne rfl rfl ?_, [], ⟨hs.holds, hs.sound, ?_, ?_⟩,
      .recover 0 rfl ⟨?_, hcur, RedoLog.installed_zero _ _⟩⟩
    · rw [hview]
      exact hs.sound.length
    · exact hs.cached.load (fun hno => absurd hno not_isHome_start) rfl rfl
    · exact hs.referenced.of_subset (fun _ hb => hb) rfl rfl fun c hcs => isSome_update s.buf _ _ hcs
    · exact congrArg readHead hview.symm
  | recover k hb' hins =>
    obtain rfl := hpc hb'
    simp only [State.bootStep]
    cases hk : s.log.lh[k]? with
    | none =>
      exact ⟨hc.boot_next hne rfl rfl (hins.header ▸ hs.sound.length), [], hs.congr rfl rfl rfl rfl,
        .recovered rfl (hins.mono (List.getElem?_eq_none_iff.1 hk))⟩
    | some b =>
      obtain ⟨hholds, hsound, hcached, hins'⟩ := hins.round
        (t := { s.installTrans start true k b with boot := some (.install (k + 1)) }) hs hk rfl rfl
      refine ⟨hc.boot_next hne rfl rfl (hins.header ▸ hs.sound.length), [],
        ⟨hholds, hsound, hcached, hs.referenced.of_subset (fun _ hb => hb) rfl rfl fun c hcs => ?_⟩,
        .recover (k + 1) rfl hins'⟩
      exact isSome_update _ _ _ (isSome_update s.buf _ _ hcs)
  | recovered hb' hins =>
    obtain rfl := hpc hb'
    obtain ⟨hs', hcol⟩ := hins.clear (t := s.bootStep start .clear) hs rfl rfl rfl rfl
    exact ⟨hc.boot_next hne rfl rfl (Nat.zero_le _), [], hs',
      .opened rfl (hc.of_boot hne).2.2 hcol fun _ => rfl⟩
  | opened hb' _ _ _ => exact absurd hb' hne
  | check _ hb' _ _ => exact absurd hb' hne
  | writeLog _ _ hb' _ _ _ => exact absurd hb' hne
  | writeHead _ hb' _ _ _ => exact absurd hb' hne
  | install _ _ hb' _ _ _ => exact absurd hb' hne
  | clear _ hb' _ _ => exact absurd hb' hne
  | finish _ hb' _ _ _ => exact absurd hb' hne

omit [DecidableEq π] in
/-- The power fails. -/
theorem Inv.crash (h : Inv start s T) : Inv start s.crashed ⟨T.durable, T.durable, ∅⟩ := by
  obtain ⟨-, pins, hs, -⟩ := h
  refine ⟨counted_idle rfl rfl (fun _ => rfl) (Nat.zero_le _), [], ⟨hs.holds, hs.sound,
    ⟨fun b v _ hv => ?_, fun b v _ hv => ?_⟩, fun b => ?_, fun b hb => absurd hb List.not_mem_nil⟩,
    .readHead rfl fun _ _ => rfl⟩
  · exact absurd hv (by simp [State.crashed])
  · exact absurd hv (by simp [State.crashed])
  · rw [if_neg List.not_mem_nil]
    exact Nat.le_refl 0

/-! ### Runs -/

/-- Every step keeps the invariant, and is one of the store. -/
theorem Inv.step {a : Action π} (h : Inv start s T) (hstep : s.step start a = some t) :
    ∃ T', T.run (s.event a) = some T' ∧ Inv start t T' := by
  cases a with
  | crash =>
    obtain rfl := Option.some.inj hstep
    exact ⟨_, rfl, h.crash⟩
  | evict b =>
    simp only [State.step] at hstep
    split_ifs at hstep with hr
    obtain rfl := Option.some.inj hstep
    exact ⟨T, rfl, h.evict hr⟩
  | boot =>
    simp only [State.step, Option.map_eq_some_iff] at hstep
    obtain ⟨pc, hb, rfl⟩ := hstep
    exact ⟨T, rfl, h.recover hb⟩
  | bread p b =>
    simp only [State.step] at hstep
    split_ifs at hstep with hg
    obtain rfl := Option.some.inj hstep
    exact ⟨T, rfl, h.bread hg.1 hg.2 p⟩
  | brelse p b =>
    simp only [State.step] at hstep
    split_ifs at hstep with hheld
    obtain rfl := Option.some.inj hstep
    exact ⟨T, rfl, h.brelse hheld⟩
  | beginOp p =>
    simp only [State.step] at hstep
    split_ifs at hstep with hg
    obtain ⟨l, hl, rfl⟩ := Option.map_eq_some_iff.1 hstep
    obtain ⟨hpA, hinv⟩ := h.begin hg.1 hg.2 hl
    refine ⟨_, ?_, hinv⟩
    rw [State.event, Store.run_singleton, Store.next, if_neg hpA]
  | write p b v =>
    simp only [State.step] at hstep
    cases hp : s.procs p with
    | idle => simp [hp] at hstep
    | commit pc => simp [hp] at hstep
    | op blocks =>
      simp only [hp] at hstep
      split_ifs at hstep with hg
      obtain ⟨⟨l, pin⟩, hl, rfl⟩ := Option.map_eq_some_iff.1 hstep
      obtain ⟨hpA, hinv⟩ := h.write hp hg.2.1 hg.2.2 hl
      refine ⟨_, ?_, hinv⟩
      rw [State.event, Store.run_singleton, Store.next, if_pos hpA]
  | endOp p =>
    simp only [State.step] at hstep
    cases hp : s.procs p with
    | idle => simp [hp] at hstep
    | commit pc => simp [hp] at hstep
    | op blocks =>
      simp only [hp] at hstep
      obtain ⟨⟨l, c⟩, hl, rfl⟩ := Option.map_eq_some_iff.1 hstep
      obtain ⟨hpA, hinv⟩ := h.finish hp hl
      refine ⟨_, ?_, hinv⟩
      rw [State.event, Store.run_singleton, Store.next, if_pos hpA]
  | commit p =>
    simp only [State.step] at hstep
    cases hp : s.procs p with
    | idle => simp [hp] at hstep
    | op blocks => simp [hp] at hstep
    | commit pc =>
      simp only [hp] at hstep
      cases pc with
      | writeHead =>
        simp only [State.commitStep] at hstep
        split_ifs at hstep with hfree
        obtain rfl := Option.some.inj hstep
        obtain ⟨hA, hinv⟩ := h.commit_writeHead hp
        refine ⟨_, ?_, hinv⟩
        rw [State.event, if_pos hp, Store.run_singleton, Store.next, if_pos hA]
      | check =>
        obtain rfl := Option.some.inj hstep
        exact ⟨T, by simp [State.event, hp], h.commit_check hp⟩
      | writeLog k => exact ⟨T, by simp [State.event, hp], h.commit_writeLog hp hstep⟩
      | install k => exact ⟨T, by simp [State.event, hp], h.commit_install hp hstep⟩
      | clear =>
        simp only [State.commitStep] at hstep
        split_ifs at hstep with hfree
        obtain rfl := Option.some.inj hstep
        exact ⟨T, by simp [State.event, hp], h.commit_clear hp⟩
      | finish =>
        obtain rfl := Option.some.inj hstep
        exact ⟨T, by simp [State.event, hp], h.commit_finish hp⟩

theorem Inv.run {es : List (RedoLog.Event BlockNo Block π)} (h : Inv start s T)
    (as : List (Action π)) (hrun : s.run start as = some (t, es)) :
    ∃ T', T.run es = some T' ∧ Inv start t T' := by
  induction as generalizing s T es with
  | nil =>
    obtain ⟨rfl, rfl⟩ := Prod.mk.inj (Option.some.inj hrun)
    exact ⟨T, rfl, h⟩
  | cons a as ih =>
    simp only [State.run, Option.bind_eq_bind, Option.bind_eq_some_iff, Option.pure_def,
      Option.some.injEq, Prod.mk.injEq] at hrun
    obtain ⟨u, hu, ⟨v, fs⟩, hv, rfl, rfl⟩ := hrun
    obtain ⟨T₁, hT₁, hinv⟩ := h.step hu
    obtain ⟨T₂, hT₂, hinv'⟩ := ih hinv hv
    refine ⟨T₂, ?_, hinv'⟩
    rw [Store.run_append, hT₁]
    exact hT₂

omit [DecidableEq π] in
/-- The machine is switched on with a disk whose log is empty. -/
theorem inv_init {disk : BlockNo → Block} (h : readHead (disk start) = []) :
    Inv start (State.init disk : State π) ⟨disk, disk, ∅⟩ := by
  refine ⟨counted_idle rfl rfl (fun _ => rfl) (Nat.zero_le _), [],
    ⟨RedoLog.holds_of_home h fun _ _ => rfl, ⟨?_, ?_⟩, ⟨fun b v _ hv => ?_, fun b v _ hv => ?_⟩,
    fun b => ?_, fun b hb => absurd hb List.not_mem_nil⟩, .readHead rfl fun _ _ => rfl⟩
  · rw [show (State.init disk : State π).disk = disk from rfl, h]
    exact Nat.zero_le _
  · rw [show (State.init disk : State π).disk = disk from rfl, h]
    exact fun b hb => absurd hb List.not_mem_nil
  · exact absurd hv (by simp [State.init])
  · exact absurd hv (by simp [State.init])
  · rw [if_neg List.not_mem_nil]
    exact Nat.le_refl 0

end Steps

end Xv6

end KianRiscV
