/-
# The open rows of the SDRAM controllers

The controllers keep their own record of the rows that are open, and share one wait state among
all commands.  `Kept` relates the record to the banks of the device at each point of the state
machine.  It is kept by every edge, and makes the next command legal, if

* under the closed-page policy no request is accepted for a bank that is on record as open, and
* a column command is issued under the policy under which its row was opened.

Both are vacuous as long as the policy does not change.
-/
import KianRiscV.SdramCtrl

namespace KianRiscV

open Sdram

namespace SdramCore

variable {t : SdramSettings} {c : SdramCore} {q q' : SdramReq} {x : BitVec 16}
  {d : Banks (BitVec 2) (BitVec 13)}

/-- Where the state machine is, or will be after the wait. -/
def pos (c : SdramCore) : SdramState := if c.state = .waitState then c.retState else c.state

/-- The rows on record. -/
def tracked (c : SdramCore) : Banks (BitVec 2) (BitVec 13) :=
  fun b => if c.bankOpen b then some (c.openRow b) else none

/-- A request has been accepted and not yet answered. -/
def busy (c : SdramCore) : Bool :=
  match c.pos with
  | .activate | .readCmd | .readL | .readH | .writeL | .writeH => true
  | .idle => c.state == .waitState && c.updateReady
  | _ => false

/-- The banks of the device at each point. -/
def RowsAt (c : SdramCore) (q : SdramReq) (d : Banks (BitVec 2) (BitVec 13)) : Prop :=
  match c.pos with
  | .reset | .assertCke | .initPreAll => True
  | .initRef0 | .initRef1 | .initMrs | .refresh => d = Banks.closed ∧ c.tracked = Banks.closed
  | .idle | .readL | .readH | .writeH => d = c.tracked
  | .activate => d = c.tracked ∧ c.bankOpen q.curBank = false
  | .readCmd | .writeL => d q.curBank = some q.curRow ∧ (∀ b, b ≠ q.curBank → d b = c.tracked b) ∧
      (c.bankOpen q.curBank = true → c.openRow q.curBank = q.curRow)
  | .preBank | .preAll | .waitState => False

/-- The record and the device agree, there is a request as long as one is being served, and it
is of the kind that is being served. -/
structure Kept (c : SdramCore) (q : SdramReq) (d : Banks (BitVec 2) (BitVec 13)) : Prop where
  rows : c.RowsAt q d
  valid : c.busy = true → q.valid = true
  ready : c.ready = true → c.state = .idle
  update : c.updateReady = true → c.state = .waitState ∧ c.retState = .idle
  read : c.pos = .readCmd → q.wmask = 0#4
  write : c.pos = .writeL → q.wmask ≠ 0#4

/-- `IDLE` accepts the request. -/
def accepts (t : SdramSettings) (c : SdramCore) (q : SdramReq) : Prop :=
  c.state = .idle ∧ t.reinit = false ∧ t.loadMode = false ∧
    ¬ (t.forceThresh ≤ c.refCredit ∨
      t.softThresh ≤ c.refCredit ∧ (q.valid && !c.ready) = false) ∧
    (q.valid && !c.ready) = true

/-- The policy goes with the record: no bank on record is opened again under the closed-page
policy, and a row is read or written under the policy it was opened under. -/
structure Steady (t : SdramSettings) (c : SdramCore) (q : SdramReq) : Prop where
  accept : accepts t c q → t.keepOpen = false → c.bankOpen q.curBank = false
  column : c.state = .readCmd ∨ c.state = .writeL → t.keepOpen = c.bankOpen q.curBank

/-! ## The record -/

theorem tracked_of_none (h : c.bankOpen = fun _ => false) : c.tracked = Banks.closed := by
  funext b
  simp [tracked, h, Banks.closed]

theorem tracked_of_anyOpen (h : c.anyOpen = false) : c.tracked = Banks.closed := by
  simp only [anyOpen, Bool.or_eq_false_iff] at h
  obtain ⟨⟨⟨h0, h1⟩, h2⟩, h3⟩ := h
  refine tracked_of_none (funext fun b => ?_)
  have hb : ∀ b : BitVec 2, b = 0 ∨ b = 1 ∨ b = 2 ∨ b = 3 := by decide
  rcases hb b with rfl | rfl | rfl | rfl <;> assumption

theorem tracked_update_none (b : BitVec 2) {c' : SdramCore} (ho : c'.openRow = c.openRow)
    (hb : c'.bankOpen = Function.update c.bankOpen b false) :
    c'.tracked = Function.update c.tracked b none := by
  funext b'
  by_cases h : b' = b
  · subst h
    simp [tracked, hb]
  · simp [tracked, hb, ho, h]

theorem tracked_update_some (b : BitVec 2) (r : BitVec 13) {c' : SdramCore}
    (ho : c'.openRow = Function.update c.openRow b r)
    (hb : c'.bankOpen = Function.update c.bankOpen b true) :
    c'.tracked = Function.update c.tracked b (some r) := by
  funext b'
  by_cases h : b' = b
  · subst h
    simp [tracked, hb, ho]
  · simp [tracked, hb, ho, h]

theorem tracked_congr {c' : SdramCore} (ho : c'.openRow = c.openRow)
    (hb : c'.bankOpen = c.bankOpen) : c'.tracked = c.tracked := by
  funext b
  simp [tracked, ho, hb]

/-- `A10` of the address of a precharge. -/
@[simp] theorem withA10_getElem (a : BitVec 13) (b : Bool) : (withA10 a b)[10] = b := by
  rw [← BitVec.getLsbD_eq_getElem]
  simp only [withA10, BitVec.getLsbD_append]
  simp

/-- `A10` of a column address is the automatic precharge. -/
@[simp] theorem col_getElem (k : Bool) : (q.col k)[10] = !k := by
  have hap : q.colAp.getLsbD 10 = true := by
    simp only [SdramReq.colAp, BitVec.getLsbD_append]
    rfl
  have hko : q.colKo.getLsbD 10 = false := by
    simp only [SdramReq.colKo, BitVec.getLsbD_append]
    rfl
  rw [← BitVec.getLsbD_eq_getElem]
  cases k
  · exact hap
  · exact hko

/-! ## The command of an edge -/

/-- What the device is told by the edge out of each state. -/
theorem next_decode (hs : c.state ≠ .idle) :
    (c.next t q x).pins.decode =
      match c.state with
      | .initPreAll | .preAll => .preAll
      | .initRef0 | .initRef1 | .refresh => .ref
      | .initMrs => .mrs
      | .activate => .act q.curBank q.curRow
      | .readCmd => .read q.curBank (!t.keepOpen)
      | .writeL => .write q.curBank (!t.keepOpen)
      | .preBank => .pre c.pins.ba
      | _ => .nop := by
  cases hst : c.state with
  | idle => exact absurd hst hs
  | waitState =>
    simp only [next, hst]
    split <;> rfl
  | initPreAll =>
    simp [next, hst, preAllThen, waitFor, SdramPins.decode]
  | preAll => simp [next, hst, waitFor, SdramPins.decode]
  | preBank => simp [next, hst, waitFor, SdramPins.decode, rest]
  | readCmd => simp [next, hst, waitFor, SdramPins.decode]
  | writeL => simp [next, hst, SdramPins.decode]
  | _ => simp only [next, hst]; rfl

/-- What `IDLE` does: it starts over, loads the mode register, refreshes, serves a request, or
waits. -/
inductive IdleStep (t : SdramSettings) (c : SdramCore) (q : SdramReq) (c' : SdramCore) : Prop
  | reinit (hd : c'.pins.decode = .nop) (hp : c'.pos = .assertCke)
      (hb : c'.bankOpen = fun _ => false)
  | preAll (hd : c'.pins.decode = .preAll) (hp : c'.pos = .initMrs ∨ c'.pos = .refresh)
      (hb : c'.bankOpen = fun _ => false)
  | loadMode (hd : c'.pins.decode = .nop) (hp : c'.pos = .initMrs) (ho : c.anyOpen = false)
      (hb : c'.bankOpen = c.bankOpen)
  | refresh (hd : c'.pins.decode = .ref) (hp : c'.pos = .idle) (ho : c.anyOpen = false)
      (hb : c'.bankOpen = c.bankOpen)
  | hit (ha : accepts t c q) (hd : c'.pins.decode = .nop)
      (hp : c'.pos = if q.wmask = 0#4 then .readCmd else .writeL) (hh : c.sameRowHit q = true)
      (hb : c'.bankOpen = c.bankOpen)
  | miss (ha : accepts t c q) (hd : c'.pins.decode = .pre q.curBank) (hp : c'.pos = .activate)
      (hb : c'.bankOpen = Function.update c.bankOpen q.curBank false)
  | closed (ha : accepts t c q) (hd : c'.pins.decode = .nop) (hp : c'.pos = .activate)
      (hb : c'.bankOpen = c.bankOpen) (ho : c.bankOpen q.curBank = false ∨ t.keepOpen = false)
  | wait (hd : c'.pins.decode = .nop) (hp : c'.pos = .idle) (hb : c'.bankOpen = c.bankOpen)

theorem next_of_idle (hs : c.state = .idle) : c.next t q x = c.idleNext t q := by
  simp only [next, hs]

theorem idle_next (hs : c.state = .idle) : IdleStep t c q (c.next t q x) := by
  rw [next_of_idle hs]
  unfold idleNext
  dsimp only
  split
  · exact .reinit rfl rfl rfl
  · rename_i hre
    split
    · split
      · exact .preAll (by simp [preAllThen, waitFor, SdramPins.decode])
          (.inl rfl) rfl
      · rename_i ho
        exact .loadMode rfl rfl (by simpa using ho) rfl
    · rename_i hlm
      split
      · unfold idleRefresh
        split
        · exact .preAll (by simp [preAllThen, waitFor, SdramPins.decode])
            (.inr rfl) rfl
        · rename_i ho
          exact .refresh rfl rfl (by simpa using ho) rfl
      · rename_i href
        split
        · rename_i hv
          have ha : accepts t c q := ⟨hs, by simpa using hre, by simpa using hlm, href, hv⟩
          unfold idleAccept
          dsimp only
          split
          · split
            · refine .hit ha rfl ?_ ‹_› rfl
              simp only [pos]
              split <;> rfl
            · split
              · exact .miss ha (by simp [waitFor, SdramPins.decode]) rfl rfl
              · exact .closed ha rfl rfl rfl (.inl (by simpa using ‹¬ c.bankOpen _ = true›))
          · exact .closed ha rfl rfl rfl (.inr (by simpa using ‹¬ t.keepOpen = true›))
        · refine .wait rfl ?_ rfl
          simp [pos, rest, hs]

/-! ## The registers after an edge -/

/-- Where the edge out of each state leads. -/
theorem next_pos (hs : c.state ≠ .idle) :
    (c.next t q x).pos =
      match c.state with
      | .reset => .assertCke
      | .assertCke => .initPreAll
      | .initPreAll => .initRef0
      | .initRef0 => .initRef1
      | .initRef1 => .initMrs
      | .activate => if q.wmask = 0#4 then .readCmd else .writeL
      | .readCmd => .readL
      | .readL => .readH
      | .writeL => .writeH
      | .waitState => c.pos
      | _ => .idle := by
  cases hst : c.state with
  | idle => exact absurd hst hs
  | waitState =>
    simp only [next, hst, pos, if_true]
    split
    · dsimp only
      split <;> rfl
    · simp [rest, hst]
  | _ => simp only [next, hst]; rfl

/-- `IDLE` announces no ready pulse and opens no row. -/
theorem idleNext_keeps (t : SdramSettings) (c : SdramCore) (q : SdramReq) :
    (c.idleNext t q).ready = false ∧ (c.idleNext t q).updateReady = false ∧
      (c.idleNext t q).openRow = c.openRow := by
  unfold idleNext idleRefresh idleAccept
  dsimp only
  repeat' split
  all_goals exact ⟨rfl, rfl, rfl⟩

theorem next_openRow (h : c.state ≠ .activate) : (c.next t q x).openRow = c.openRow := by
  cases hst : c.state with
  | activate => exact absurd hst h
  | idle =>
    rw [next_of_idle hst]
    exact (idleNext_keeps t c q).2.2
  | waitState =>
    simp only [next, hst]
    split <;> rfl
  | _ => simp only [next, hst]; rfl

theorem next_bankOpen (h : c.state ≠ .activate ∧ c.state ≠ .idle ∧ c.state ≠ .initPreAll) :
    (c.next t q x).bankOpen = c.bankOpen := by
  cases hst : c.state with
  | activate => exact absurd hst h.1
  | idle => exact absurd hst h.2.1
  | initPreAll => exact absurd hst h.2.2
  | waitState =>
    simp only [next, hst]
    split <;> rfl
  | _ => simp only [next, hst]; rfl

theorem next_tracked (h : c.state ≠ .activate ∧ c.state ≠ .idle ∧ c.state ≠ .initPreAll) :
    (c.next t q x).tracked = c.tracked :=
  tracked_congr (next_openRow h.1) (next_bankOpen h)

/-- A ready pulse comes with the way back to `IDLE`. -/
theorem next_ready (h : (c.next t q x).ready = true) :
    c.state = .waitState ∧ c.waitCnt = 1 ∧ c.retState = .idle ∧ c.updateReady = true ∧
      (c.next t q x).state = .idle := by
  cases hst : c.state with
  | idle =>
    rw [next_of_idle hst] at h
    exact absurd (h.symm.trans (idleNext_keeps t c q).1) (by decide)
  | waitState =>
    simp only [next, hst] at h ⊢
    split at h
    · rename_i hw
      simp only [Bool.and_eq_true, beq_iff_eq] at h
      exact ⟨trivial, hw, h.2, h.1, by rw [if_pos hw]; exact h.2⟩
    · exact absurd h (by simp [rest])
  | _ =>
    simp only [next, hst] at h
    exact absurd h (by simp [rest, waitFor, preAllThen])

/-- Only the last states of an access announce a ready pulse, and the wait keeps it. -/
theorem next_updateReady (h : (c.next t q x).updateReady = true) :
    ((c.next t q x).state = .waitState ∧ (c.next t q x).retState = .idle ∧
        (c.state = .readH ∨ c.state = .writeH)) ∨
      (c.updateReady = true ∧ c.state ≠ .idle ∧
        (c.state = .waitState → c.retState = .idle →
          (c.next t q x).state = .waitState ∧ (c.next t q x).retState = .idle)) := by
  -- `READ_H` and `WRITE_H` announce it; `WAIT_STATE` drops it only with the pulse itself
  cases hst : c.state with
  | idle =>
    rw [next_of_idle hst] at h
    exact absurd (h.symm.trans (idleNext_keeps t c q).2.1) (by decide)
  | readH =>
    left
    simp only [next, hst]
    exact ⟨rfl, rfl, .inl trivial⟩
  | writeH =>
    left
    simp only [next, hst]
    exact ⟨rfl, rfl, .inr trivial⟩
  | waitState =>
    right
    simp only [next, hst] at h ⊢
    split at h
    · simp only [Bool.and_eq_true, bne_iff_ne] at h
      exact ⟨h.1, by decide, fun _ hr => absurd hr h.2⟩
    · rename_i hw
      refine ⟨h, by decide, fun _ hr => ?_⟩
      rw [if_neg hw]
      exact ⟨hst, hr⟩
  | _ =>
    right
    simp only [next, hst] at h
    exact ⟨h, by decide, fun hw => absurd hw (by decide)⟩

theorem busy_of_pos (h : c.pos = .activate ∨ c.pos = .readCmd ∨ c.pos = .readL ∨ c.pos = .readH ∨
    c.pos = .writeL ∨ c.pos = .writeH) : c.busy = true := by
  unfold busy
  rcases h with h | h | h | h | h | h <;> rw [h]

theorem busy_eq_false_of_pos (h : c.pos = .assertCke ∨ c.pos = .initPreAll ∨ c.pos = .initRef0 ∨
    c.pos = .initRef1 ∨ c.pos = .initMrs ∨ c.pos = .refresh) : c.busy = false := by
  unfold busy
  rcases h with h | h | h | h | h | h <;> rw [h]

/-- A request is being served after it has been accepted. -/
theorem Kept.busy_next (h : c.Kept q d) (hb : (c.next t q x).busy = true) :
    c.busy = true ∨ accepts t c q := by
  have hstate : c.state ≠ .waitState → c.pos = c.state := fun hw => if_neg hw
  have hidle : (c.next t q x).pos = .idle → (c.next t q x).updateReady = true := by
    intro hp
    simp only [busy, hp, Bool.and_eq_true] at hb
    exact hb.2
  -- back to `IDLE` the ready pulse is still to come
  have hupd : (c.next t q x).pos = .idle → c.busy = true := by
    intro hp
    rcases next_updateReady (hidle hp) with ⟨-, -, hrw⟩ | ⟨hu, -, -⟩
    · rcases hrw with hst | hst
      · exact busy_of_pos (by simp [hstate (by simp [hst]), hst])
      · exact busy_of_pos (by simp [hstate (by simp [hst]), hst])
    · obtain ⟨hw, hr⟩ := h.update hu
      simp [busy, pos, hw, hr, hu]
  cases hst : c.state with
  | idle =>
    rcases idle_next (t := t) (x := x) (q := q) hst with ⟨-, hp⟩ | ⟨-, hp | hp⟩ | ⟨-, hp⟩ |
      ⟨-, hp⟩ | ⟨ha⟩ | ⟨ha⟩ | ⟨ha⟩ | ⟨-, hp⟩
    · simp [busy_eq_false_of_pos (c := c.next t q x) (by simp [hp])] at hb
    · simp [busy_eq_false_of_pos (c := c.next t q x) (by simp [hp])] at hb
    · simp [busy_eq_false_of_pos (c := c.next t q x) (by simp [hp])] at hb
    · simp [busy_eq_false_of_pos (c := c.next t q x) (by simp [hp])] at hb
    · exact .inl (hupd hp)
    · exact .inr ha
    · exact .inr ha
    · exact .inr ha
    · exact .inl (hupd hp)
  | waitState =>
    have hp := next_pos (t := t) (c := c) (q := q) (x := x) (by simp [hst])
    simp only [hst] at hp
    left
    by_cases hi : c.pos = .idle
    · exact hupd (hp.trans hi)
    · unfold busy at hb ⊢
      rw [hp] at hb
      cases hpos : c.pos <;> simp_all
  | activate | readCmd | readL | readH | writeL | writeH =>
    exact .inl (busy_of_pos (by simp [hstate (by simp [hst]), hst]))
  | initMrs | preBank | preAll | refresh =>
    have hp := next_pos (t := t) (c := c) (q := q) (x := x) (by simp [hst])
    simp only [hst] at hp
    exact .inl (hupd hp)
  | _ =>
    have hp := next_pos (t := t) (c := c) (q := q) (x := x) (by simp [hst])
    simp only [hst] at hp
    simp [busy_eq_false_of_pos (c := c.next t q x) (by simp [hp])] at hb

/-- While a request is being served there is no ready pulse. -/
theorem Kept.ready_eq_false (h : c.Kept q d) (hb : c.busy = true ∨ accepts t c q) :
    q.valid = true ∧ c.ready = false := by
  rcases hb with hb | ha
  · refine ⟨h.valid hb, ?_⟩
    by_contra hr
    have hs := h.ready (by simpa using hr)
    simp [busy, pos, hs] at hb
  · simpa using ha.2.2.2.2

/-! ## Legal commands -/

theorem pos_of_state (h : c.state ≠ .waitState) : c.pos = c.state := if_neg h

/-- **The next command is legal.** -/
theorem Kept.legal (h : c.Kept q d) :
    d.Legal q.curRow (c.next t q x).pins.decode := by
  have hrows := h.rows
  unfold RowsAt at hrows
  by_cases hs : c.state = .idle
  · rw [pos_of_state (by simp [hs]), hs] at hrows
    rcases idle_next (t := t) (x := x) (q := q) hs with ⟨hd⟩ | ⟨hd⟩ | ⟨hd⟩ | ⟨hd, -, ho⟩ |
      ⟨-, hd⟩ | ⟨-, hd⟩ | ⟨-, hd⟩ | ⟨hd⟩
    case refresh =>
      rw [hd]
      exact hrows.trans (tracked_of_anyOpen ho)
    all_goals
      rw [hd]
      trivial
  · rw [next_decode hs]
    cases hst : c.state with
    | idle => exact absurd hst hs
    | initRef0 | initRef1 | initMrs | refresh =>
      rw [pos_of_state (by simp [hst]), hst] at hrows
      exact hrows.1
    | activate =>
      rw [pos_of_state (by simp [hst]), hst] at hrows
      show d q.curBank = none
      rw [hrows.1]
      simp [tracked, hrows.2]
    | readCmd | writeL =>
      rw [pos_of_state (by simp [hst]), hst] at hrows
      exact hrows.1
    | _ => trivial

/-- After `ACT` the row is open in the device, and on record under the keep-open policy. -/
theorem Kept.rows_activate (h : c.Kept q d) (hst : c.state = .activate) :
    (c.next t q x).RowsAt q (d.step (c.next t q x).pins.decode) := by
  have hrows := h.rows
  unfold RowsAt at hrows
  rw [pos_of_state (by simp [hst]), hst] at hrows
  have hd := next_decode (t := t) (c := c) (q := q) (x := x) (by simp [hst])
  have hp := next_pos (t := t) (c := c) (q := q) (x := x) (by simp [hst])
  simp only [hst] at hd hp
  have hb : (c.next t q x).bankOpen =
      if t.keepOpen then Function.update c.bankOpen q.curBank true else c.bankOpen := by
    simp only [next, hst]
    rfl
  have ho : (c.next t q x).openRow =
      if t.keepOpen then Function.update c.openRow q.curBank q.curRow else c.openRow := by
    simp only [next, hst]
    rfl
  have hmain : (d.step (c.next t q x).pins.decode) q.curBank = some q.curRow ∧
      (∀ b, b ≠ q.curBank →
        (d.step (c.next t q x).pins.decode) b = (c.next t q x).tracked b) ∧
      ((c.next t q x).bankOpen q.curBank = true →
        (c.next t q x).openRow q.curBank = q.curRow) := by
    rw [hd]
    -- closing after each access, the record stays empty and the open row is that of the request
    cases hk : t.keepOpen with
    | true =>
      rw [hk] at hb ho
      have ht := tracked_update_some q.curBank q.curRow ho hb
      refine ⟨by simp [Banks.step], fun b hne => ?_, fun _ => by rw [ho]; simp⟩
      rw [ht]
      simp [Banks.step, hne, hrows.1]
    | false =>
      rw [hk] at hb ho
      have ht : (c.next t q x).tracked = c.tracked := tracked_congr ho hb
      refine ⟨by simp [Banks.step], fun b hne => ?_, fun hopen => ?_⟩
      · rw [ht]
        simp [Banks.step, hne, hrows.1]
      · rw [hb] at hopen
        exact absurd (hrows.2.symm.trans hopen) (by decide)
  unfold RowsAt
  rw [hp]
  split_ifs
  · exact hmain
  · exact hmain

/-- After a column command the device has the rows on record again. -/
theorem Kept.rows_column (h : c.Kept q d) (hsteady : Steady t c q)
    (hst : c.state = .readCmd ∨ c.state = .writeL) :
    d.step (c.next t q x).pins.decode = (c.next t q x).tracked := by
  have hrows : d q.curBank = some q.curRow ∧ (∀ b, b ≠ q.curBank → d b = c.tracked b) ∧
      (c.bankOpen q.curBank = true → c.openRow q.curBank = q.curRow) := by
    have hr := h.rows
    unfold RowsAt at hr
    rcases hst with hs | hs <;> rw [pos_of_state (by simp [hs]), hs] at hr <;> exact hr
  have ht : (c.next t q x).tracked = c.tracked :=
    next_tracked (by rcases hst with hs | hs <;> simp [hs])
  have hdec : d.step (c.next t q x).pins.decode =
      if t.keepOpen then d else Function.update d q.curBank none := by
    have hd := next_decode (t := t) (c := c) (q := q) (x := x)
      (by rcases hst with hs | hs <;> simp [hs])
    rcases hst with hs | hs <;> simp only [hs] at hd <;> rw [hd] <;> cases t.keepOpen <;> rfl
  have hpol := hsteady.column hst
  rw [hdec, ht]
  funext b
  by_cases hb : b = q.curBank
  · subst hb
    cases hk : t.keepOpen with
    | true =>
      rw [hk] at hpol
      simp [tracked, ← hpol, hrows.1, hrows.2.2 hpol.symm]
    | false =>
      rw [hk] at hpol
      simp [tracked, ← hpol]
  · cases t.keepOpen <;> simp [hb, hrows.2.1 b hb]

/-- The edge out of `IDLE`. -/
theorem Kept.rows_idle (h : c.Kept q d) (hsteady : Steady t c q) (hst : c.state = .idle) :
    (c.next t q x).RowsAt q (d.step (c.next t q x).pins.decode) := by
  have hrows : d = c.tracked := by
    have hr := h.rows
    unfold RowsAt at hr
    rwa [pos_of_state (by simp [hst]), hst] at hr
  have ho : (c.next t q x).openRow = c.openRow := next_openRow (by simp [hst])
  unfold RowsAt
  -- one case for each branch of `IDLE`; precharges clear the record, the others keep it
  rcases idle_next (t := t) (x := x) (q := q) hst with ⟨-, hp, -⟩ | ⟨hd, hp, hb⟩ |
    ⟨hd, hp, hany, hb⟩ | ⟨hd, hp, -, hb⟩ | ⟨-, hd, hp, hhit, hb⟩ | ⟨-, hd, hp, hb⟩ |
    ⟨ha, hd, hp, hb, hclosed⟩ | ⟨hd, hp, hb⟩
  · rw [hp]
    trivial
  · have hmain : d.step (c.next t q x).pins.decode = Banks.closed ∧
        (c.next t q x).tracked = Banks.closed := by
      rw [hd]
      exact ⟨rfl, tracked_of_none hb⟩
    rcases hp with hp | hp <;> rw [hp] <;> exact hmain
  · rw [hp, hd, tracked_congr ho hb]
    exact ⟨hrows.trans (tracked_of_anyOpen hany), tracked_of_anyOpen hany⟩
  · rw [hp, hd, tracked_congr ho hb]
    exact hrows
  · obtain ⟨hopen, hrow⟩ : c.bankOpen q.curBank = true ∧ c.openRow q.curBank = q.curRow := by
      simpa [sameRowHit] using hhit
    have hmain : d q.curBank = some q.curRow ∧
        (∀ b, b ≠ q.curBank → d b = (c.next t q x).tracked b) ∧
        ((c.next t q x).bankOpen q.curBank = true →
          (c.next t q x).openRow q.curBank = q.curRow) := by
      refine ⟨by simp [hrows, tracked, hopen, hrow], fun b _ => ?_, fun _ => by rw [ho, hrow]⟩
      rw [tracked_congr ho hb, hrows]
    rw [hp, hd]
    split_ifs
    · exact hmain
    · exact hmain
  · rw [hp, hd, tracked_update_none q.curBank ho hb, hrows]
    exact ⟨rfl, by rw [hb]; simp⟩
  · rw [hp, hd, tracked_congr ho hb]
    refine ⟨hrows, ?_⟩
    rw [hb]
    rcases hclosed with hc | hk
    · exact hc
    · exact hsteady.accept ha hk
  · rw [hp, hd, tracked_congr ho hb]
    exact hrows

/-- The record over an edge, for the request served. -/
theorem Kept.rows_next (h : c.Kept q d) (hsteady : Steady t c q) :
    (c.next t q x).RowsAt q (d.step (c.next t q x).pins.decode) := by
  have hrows := h.rows
  by_cases hidle : c.state = .idle
  · exact h.rows_idle hsteady hidle
  · have hd := next_decode (t := t) (c := c) (q := q) (x := x) hidle
    have hp := next_pos (t := t) (c := c) (q := q) (x := x) hidle
    -- only `ACTIVATE`, the column commands and the precharge of all banks change the record
    cases hst : c.state with
    | idle => exact absurd hst hidle
    | activate => exact h.rows_activate hst
    | readCmd =>
      have hcol := h.rows_column (x := x) hsteady (.inl hst)
      simp only [hst] at hp
      unfold RowsAt
      rw [hp]
      exact hcol
    | writeL =>
      have hcol := h.rows_column (x := x) hsteady (.inr hst)
      simp only [hst] at hp
      unfold RowsAt
      rw [hp]
      exact hcol
    | initPreAll =>
      have hb : (c.next t q x).bankOpen = fun _ => false := by
        simp only [next, hst]
        rfl
      simp only [hst] at hd hp
      unfold RowsAt
      rw [hp, hd]
      exact ⟨rfl, tracked_of_none hb⟩
    | waitState =>
      have ht : (c.next t q x).tracked = c.tracked := next_tracked (by simp [hst])
      have hb : (c.next t q x).bankOpen = c.bankOpen := next_bankOpen (by simp [hst])
      have ho : (c.next t q x).openRow = c.openRow := next_openRow (by simp [hst])
      simp only [hst] at hd hp
      unfold RowsAt at hrows ⊢
      rw [hp, hd, ht, hb, ho]
      exact hrows
    | preBank | preAll =>
      unfold RowsAt at hrows
      rw [pos_of_state (by simp [hst]), hst] at hrows
      exact hrows.elim
    | reset | assertCke =>
      simp only [hst] at hp
      unfold RowsAt
      rw [hp]
      trivial
    | initRef0 | initRef1 =>
      have ht : (c.next t q x).tracked = c.tracked := next_tracked (by simp [hst])
      simp only [hst] at hd hp
      unfold RowsAt at hrows ⊢
      rw [pos_of_state (by simp [hst]), hst] at hrows
      rw [hp, hd, ht]
      exact hrows
    | initMrs | refresh =>
      have ht : (c.next t q x).tracked = c.tracked := next_tracked (by simp [hst])
      simp only [hst] at hd hp
      unfold RowsAt at hrows ⊢
      rw [pos_of_state (by simp [hst]), hst] at hrows
      rw [hp, hd, ht]
      exact hrows.1.trans hrows.2.symm
    | readL | readH | writeH =>
      have ht : (c.next t q x).tracked = c.tracked := next_tracked (by simp [hst])
      simp only [hst] at hd hp
      unfold RowsAt at hrows ⊢
      rw [pos_of_state (by simp [hst]), hst] at hrows
      rw [hp, hd, ht]
      exact hrows

/-- The kind of the access is that of the request. -/
theorem Kept.kind_next (h : c.Kept q d) :
    ((c.next t q x).pos = .readCmd → q.wmask = 0#4) ∧
      ((c.next t q x).pos = .writeL → q.wmask ≠ 0#4) := by
  have hsplit : ∀ {st : SdramState}, st = (if q.wmask = 0#4 then .readCmd else .writeL) →
      (st = .readCmd → q.wmask = 0#4) ∧ (st = .writeL → q.wmask ≠ 0#4) := by
    rintro st rfl
    split_ifs with hw
    · exact ⟨fun _ => hw, fun hno => absurd hno (by decide)⟩
    · exact ⟨fun hno => absurd hno (by decide), fun _ => hw⟩
  by_cases hidle : c.state = .idle
  · rcases idle_next (t := t) (x := x) (q := q) hidle with ⟨-, hp⟩ | ⟨-, hp | hp⟩ | ⟨-, hp⟩ |
      ⟨-, hp⟩ | ⟨-, -, hp⟩ | ⟨-, -, hp⟩ | ⟨-, -, hp⟩ | ⟨-, hp⟩
    case hit => exact hsplit hp
    all_goals
      rw [hp]
      exact ⟨fun hno => absurd hno (by decide), fun hno => absurd hno (by decide)⟩
  · have hp := next_pos (t := t) (c := c) (q := q) (x := x) hidle
    cases hst : c.state with
    | activate =>
      simp only [hst] at hp
      exact hsplit hp
    | waitState =>
      simp only [hst] at hp
      rw [hp]
      exact ⟨h.read, h.write⟩
    | _ =>
      simp only [hst] at hp
      rw [hp]
      exact ⟨fun hno => absurd hno (by decide), fun hno => absurd hno (by decide)⟩

/-- A request that is not being served does not matter. -/
theorem RowsAt.congr (h : c.RowsAt q d) (hq : c.busy = true → q' = q) : c.RowsAt q' d := by
  by_cases hb : c.busy = true
  · rw [hq hb]
    exact h
  · unfold RowsAt at h ⊢
    unfold busy at hb
    cases hp : c.pos <;> simp_all

/-- **The record is kept** by every edge, for a requester that holds its request until it is
answered. -/
theorem Kept.next (h : c.Kept q d) (hsteady : Steady t c q)
    (hq : q.valid = true → c.ready = false → q' = q) :
    (c.next t q x).Kept q' (d.step (c.next t q x).pins.decode) := by
  have hsame : (c.next t q x).busy = true → q' = q := by
    intro hb
    obtain ⟨hv, hr⟩ := h.ready_eq_false (t := t) (h.busy_next hb)
    exact hq hv hr
  have hkind := h.kind_next (t := t) (x := x)
  refine ⟨(h.rows_next hsteady).congr hsame, fun hb => ?_, fun hr => ?_, fun hu => ?_,
    fun hp => ?_, fun hp => ?_⟩
  · rw [hsame hb]
    exact (h.ready_eq_false (t := t) (h.busy_next hb)).1
  · exact (next_ready hr).2.2.2.2
  · rcases next_updateReady hu with ⟨h1, h2, -⟩ | ⟨hu', -, hstay⟩
    · exact ⟨h1, h2⟩
    · exact hstay (h.update hu').1 (h.update hu').2
  · rw [hsame (busy_of_pos (by simp [hp]))]
    exact hkind.1 hp
  · rw [hsame (busy_of_pos (by simp [hp]))]
    exact hkind.2 hp

/-! ## A policy that does not change -/

/-- What holds under one policy from reset on: rows are on record exactly under keep-open. -/
structure OnePolicy (k : Bool) (c : SdramCore) (q : SdramReq) : Prop where
  column : c.pos = .readCmd ∨ c.pos = .writeL → c.bankOpen q.curBank = k
  closed : k = false → c.bankOpen = fun _ => false

theorem OnePolicy.steady (h : c.OnePolicy t.keepOpen q) : Steady t c q := by
  refine ⟨fun _ hk => by rw [h.closed hk], fun hst => ?_⟩
  refine (h.column ?_).symm
  rcases hst with hs | hs
  · exact .inl (by rw [pos_of_state (by simp [hs]), hs])
  · exact .inr (by rw [pos_of_state (by simp [hs]), hs])

/-- The way into the column states, with the bank that is on record there. -/
theorem next_column (h : (c.next t q x).pos = .readCmd ∨ (c.next t q x).pos = .writeL) :
    (c.state = .idle ∧ c.sameRowHit q = true ∧ (c.next t q x).bankOpen = c.bankOpen) ∨
      (c.state = .activate ∧ (c.next t q x).bankOpen =
        if t.keepOpen then Function.update c.bankOpen q.curBank true else c.bankOpen) ∨
      (c.state = .waitState ∧ (c.pos = .readCmd ∨ c.pos = .writeL) ∧
        (c.next t q x).bankOpen = c.bankOpen) := by
  -- from `IDLE` by a hit, from `ACTIVATE`, or after the wait behind it
  by_cases hidle : c.state = .idle
  · rcases idle_next (t := t) (x := x) (q := q) hidle with ⟨-, hp⟩ | ⟨-, hp | hp⟩ | ⟨-, hp⟩ |
      ⟨-, hp⟩ | ⟨-, -, -, hh, hb⟩ | ⟨-, -, hp⟩ | ⟨-, -, hp⟩ | ⟨-, hp⟩
    case hit => exact .inl ⟨hidle, hh, hb⟩
    all_goals simp [hp] at h
  · have hp := next_pos (t := t) (c := c) (q := q) (x := x) hidle
    cases hst : c.state with
    | activate =>
      refine .inr (.inl ⟨rfl, ?_⟩)
      simp only [next, hst]
      rfl
    | waitState =>
      simp only [hst] at hp
      rw [hp] at h
      exact .inr (.inr ⟨rfl, h, next_bankOpen (by simp [hst])⟩)
    | _ =>
      simp only [hst] at hp
      simp [hp] at h

theorem OnePolicy.next (h : c.OnePolicy t.keepOpen q) (hk : c.Kept q d)
    (hq : q.valid = true → c.ready = false → q' = q) :
    (c.next t q x).OnePolicy t.keepOpen q' := by
  constructor
  · intro hp
    have hb : (c.next t q x).busy = true := busy_of_pos (by rcases hp with h' | h' <;> simp [h'])
    obtain ⟨hv, hr⟩ := hk.ready_eq_false (t := t) (hk.busy_next hb)
    rw [hq hv hr]
    -- the bank on record is the one of the request when its column command is reached
    rcases next_column hp with ⟨-, hh, hb'⟩ | ⟨-, hb'⟩ | ⟨-, hold, hb'⟩
    · obtain ⟨hopen, -⟩ : c.bankOpen q.curBank = true ∧ _ := by simpa [sameRowHit] using hh
      rw [hb', hopen]
      cases hpol : t.keepOpen with
      | true => rfl
      | false => rw [h.closed hpol] at hopen; exact hopen.symm
    · rw [hb']
      cases hpol : t.keepOpen with
      | true => simp
      | false => simp [h.closed hpol]
    · rw [hb', h.column hold]
  · intro hpol
    have hclosed := h.closed hpol
    -- closing after each access, no edge opens a bank on the record
    by_cases hidle : c.state = .idle
    · rcases idle_next (t := t) (x := x) (q := q) hidle with ⟨-, -, hb⟩ | ⟨-, -, hb⟩ |
        ⟨-, -, -, hb⟩ | ⟨-, -, -, hb⟩ | ⟨-, -, -, -, hb⟩ | ⟨-, -, -, hb⟩ | ⟨-, -, -, hb, -⟩ |
        ⟨-, -, hb⟩
      case miss =>
        rw [hb, hclosed]
        funext b
        simp [Function.update_apply]
      all_goals
        rw [hb]
        try exact hclosed
    · by_cases hact : c.state = .activate
      · simp only [SdramCore.next, hact, hpol]
        exact hclosed
      · by_cases hinit : c.state = .initPreAll
        · simp only [SdramCore.next, hinit]
          rfl
        · rw [next_bankOpen ⟨hact, hidle, hinit⟩, hclosed]

end SdramCore

end KianRiscV
