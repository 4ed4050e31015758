/-
# The SDRAM controller for the M12L64322A

`m12l64322a_ctrl.v`.  Every access opens its row and closes it again by the automatic precharge;
a write first reads the word.  The controller latches nothing of the request: bank, row, column
and byte enables are taken from its inputs whenever they are needed.  `cke` is not modelled
further than its register, as `soc.v` leaves the pin open.
-/
import KianRiscV.SdramCtrl
import KianRiscV.Cache

namespace KianRiscV

/-- The states, in the order of their encodings.  The ones without a case, such as
`AUTO_REFRESH`, lead to `RESET`. -/
inductive M12State
  | reset | initSeqPreChargeAll | initSeqAutoRefresh0 | initSeqAutoRefresh1 | initSeqLoadMode
  | idle | colRead | casLatencyReadDone | colWrite | autoRefresh | preChargeAll | waitStates
  | colWriteRead | colWriteWrite0 | colWriteWrite1 | casLatencyWriteReadDone
  deriving DecidableEq, Repr

/-- `SDRAM_CLK_FREQ` in MHz, and the times in nanoseconds. -/
structure M12Params where
  sdramClkFreq : ℕ
  trpNs : ℕ
  trcNs : ℕ
  trcdNs : ℕ
  tchNs : ℕ

namespace M12Params

variable (p : M12Params)

/-- The cycles of a time, in the width of `wait_states`. -/
def cycles (ns : ℕ) : BitVec 14 := BitVec.ofNat 14 (ns * p.sdramClkFreq / 1000 + 1)

/-- `WAIT_100US`. -/
def wait100us : BitVec 14 := BitVec.ofNat 14 (100 * p.sdramClkFreq)

/-- `TRP`. -/
def trp : BitVec 14 := p.cycles p.trpNs

/-- `TRC`. -/
def trc : BitVec 14 := p.cycles p.trcNs

/-- `TRCD`. -/
def trcd : BitVec 14 := p.cycles p.trcdNs

/-- `TCH`. -/
def tch : BitVec 14 := p.cycles p.tchNs

end M12Params

/-- `CAS_LATENCY`. -/
def casLatency : BitVec 14 := 2#14

/-- `sdram_mode`: single writes, CAS latency 2, bursts of one word. -/
def sdramMode : BitVec 11 := 0b01000100000#11

/-- The registers of `m12l64322a_ctrl`. -/
structure M12Ctrl where
  state : M12State
  returnState : M12State
  waitStates : BitVec 14
  updateReady : Bool
  ready : Bool
  dout : Word
  command : SdramCmd
  cke : Bool
  dqm : BitVec 4
  saddr : BitVec 11
  ba : BitVec 2

namespace M12Ctrl

section

variable (q : CacheReq)

/-- `addr`: `soc.v` connects `cache_addr_o >> 2`. -/
def addr : BitVec 21 := q.addr.extractLsb' 2 21

/-- `addr[20:19]`. -/
def bank : BitVec 2 := (addr q).extractLsb' 19 2

/-- `addr[18:8]`. -/
def row : BitVec 11 := (addr q).extractLsb' 8 11

/-- `addr[7:0]`. -/
def column : BitVec 8 := (addr q).extractLsb' 0 8

/-- `{3'b100, addr[7:0]}`: automatic precharge and column. -/
def columnAp : BitVec 11 := 0b100#3 ++ column q

end

variable (p : M12Params) (c : M12Ctrl) (q : CacheReq) (sdramDq : Word)

/-- `dout_dqm`: the word that was read, with the enabled lanes replaced. -/
def doutDqm : Word := mergeBytes q.mask c.dout q.data

/-- What the controller drives on `sdram_dq`. -/
def drive : Option Word := if c.state = .colWriteWrite1 then some (c.doutDqm q) else none

/-- The command as the device takes it. -/
def decode : Sdram.Command (BitVec 2) (BitVec 11) :=
  match c.command with
  | .act => .act c.ba c.saddr
  | .read => .read c.ba (c.saddr.getLsbD 10)
  | .write => .write c.ba (c.saddr.getLsbD 10)
  | .pre => if c.saddr.getLsbD 10 then .preAll else .pre c.ba
  | .ref => .ref
  | .mrs => .mrs
  | .nop => .nop

/-- A wait before `st`. -/
def waitFor (c : M12Ctrl) (n : BitVec 14) (st : M12State) : M12Ctrl :=
  { c with waitStates := n, state := .waitStates, returnState := st }

/-- `ACT` for the row of the request, and then `st`. -/
def activate (c : M12Ctrl) (st : M12State) : M12Ctrl :=
  waitFor { c with command := .act, saddr := row q, ba := bank q } p.trcd st

/-- `READ` at the column of the request, and then `st`. -/
def readColumn (c : M12Ctrl) (st : M12State) : M12Ctrl :=
  waitFor { c with command := .read, dqm := 0b0000#4, saddr := columnAp q, ba := bank q }
    casLatency st

/-- `WRITE` at the column of the request. -/
def writeColumn (c : M12Ctrl) : M12Ctrl :=
  waitFor { c with
    command := .write
    dqm := ~~~q.mask
    saddr := columnAp q
    ba := bank q
    updateReady := true } p.trp .idle

/-- The word is there; then `st`. -/
def readDone (c : M12Ctrl) (st : M12State) : M12Ctrl :=
  waitFor { c with command := .nop, dqm := 0b1111#4, dout := sdramDq, saddr := 0, ba := 0 }
    p.trp st

/-- One clock edge. -/
def next : M12Ctrl :=
  match c.state with
  | .reset => waitFor { c with cke := false, saddr := 0 } p.wait100us .initSeqPreChargeAll
  | .initSeqPreChargeAll =>
    waitFor { c with cke := true, command := .pre, saddr := c.saddr ||| 0b10000000000#11 } p.trp
      .initSeqAutoRefresh0
  | .initSeqAutoRefresh0 =>
    waitFor { c with command := .ref, saddr := 0 } p.trc .initSeqAutoRefresh1
  | .initSeqAutoRefresh1 =>
    waitFor { c with command := .ref, saddr := 0 } p.trc .initSeqLoadMode
  | .initSeqLoadMode => waitFor { c with command := .mrs, saddr := sdramMode } p.tch .idle
  | .idle =>
    let c' := { c with dqm := 0b1111#4, ready := false }
    if q.valid then activate p q c' (if q.mask ≠ 0#4 then .colWriteRead else .colRead)
    else waitFor { c' with command := .ref, saddr := 0, ba := 0 } p.trc .idle
  | .colWriteRead => readColumn q c .casLatencyWriteReadDone
  | .casLatencyWriteReadDone => readDone p sdramDq c .colWriteWrite0
  | .colWriteWrite0 => activate p q c .colWriteWrite1
  | .colWriteWrite1 => writeColumn p q c
  | .colRead => readColumn q c .casLatencyReadDone
  | .casLatencyReadDone => { readDone p sdramDq c .idle with updateReady := true }
  | .colWrite => writeColumn p q c
  | .preChargeAll =>
    waitFor { c with command := .pre, saddr := c.saddr ||| 0b10000000000#11, ba := 0 } p.trp .idle
  | .waitStates =>
    let c' := { c with command := .nop, saddr := 0 }
    if c.waitStates = 1#14 then
      { c' with
        updateReady := if c.returnState = .idle ∧ c.updateReady = true then false
          else c.updateReady
        ready := if c.returnState = .idle ∧ c.updateReady = true then true else c.ready
        state := c.returnState
        waitStates := 0 }
    else { c' with waitStates := c.waitStates - 1 }
  | .autoRefresh => { c with state := .reset }

/-- The registers after reset.  The command register is not reset: it must not show a column
command, as it does not when it is powered on with zeros. -/
structure IsReset : Prop where
  state : c.state = .reset
  ready : c.ready = false
  updateReady : c.updateReady = false
  command : c.decode.isColumn = false

/-! ## Back to idle -/

variable {p c q sdramDq}

/-- How many waits there are at most before `IDLE`. -/
def waitsLeft : M12State → ℕ
  | .idle | .waitStates => 0
  | .initSeqLoadMode | .casLatencyReadDone | .colWriteWrite1 | .colWrite | .preChargeAll => 1
  | .initSeqAutoRefresh1 | .colRead | .colWriteWrite0 => 2
  | .initSeqAutoRefresh0 | .casLatencyWriteReadDone => 3
  | .initSeqPreChargeAll | .colWriteRead => 4
  | .reset => 5
  | .autoRefresh => 6

/-- The wait leads out of it. -/
def Sound (c : M12Ctrl) : Prop := c.state = .waitStates → c.returnState ≠ .waitStates

/-- A bound for the time until `IDLE`.  A wait that starts at zero goes around once. -/
def rank (c : M12Ctrl) : ℕ :=
  if c.state = .waitStates then
    waitsLeft c.returnState * (2 ^ 14 + 1) + (c.waitStates - 1).toNat + 1
  else waitsLeft c.state * (2 ^ 14 + 1)

theorem rank_waitFor (c : M12Ctrl) (n : BitVec 14) (st : M12State) :
    (waitFor c n st).rank < (waitsLeft st + 1) * (2 ^ 14 + 1) := by
  have hn := (n - 1).isLt
  simp only [rank, waitFor, if_true]
  omega

/-- Outside `IDLE` every edge brings the controller nearer to it. -/
theorem rank_next (h : c.Sound) (hst : c.state ≠ .idle) : (c.next p q sdramDq).rank < c.rank := by
  cases hs : c.state with
  | idle => exact absurd hs hst
  | waitStates =>
    have hret : c.returnState ≠ .waitStates := h hs
    simp only [next, hs]
    -- the wait counts down to one and then returns to a state of lower rank
    by_cases hw : c.waitStates = 1#14
    · simp only [hw, if_true, rank, if_neg hret, hs]
      omega
    · have hpos : (c.waitStates - 1).toNat ≠ 0 := fun h0 => by
        have hz : c.waitStates - 1 = 0#14 := BitVec.eq_of_toNat_eq h0
        exact hw (by rw [← BitVec.sub_add_cancel c.waitStates 1, hz]; rfl)
      have hlt := (c.waitStates - 1).isLt
      have hsub : (c.waitStates - 1 - 1).toNat = (c.waitStates - 1).toNat - 1 := by
        have hone : (1 : BitVec 14).toNat = 1 := rfl
        rw [BitVec.toNat_sub, hone]
        omega
      simp only [if_neg hw, rank, hs, if_true, hsub]
      omega
  | autoRefresh =>
    simp [next, hs, rank, waitsLeft]
  | casLatencyReadDone =>
    have hnext : (c.next p q sdramDq).rank = (readDone p sdramDq c .idle).rank := by
      simp only [next, hs]
      rfl
    have hc : c.rank = 2 ^ 14 + 1 := by simp [rank, hs, waitsLeft]
    rw [hnext, hc]
    exact (rank_waitFor _ _ _).trans_le (by decide)
  | _ =>
    simp only [next, hs, readColumn, writeColumn, readDone, activate]
    refine (rank_waitFor _ _ _).trans_le ?_
    simp [rank, hs, waitsLeft]

theorem Sound.next (h : c.Sound) : (c.next p q sdramDq).Sound := by
  unfold Sound at h ⊢
  cases hs : c.state with
  | waitStates =>
    simp only [M12Ctrl.next, hs]
    split
    · exact fun hno => absurd hno (h hs)
    · exact fun _ => h hs
  | idle =>
    simp only [M12Ctrl.next, hs, activate, waitFor]
    split
    · split <;> exact fun _ hno => M12State.noConfusion hno
    · exact fun _ hno => M12State.noConfusion hno
  | _ =>
    simp [M12Ctrl.next, hs, readColumn, writeColumn, readDone, activate, waitFor]

section

variable {C : ℕ → M12Ctrl} {qs : ℕ → CacheReq} {dqs : ℕ → Word}
  (hC : ∀ n, C (n + 1) = (C n).next p (qs n) (dqs n)) (hsound : (C 0).Sound)

include hC hsound

/-- The controller always comes back to `IDLE`. -/
theorem exists_idle (n : ℕ) : ∃ m, n ≤ m ∧ (C m).state = .idle := by
  have hall : ∀ k, (C k).Sound := by
    intro k
    induction k with
    | zero => exact hsound
    | succ k ih =>
      rw [hC k]
      exact ih.next
  refine Sync.eventually_of_rank (P := fun _ => True) (fun k => (C k).rank) (fun k _ => ?_) trivial
  by_cases hst : (C k).state = .idle
  · exact .inl hst
  · refine .inr ⟨k + 1, Nat.lt_succ_self k, trivial, ?_⟩
    rw [hC k]
    exact rank_next (hall k) hst

end

/-! ## Accesses -/

/-- Where the controller is, or will be after the wait. -/
def pos (c : M12Ctrl) : M12State := if c.state = .waitStates then c.returnState else c.state

/-- A read is under way: it has been accepted and is not answered yet. -/
def reading (c : M12Ctrl) : Prop :=
  c.pos = .colRead ∨ c.pos = .casLatencyReadDone ∨
    (c.state = .waitStates ∧ c.returnState = .idle ∧ c.updateReady = true)

/-- A write is under way, up to its `WRITE`. -/
def writing (c : M12Ctrl) : Prop :=
  c.pos = .colWriteRead ∨ c.pos = .casLatencyWriteReadDone ∨ c.pos = .colWriteWrite0 ∨
    c.pos = .colWriteWrite1

theorem state_ne_idle_of_reading (h : c.reading) : c.state ≠ .idle := by
  intro hst
  simp [reading, pos, hst] at h

theorem state_ne_idle_of_writing (h : c.writing) : c.state ≠ .idle := by
  intro hst
  simp [writing, pos, hst] at h

/-- A write goes on until `WRITE`, and the controller does not drive the data then. -/
theorem writing_next (h : c.writing) :
    (c.next p q sdramDq).writing ∨ ((c.next p q sdramDq).command = .write ∧
      ∀ q', (c.next p q sdramDq).drive q' = none) := by
  by_cases hw : c.state = .waitStates
  · left
    simp only [writing, pos, hw, if_true] at h
    have hne : c.returnState ≠ .waitStates := by
      rcases h with h | h | h | h <;> rw [h] <;> decide
    have hpos : (c.next p q sdramDq).pos = c.returnState := by
      simp only [next, hw]
      split <;> simp [pos, hne]
    simp only [writing, hpos]
    exact h
  · simp only [writing, pos, if_neg hw] at h
    rcases h with h | h | h | h
    · exact .inl (.inr (.inl (by simp [next, h, pos, readColumn, waitFor])))
    · exact .inl (.inr (.inr (.inl (by simp [next, h, pos, readDone, waitFor]))))
    · exact .inl (.inr (.inr (.inr (by simp [next, h, pos, activate, waitFor]))))
    · exact .inr (by simp [next, h, writeColumn, waitFor, drive])

/-- A read goes on until its answer. -/
theorem reading_next (h : c.reading) :
    (c.next p q sdramDq).reading ∨ (c.next p q sdramDq).ready = true := by
  by_cases hw : c.state = .waitStates
  · simp only [reading, pos, hw, if_true, true_and] at h
    by_cases h1 : c.waitStates = 1#14
    · rcases h with h | h | ⟨h, hu⟩
      · exact .inl (.inl (by simp [next, hw, h1, h, pos]))
      · exact .inl (.inr (.inl (by simp [next, hw, h1, h, pos])))
      · exact .inr (by simp [next, hw, h1, h, hu])
    · left
      rcases h with h | h | ⟨h, hu⟩
      · exact .inl (by simp [next, hw, h1, h, pos])
      · exact .inr (.inl (by simp [next, hw, h1, h, pos]))
      · exact .inr (.inr (by simp [next, hw, h1, h, hu]))
  · simp only [reading, pos, if_neg hw] at h
    rcases h with h | h | h
    · exact .inl (.inr (.inl (by simp [next, h, pos, readColumn, waitFor])))
    · exact .inl (.inr (.inr (by simp [next, h, readDone, waitFor])))
    · exact absurd h.1 hw

/-- An edge is a ready pulse only on the way into `IDLE`. -/
theorem state_of_ready (h : c.ready = true → c.state = .idle)
    (hr : (c.next p q sdramDq).ready = true) : (c.next p q sdramDq).state = .idle := by
  cases hs : c.state with
  | waitStates =>
    have hc : c.ready = false := by
      apply Bool.eq_false_of_not_eq_true
      intro hc
      rw [hs] at h
      exact M12State.noConfusion (h hc)
    simp only [next, hs] at hr ⊢
    by_cases h1 : c.waitStates = 1#14
    · simp only [h1, if_true, hc] at hr ⊢
      by_cases hd : c.returnState = .idle ∧ c.updateReady = true
      · exact hd.1
      · rw [if_neg hd] at hr
        exact Bool.noConfusion hr
    · simp only [if_neg h1, hc] at hr
      exact Bool.noConfusion hr
  | idle =>
    simp only [next, hs, activate, waitFor] at hr
    split at hr <;> exact Bool.noConfusion hr
  | _ =>
    have hc : c.ready = true := by
      simpa [next, hs, readColumn, writeColumn, readDone, activate, waitFor] using hr
    exact absurd (h hc) (by rw [hs]; decide)

end M12Ctrl

end KianRiscV
