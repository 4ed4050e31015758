/-
# The commands of the first SDRAM controller

A run of `mt48lc16m16a2_ctrl.v` of the first SoC, for parameters that fit into the wait counter
and a requester that holds its requests: the commands are legal, far enough apart, one column
command is answered by one ready pulse, at the place of its request, and a write drives the two
halves of its word.
-/
import Mathlib.Data.Nat.Find
import KianRiscV.SdramLegal

namespace KianRiscV

open Sdram

/-- Bank, row and column (`A8` to `A1`) of the word `addr[24:2]`. -/
def SdramReq.place (w : BitVec 23) : BitVec 2 × BitVec 13 × BitVec 8 :=
  (w.extractLsb' 19 2, w.extractLsb' 21 2 ++ w.extractLsb' 8 11, w.extractLsb' 0 8)

namespace SdramParams

/-- The cycles a device needs after a command, before it takes the next.  The burst of a write
ends in the cycle behind the command, and the automatic precharge of a read starts behind its
burst of two. -/
def gap (p : SdramParams) : Command (BitVec 2) (BitVec 13) → ℕ
  | .pre _ | .preAll => p.trpCyc
  | .act _ _ => p.trcdCyc
  | .ref => p.trfcCyc
  | .mrs => p.tchCyc
  | .write _ false => 1 + p.twrCyc
  | .write _ true => 1 + p.twrCyc + p.trpCyc
  | .read _ true => 2 + p.trpCyc
  | .read _ false | .nop => 0

end SdramParams

namespace SdramCore

variable {t : SdramSettings} {c : SdramCore} {q : SdramReq} {x : BitVec 16}
  {d : Banks (BitVec 2) (BitVec 13)}

/-! ## One edge -/

/-- Where a command leaves the state machine. -/
def After (t : SdramSettings) (c : SdramCore) : Prop :=
  match c.pins.decode with
  | .pre _ | .preAll => c.state = .waitState ∧ c.waitCnt = t.trp
  | .act _ _ => c.state = .waitState ∧ c.waitCnt = t.trcd
  | .ref => c.state = .waitState ∧ c.waitCnt = t.trfc
  | .mrs => c.state = .waitState ∧ c.waitCnt = t.tmrd
  | .read _ a => c.state = .waitState ∧ c.waitCnt = t.readWait ∧ c.retState = .readL ∧
      a = !t.keepOpen
  | .write _ a => c.state = .writeH ∧ a = !t.keepOpen
  | .nop => True

theorem after_of_nop (h : c.pins.decode = .nop) : c.After t := by
  unfold After
  rw [h]
  trivial

theorem after_preAllThen (d : SdramCore) (st : SdramState) : (c.preAllThen t d st).After t := by
  unfold After
  have hd : (c.preAllThen t d st).pins.decode = .preAll := by
    simp [preAllThen, waitFor, SdramPins.decode]
  rw [hd]
  exact ⟨rfl, rfl⟩

/-- The commands of `IDLE`. -/
theorem idleNext_after : (c.idleNext t q).After t := by
  let P : SdramCore → Prop := fun c' => c'.After t
  show P (c.idleNext t q)
  unfold idleNext idleRefresh idleAccept
  dsimp only
  repeat' refine iteInduction (motive := P) (fun _ => ?_) (fun _ => ?_)
  case refine_2.refine_1.refine_1 | refine_2.refine_2.refine_1.refine_1 =>
    exact after_preAllThen _ _
  case refine_2.refine_2.refine_2.refine_1.refine_1.refine_2.refine_1 =>
    show After t _
    unfold After
    simp [SdramPins.decode, waitFor]
  all_goals first | exact after_of_nop rfl | exact ⟨rfl, rfl⟩

theorem next_after : (c.next t q x).After t := by
  by_cases hs : c.state = .idle
  · rw [next_of_idle hs]
    exact idleNext_after
  · unfold After
    rw [next_decode hs]
    cases hst : c.state with
    | idle => exact absurd hst hs
    | waitState | reset | assertCke | readL | readH | writeH => trivial
    | readCmd | writeL =>
      simp only [next, hst]
      trivial
    | _ =>
      simp only [next, hst]
      exact ⟨rfl, rfl⟩

/-- A column command comes from the two column states. -/
theorem next_isColumn : (c.next t q x).pins.decode.isColumn = true ↔
    c.state = .readCmd ∨ c.state = .writeL := by
  by_cases hs : c.state = .idle
  · rcases idle_next (t := t) (x := x) (q := q) hs with ⟨hd⟩ | ⟨hd⟩ | ⟨hd⟩ | ⟨hd⟩ | ⟨-, hd⟩ |
      ⟨-, hd⟩ | ⟨-, hd⟩ | ⟨hd⟩ <;> simp [hd, hs, Command.isColumn]
  · rw [next_decode hs]
    cases hst : c.state <;> first | exact absurd hst hs | simp [Command.isColumn]

/-- The column command of the access has been issued, and the ready pulse not yet. -/
def past (c : SdramCore) : Bool :=
  match c.pos with
  | .readL | .readH | .writeH => true
  | .idle => c.state == .waitState && c.updateReady
  | _ => false

theorem busy_of_past (h : c.past = true) : c.busy = true := by
  unfold past at h
  unfold busy
  cases hp : c.pos <;> simp_all

/-- The flag goes up with the column command. -/
theorem past_of_isColumn (h : (c.next t q x).pins.decode.isColumn = true) :
    c.past = false ∧ (c.next t q x).past = true := by
  rcases next_isColumn.1 h with hst | hst
  · have hp := next_pos (t := t) (c := c) (q := q) (x := x) (by simp [hst])
    simp only [hst] at hp
    exact ⟨by simp [past, pos, hst], by simp [past, hp]⟩
  · have hp := next_pos (t := t) (c := c) (q := q) (x := x) (by simp [hst])
    simp only [hst] at hp
    exact ⟨by simp [past, pos, hst], by simp [past, hp]⟩

/-- It goes down with the ready pulse. -/
theorem past_of_ready (h : (c.next t q x).ready = true) :
    c.past = true ∧ (c.next t q x).past = false := by
  obtain ⟨hw, -, hr, hu, hs⟩ := next_ready h
  exact ⟨by simp [past, pos, hw, hr, hu], by simp [past, pos, hs]⟩

/-- At `IDLE` the flag is the ready pulse still to come. -/
theorem past_of_pos_idle (h : c.pos = .idle) :
    c.past = (c.state == .waitState && c.updateReady) := by
  unfold past
  rw [h]

/-- Nothing else changes it. -/
theorem Kept.past_next (h : c.Kept q d)
    (hcol : (c.next t q x).pins.decode.isColumn = false) (hr : (c.next t q x).ready = false) :
    (c.next t q x).past = c.past := by
  have hno : ¬ (c.state = .readCmd ∨ c.state = .writeL) := by
    rw [← next_isColumn (t := t) (q := q) (x := x), hcol]
    decide
  -- Outside the wait no ready pulse is announced.
  have hupd : c.state ≠ .waitState → c.state ≠ .readH → c.state ≠ .writeH →
      (c.next t q x).updateReady = false := by
    intro hw hrh hwh
    by_contra hu
    rcases next_updateReady (by simpa using hu) with ⟨-, -, hs | hs⟩ | ⟨hu', -, -⟩
    · exact hrh hs
    · exact hwh hs
    · exact hw (h.update hu').1
  have hpos := next_pos (t := t) (c := c) (q := q) (x := x)
  cases hst : c.state with
  | idle =>
    have hc : c.past = false := by simp [past, pos, hst]
    rcases idle_next (t := t) (x := x) (q := q) hst with ⟨-, hp⟩ | ⟨-, hp | hp⟩ | ⟨-, hp⟩ |
      ⟨-, hp⟩ | ⟨-, -, hp⟩ | ⟨-, -, hp⟩ | ⟨-, -, hp⟩ | ⟨-, hp⟩
    case refresh | wait =>
      rw [past_of_pos_idle hp, hupd (by simp [hst]) (by simp [hst]) (by simp [hst]), hc,
        Bool.and_false]
    case hit =>
      rw [hc, past, hp]
      split_ifs <;> rfl
    all_goals rw [hc, past, hp]
  | waitState =>
    have hp := hpos (by simp [hst])
    simp only [hst] at hp
    by_cases hi : c.pos = .idle
    · rw [past_of_pos_idle (hp.trans hi), past_of_pos_idle hi]
      have hret : c.retState = .idle := by simpa [pos, hst] using hi
      simp only [SdramCore.next, hst] at hr ⊢
      split at hr
      · rename_i hw
        have hu : c.updateReady = false := by simpa [hret] using hr
        simp [hw, hret, hu]
      · rename_i hw
        rw [if_neg hw]
        simp [rest, hst]
    · unfold past
      rw [hp]
      cases hpc : c.pos <;> first | rfl | exact absurd hpc hi
  | readCmd => exact absurd (.inl hst) hno
  | writeL => exact absurd (.inr hst) hno
  | readH | writeH =>
    have hp := hpos (by simp [hst])
    simp only [hst] at hp
    rw [past_of_pos_idle hp]
    simp only [SdramCore.next, hst, past, pos]
    rfl
  | activate =>
    have hp := hpos (by simp [hst])
    simp only [hst] at hp
    have hc : c.past = false := by simp [past, pos, hst]
    rw [hc, past, hp]
    split_ifs <;> rfl
  | initMrs | preBank | preAll | refresh =>
    have hp := hpos (by simp [hst])
    simp only [hst] at hp
    have hc : c.past = false := by simp [past, pos, hst]
    rw [past_of_pos_idle hp, hupd (by simp [hst]) (by simp [hst]) (by simp [hst]), hc,
      Bool.and_false]
  | _ =>
    have hp := hpos (by simp [hst])
    simp only [hst] at hp
    simp [past, hp, pos_of_state, hst]

end SdramCore

/-! ## Runs -/

namespace SdramCtrl

section

variable (p : SdramParams) (inp : ℕ → SdramIn)

/-- The banks of the device after the command on the pins in cycle `n`, from any banks `d`. -/
def device (d : Banks (BitVec 2) (BitVec 13)) : ℕ → Banks (BitVec 2) (BitVec 13)
  | 0 => d
  | n + 1 => (device d n).step (run p inp (n + 1)).pins.decode

/-- Requests are held until they are answered. -/
def Held : Prop :=
  ∀ n, (inp n).req.valid = true → (run p inp n).ready = false → (inp (n + 1)).req = (inp n).req

/-- The command on the pins in cycle `n`. -/
def command (n : ℕ) : Command (BitVec 2) (BitVec 13) := (run p inp n).pins.decode

end

variable {p : SdramParams} {inp : ℕ → SdramIn} {d : Banks (BitVec 2) (BitVec 13)} {m n w : ℕ}

theorem run_succ (n : ℕ) :
    run p inp (n + 1) = (run p inp n).next p.settings (inp n).req (inp n).dqRd := rfl

theorem kept_run (hq : Held p inp) (n : ℕ) :
    (run p inp n).Kept (inp n).req (device p inp d n) ∧
      (run p inp n).OnePolicy p.keepOpen (inp n).req := by
  induction n with
  | zero =>
    constructor
    · constructor <;> simp [run, SdramCore.resetState, SdramCore.RowsAt, SdramCore.pos,
        SdramCore.busy]
    · exact ⟨by simp [run, SdramCore.resetState, SdramCore.pos], fun _ => rfl⟩
  | succ n ih =>
    have hpol : (run p inp n).OnePolicy p.settings.keepOpen (inp n).req := ih.2
    exact ⟨ih.1.next hpol.steady (hq n), hpol.next ih.1 (hq n)⟩

/-- The request is held from the column command to the ready pulse. -/
theorem req_of_busy (hq : Held p inp) (h : (run p inp n).busy = true) :
    (inp n).req.valid = true ∧ (inp (n + 1)).req = (inp n).req := by
  have hk := (kept_run (d := Banks.closed) hq n).1
  obtain ⟨hv, hr⟩ := hk.ready_eq_false (t := p.settings) (.inl h)
  exact ⟨hv, hq n hv hr⟩

/-! ## Waits -/

/-- There is no command after cycle `m` and up to cycle `r`. -/
def Silent (p : SdramParams) (inp : ℕ → SdramIn) (m r : ℕ) : Prop :=
  ∀ k, m < k → k ≤ r → command p inp k = .nop

theorem silent_succ (h : command p inp (m + 1) = .nop) : Silent p inp m (m + 1) := by
  intro k hk hk'
  obtain rfl : k = m + 1 := by omega
  exact h

theorem Silent.trans {i r : ℕ} (h : Silent p inp m i) (h' : Silent p inp i r) :
    Silent p inp m r := by
  intro k hk hk'
  rcases Nat.lt_or_ge i k with hlt | hge
  · exact h' k hlt hk'
  · exact h k hk hge

/-- The states without a command. -/
theorem silent_of_state (h : (run p inp m).state = .waitState ∨ (run p inp m).state = .readL ∨
    (run p inp m).state = .readH ∨ (run p inp m).state = .writeH) :
    Silent p inp m (m + 1) := by
  have hd := SdramCore.next_decode (t := p.settings) (c := run p inp m) (q := (inp m).req)
    (x := (inp m).dqRd) (by rcases h with h | h | h | h <;> simp [h])
  apply silent_succ
  rcases h with h | h | h | h <;> simp only [h] at hd <;> exact hd

/-- The wait: no commands, and then the state to return to. -/
theorem run_wait (hs : (run p inp m).state = .waitState) (hw : (run p inp m).waitCnt.toNat = w)
    (h0 : 0 < w) :
    Silent p inp m (m + w) ∧ (run p inp (m + w)).state = (run p inp m).retState ∧
      (run p inp (m + w)).ready =
        ((run p inp m).updateReady && (run p inp m).retState == .idle) := by
  induction w generalizing m with
  | zero => exact absurd h0 (lt_irrefl 0)
  | succ w ih =>
    have hnop : Silent p inp m (m + 1) := silent_of_state (.inl hs)
    -- the last cycle returns, with the ready pulse if the request is over
    by_cases hlast : w = 0
    · subst hlast
      have h1 : (run p inp m).waitCnt = 1#16 := BitVec.eq_of_toNat_eq (by simpa using hw)
      rw [run_succ]
      refine ⟨hnop, ?_, ?_⟩ <;> simp [SdramCore.next, hs, h1]
    · have h1 : (run p inp m).waitCnt ≠ 1#16 := by
        intro h
        rw [h] at hw
        simp at hw
        omega
      have hnext : (run p inp (m + 1)).state = .waitState ∧
          (run p inp (m + 1)).retState = (run p inp m).retState ∧
          (run p inp (m + 1)).updateReady = (run p inp m).updateReady ∧
          (run p inp (m + 1)).waitCnt = (run p inp m).waitCnt - 1 := by
        rw [run_succ]
        simp [SdramCore.next, hs, h1, SdramCore.rest]
      have hcnt : (run p inp (m + 1)).waitCnt.toNat = w := by
        rw [hnext.2.2.2, BitVec.toNat_sub, hw]
        have := (run p inp m).waitCnt.isLt
        simp
        omega
      obtain ⟨hno, hst, hrd⟩ := ih hnext.1 hcnt (Nat.pos_of_ne_zero hlast)
      rw [show m + 1 + w = m + (w + 1) by omega] at hno hst hrd
      exact ⟨hnop.trans hno, by rw [hst, hnext.2.1], by rw [hrd, hnext.2.1, hnext.2.2.1]⟩

theorem toNat_ofNat_of_lt {v : ℕ} (h : v < 2 ^ 16) : (BitVec.ofNat 16 v).toNat = v := by
  rw [BitVec.toNat_ofNat, Nat.mod_eq_of_lt h]

/-- No device needs less than one cycle. -/
theorem one_le_ns2cyc (ns f : ℕ) : 1 ≤ ns2cyc ns f := le_max_left _ _

/-- After the last word of an access: the recovery, and the ready pulse. -/
theorem run_recovery (hs : (run p inp m).state = .waitState) (hr : (run p inp m).retState = .idle)
    (hu : (run p inp m).updateReady = true) (hw : (run p inp m).waitCnt = BitVec.ofNat 16 w)
    (hlt : w < 2 ^ 16) (h0 : 0 < w) :
    Silent p inp m (m + w) ∧ (run p inp (m + w)).ready = true := by
  obtain ⟨hno, -, hrd⟩ := run_wait hs (by rw [hw, toNat_ofNat_of_lt hlt]) h0
  exact ⟨hno, by rw [hrd, hu, hr]; rfl⟩

/-- The rest of a write: the second word and the recovery. -/
theorem run_write (hp : p.Fits) (hs : (run p inp m).state = .writeH) :
    ∃ r, m + (1 + if p.keepOpen then p.twrCyc else p.tdalCyc) ≤ r ∧ m < r ∧
      Silent p inp m r ∧ (run p inp r).ready = true := by
  let w := if p.keepOpen then p.twrCyc else p.tdalCyc
  have hw : w < 2 ^ 16 ∧ 0 < w := by
    have h1 : 1 ≤ p.twrCyc := one_le_ns2cyc p.twrNs p.sdramClkFreq
    have h2 := hp.tdal
    simp only [w, SdramParams.tdalCyc] at h2 ⊢
    split <;> omega
  have hnext : (run p inp (m + 1)).state = .waitState ∧ (run p inp (m + 1)).retState = .idle ∧
      (run p inp (m + 1)).updateReady = true ∧
      (run p inp (m + 1)).waitCnt = BitVec.ofNat 16 w := by
    rw [run_succ]
    simp only [SdramCore.next, hs, w]
    refine ⟨rfl, rfl, rfl, ?_⟩
    show (if p.keepOpen then BitVec.ofNat 16 p.twrCyc else BitVec.ofNat 16 p.tdalCyc) = _
    split <;> rfl
  obtain ⟨hno, hrd⟩ := run_recovery hnext.1 hnext.2.1 hnext.2.2.1 hnext.2.2.2 hw.1 hw.2
  exact ⟨m + 1 + w, by omega, by omega,
    (silent_of_state (.inr (.inr (.inr hs)))).trans hno, hrd⟩

/-- The rest of a read: the latency, the two words, and the automatic precharge. -/
theorem run_read (hp : p.Fits) (hs : (run p inp m).state = .waitState)
    (hw : (run p inp m).waitCnt = p.settings.readWait) (hr : (run p inp m).retState = .readL) :
    ∃ r, m + (2 + if p.keepOpen then 1 else p.trpCyc) ≤ r ∧ m < r ∧
      Silent p inp m r ∧ (run p inp r).ready = true := by
  let w := if p.keepOpen then 1 else p.trpCyc
  have hw' : w < 2 ^ 16 ∧ 0 < w := by
    have h1 : 2 ≤ p.trpCyc := le_max_left _ _
    have h2 := hp.trp
    simp only [w]
    split <;> omega
  have hcas : 0 < p.readCyc := by
    have h2 : (2#3).toNat = 2 := rfl
    have h3 : (3#3).toNat = 3 := rfl
    rw [SdramParams.readCyc]
    rcases hp.cas with h | h <;> rw [h] <;> omega
  have hwait : (run p inp m).waitCnt.toNat = p.readCyc := by
    rw [hw]
    exact toNat_ofNat_of_lt hp.read
  -- the latency, `READ_L`, `READ_H`, and the wait in which the ready pulse comes
  obtain ⟨hno, hl, -⟩ := run_wait hs hwait hcas
  rw [hr] at hl
  obtain ⟨i, hi⟩ : ∃ i, i = m + p.readCyc := ⟨_, rfl⟩
  rw [← hi] at hno hl
  have hh : (run p inp (i + 1)).state = .readH := by
    rw [run_succ]
    simp only [SdramCore.next, hl]
  have hnext : (run p inp (i + 2)).state = .waitState ∧ (run p inp (i + 2)).retState = .idle ∧
      (run p inp (i + 2)).updateReady = true ∧
      (run p inp (i + 2)).waitCnt = BitVec.ofNat 16 w := by
    rw [run_succ]
    simp only [SdramCore.next, hh, w]
    refine ⟨rfl, rfl, rfl, ?_⟩
    show (if p.keepOpen then 1#16 else BitVec.ofNat 16 p.trpCyc) = _
    split <;> rfl
  obtain ⟨hno', hrd⟩ := run_recovery hnext.1 hnext.2.1 hnext.2.2.1 hnext.2.2.2 hw'.1 hw'.2
  have hsilent := (hno.trans (silent_of_state (.inr (.inl hl)))).trans
    (silent_of_state (.inr (.inr (.inl hh))))
  exact ⟨i + 2 + w, by omega, by omega, hsilent.trans hno', hrd⟩

/-- The rest of an access: no further command, and a ready pulse. -/
theorem run_column (hp : p.Fits) (h : (command p inp (m + 1)).isColumn = true) :
    ∃ r, m + 1 + p.gap (command p inp (m + 1)) ≤ r ∧ m + 1 < r ∧
      Silent p inp (m + 1) r ∧ (run p inp r).ready = true := by
  have hafter := SdramCore.next_after (t := p.settings) (c := run p inp m) (q := (inp m).req)
    (x := (inp m).dqRd)
  rw [← run_succ, SdramCore.After] at hafter
  cases hc : command p inp (m + 1) with
  | read b a =>
    have hd : (run p inp (m + 1)).pins.decode = .read b a := hc
    rw [hd] at hafter
    obtain ⟨hs, hw, hr, ha⟩ := hafter
    obtain ⟨r, hgap, hlt, hsilent, hready⟩ := run_read hp hs hw hr
    refine ⟨r, le_trans ?_ hgap, hlt, hsilent, hready⟩
    have hk : a = !p.keepOpen := ha
    cases hpol : p.keepOpen <;> simp [SdramParams.gap, hk, hpol]
  | write b a =>
    have hd : (run p inp (m + 1)).pins.decode = .write b a := hc
    rw [hd] at hafter
    obtain ⟨hs, ha⟩ := hafter
    obtain ⟨r, hgap, hlt, hsilent, hready⟩ := run_write hp hs
    refine ⟨r, le_trans ?_ hgap, hlt, hsilent, hready⟩
    have hk : a = !p.keepOpen := ha
    cases hpol : p.keepOpen with
    | true => simp [SdramParams.gap, hk, hpol]
    | false =>
      simp [SdramParams.gap, hk, hpol, SdramParams.tdalCyc]
      omega
  | _ => simp [hc, Command.isColumn] at h

/-- The command and the cycles without one after it. -/
theorem run_gap (hp : p.Fits) (h : command p inp (m + 1) ≠ .nop) :
    ∃ r, m + 1 + p.gap (command p inp (m + 1)) ≤ r + 1 ∧ Silent p inp (m + 1) r := by
  by_cases hcol : (command p inp (m + 1)).isColumn = true
  · obtain ⟨r, hgap, -, hsilent, -⟩ := run_column hp hcol
    exact ⟨r, by omega, hsilent⟩
  · have hafter := SdramCore.next_after (t := p.settings) (c := run p inp m) (q := (inp m).req)
      (x := (inp m).dqRd)
    rw [← run_succ, SdramCore.After] at hafter
    -- All of them lead to the wait, with the cycles of their own.
    have hwait : ∀ w, w < 2 ^ 16 → 0 < w → (run p inp (m + 1)).state = .waitState →
        (run p inp (m + 1)).waitCnt = BitVec.ofNat 16 w →
        p.gap (command p inp (m + 1)) = w →
        ∃ r, m + 1 + p.gap (command p inp (m + 1)) ≤ r + 1 ∧ Silent p inp (m + 1) r := by
      intro w hlt h0 hs hw hgap
      obtain ⟨hsilent, -⟩ := run_wait hs (by rw [hw, toNat_ofNat_of_lt hlt]) h0
      exact ⟨m + 1 + w, by omega, hsilent⟩
    have htrp : 2 ≤ p.trpCyc := le_max_left _ _
    have htrcd : 2 ≤ p.trcdCyc := le_max_left _ _
    have htch : 2 ≤ p.tchCyc := le_max_left _ _
    have htrfc : 1 ≤ p.trfcCyc := one_le_ns2cyc _ _
    cases hc : (run p inp (m + 1)).pins.decode with
    | nop => exact absurd hc h
    | read | write => simp [command, hc, Command.isColumn] at hcol
    | act =>
      rw [hc] at hafter
      exact hwait _ hp.trcd (by omega) hafter.1 hafter.2 (by rw [command, hc]; rfl)
    | pre | preAll =>
      rw [hc] at hafter
      exact hwait _ hp.trp (by omega) hafter.1 hafter.2 (by rw [command, hc]; rfl)
    | ref =>
      rw [hc] at hafter
      exact hwait _ hp.trfc (by omega) hafter.1 hafter.2 (by rw [command, hc]; rfl)
    | mrs =>
      rw [hc] at hafter
      exact hwait _ hp.tch (by omega) hafter.1 hafter.2 (by rw [command, hc]; rfl)

/-! ## Requests -/

/-- Column commands and ready pulses come in turn. -/
theorem toggles (hq : Held p inp) :
    Sync.Toggles (fun n => (run p inp n).past = true)
      (fun n => (command p inp n).isColumn = true) (fun n => (run p inp n).ready = true) where
  start := ⟨Bool.false_ne_true, Bool.false_ne_true, Bool.false_ne_true⟩
  set n h := by
    have hpast : (run p inp n).past = false ∧ (run p inp (n + 1)).past = true :=
      SdramCore.past_of_isColumn h
    exact ⟨by rw [hpast.1]; decide, hpast.2⟩
  clear n h := by
    have hpast : (run p inp n).past = true ∧ (run p inp (n + 1)).past = false :=
      SdramCore.past_of_ready h
    exact ⟨hpast.1, by rw [hpast.2]; decide⟩
  keep n hp hr := by
    have hk := (kept_run (d := Banks.closed) hq n).1
    rw [run_succ, hk.past_next (Bool.eq_false_of_not_eq_true hp) (Bool.eq_false_of_not_eq_true hr)]

/-- The request stays from the column command to the ready pulse. -/
theorem req_of_isColumn (hq : Held p inp) (hm : (command p inp m).isColumn = true) (hmn : m ≤ n)
    (hno : ∀ k, m ≤ k → k < n → (run p inp k).ready = false) :
    (inp n).req = (inp m).req ∧ (inp n).req.valid = true := by
  have htog := toggles hq
  induction n, hmn using Nat.le_induction with
  | base => exact ⟨rfl, (req_of_busy hq (SdramCore.busy_of_past (htog.of_set hm))).1⟩
  | succ n hmn ih =>
    obtain ⟨heq, hv⟩ := ih fun k hk hk' => hno k hk (by omega)
    have hpast : (run p inp n).past = true :=
      htog.stays (htog.of_set hm) hmn fun k hk hk' => by simp [hno k (by omega) (by omega)]
    have hnext := (req_of_busy hq (SdramCore.busy_of_past hpast)).2
    exact ⟨hnext.trans heq, by rw [hnext]; exact hv⟩

theorem state_of_isColumn (h : (command p inp (n + 1)).isColumn = true) :
    (run p inp n).state = .readCmd ∨ (run p inp n).state = .writeL :=
  SdramCore.next_isColumn.1 h

/-- The column states serve the request that is there. -/
theorem req_of_column_state
    (hq : Held p inp) (h : (command p inp (n + 1)).isColumn = true) :
    (inp (n + 1)).req = (inp n).req := by
  refine (req_of_busy hq (SdramCore.busy_of_pos ?_)).2
  rcases state_of_isColumn h with hst | hst
  · simp [SdramCore.pos_of_state, hst]
  · simp [SdramCore.pos_of_state, hst]

/-- The pins of a column command. -/
theorem pins_of_isColumn (hq : Held p inp) (h : (command p inp (n + 1)).isColumn = true) :
    (run p inp (n + 1)).pins.ba = (inp (n + 1)).req.curBank ∧
      (run p inp (n + 1)).pins.saddr = (inp (n + 1)).req.col p.keepOpen := by
  rw [req_of_column_state hq h, run_succ]
  rcases state_of_isColumn h with hst | hst
  · simp only [SdramCore.next, hst]
    exact ⟨rfl, rfl⟩
  · simp only [SdramCore.next, hst]
    exact ⟨trivial, rfl⟩

/-- The row of a column command is open, and is that of the request. -/
theorem row_of_isColumn (hq : Held p inp) (h : (command p inp (n + 1)).isColumn = true) :
    device p inp d n (run p inp (n + 1)).pins.ba = some (inp (n + 1)).req.curRow := by
  have hlegal := (kept_run (d := d) hq n).1.legal (t := p.settings) (x := (inp n).dqRd)
  have hrow : device p inp d n (inp n).req.curBank = some (inp n).req.curRow := by
    rcases state_of_isColumn h with hst | hst
    · rw [SdramCore.next_decode (by simp [hst])] at hlegal
      simp only [hst] at hlegal
      exact hlegal
    · rw [SdramCore.next_decode (by simp [hst])] at hlegal
      simp only [hst] at hlegal
      exact hlegal
  rw [(pins_of_isColumn hq h).1, req_of_column_state hq h]
  exact hrow

/-- The kind of a column command. -/
theorem kind_of_isColumn (hq : Held p inp) (h : (command p inp (n + 1)).isColumn = true) :
    command p inp (n + 1) = if (inp (n + 1)).req.wmask = 0#4 then
      .read (inp (n + 1)).req.curBank (!p.keepOpen)
    else .write (inp (n + 1)).req.curBank (!p.keepOpen) := by
  have hk := (kept_run (d := Banks.closed) hq n).1
  rw [req_of_column_state hq h, command, run_succ]
  rcases state_of_isColumn h with hst | hst
  · have hw := hk.read (by simp [SdramCore.pos_of_state, hst])
    rw [SdramCore.next_decode (by simp [hst]), if_pos hw]
    simp only [hst]
    rfl
  · have hw := hk.write (by simp [SdramCore.pos_of_state, hst])
    rw [SdramCore.next_decode (by simp [hst]), if_neg hw]
    simp only [hst]
    rfl

/-- The two words of a write. -/
theorem words_of_write (hq : Held p inp) (h : (command p inp (n + 1)).isColumn = true)
    (hw : (inp (n + 1)).req.wmask ≠ 0#4) :
    (run p inp (n + 1)).pins.oe = true ∧
      (run p inp (n + 1)).pins.dq = (inp (n + 1)).req.din.extractLsb' 0 16 ∧
      (run p inp (n + 1)).pins.dqm = ~~~((inp (n + 1)).req.wmask.extractLsb' 0 2) ∧
      (run p inp (n + 2)).pins.command = .nop ∧ (run p inp (n + 2)).pins.oe = true ∧
      (run p inp (n + 2)).pins.dq = (inp (n + 1)).req.din.extractLsb' 16 16 ∧
      (run p inp (n + 2)).pins.dqm = ~~~((inp (n + 1)).req.wmask.extractLsb' 2 2) := by
  have hk := (kept_run (d := Banks.closed) hq n).1
  have hst : (run p inp n).state = .writeL := by
    rcases state_of_isColumn h with hr | hst
    · rw [req_of_column_state hq h] at hw
      exact absurd (hk.read (by simp [SdramCore.pos_of_state, hr])) hw
    · exact hst
  have hnext : (run p inp (n + 1)).state = .writeH := by
    rw [run_succ]
    simp only [SdramCore.next, hst]
  have h2 : (run p inp (n + 2)).pins.command = .nop ∧ (run p inp (n + 2)).pins.oe = true ∧
      (run p inp (n + 2)).pins.dq = (inp (n + 1)).req.din.extractLsb' 16 16 ∧
      (run p inp (n + 2)).pins.dqm = ~~~((inp (n + 1)).req.wmask.extractLsb' 2 2) := by
    rw [run_succ (n + 1)]
    simp only [SdramCore.next, hnext]
    exact ⟨rfl, rfl, rfl, rfl⟩
  refine ⟨?_, ?_, ?_, h2⟩
  all_goals
    rw [run_succ]
    simp only [SdramCore.next, hst, req_of_column_state hq h]

/-- What the controller does with its requests, over a whole run on a device with the banks `d`
at the start. -/
structure Correct (p : SdramParams) (inp : ℕ → SdramIn) (d : Banks (BitVec 2) (BitVec 13)) :
    Prop where
  /-- Every command is legal, column commands for the row of the request. -/
  legal : ∀ n, (device p inp d n).Legal (inp n).req.curRow (command p inp (n + 1))
  /-- Every command comes late enough after every earlier one. -/
  spaced : ∀ m n, m < n → command p inp m ≠ .nop → command p inp n ≠ .nop →
    m + p.gap (command p inp m) ≤ n
  /-- Every column command is answered. -/
  answered : ∀ m, (command p inp m).isColumn = true →
    ∃ n, m < n ∧ (run p inp n).ready = true ∧
      ∀ k, m ≤ k → k < n → (run p inp k).ready = false
  /-- Every ready pulse answers exactly one column command. -/
  once : ∀ n, (run p inp n).ready = true →
    ∃! m, m ≤ n ∧ (command p inp m).isColumn = true ∧
      ∀ k, m ≤ k → k < n → (run p inp k).ready = false
  /-- The request that is answered is the one the command was issued for. -/
  request : ∀ m n, (command p inp m).isColumn = true → m ≤ n →
    (∀ k, m ≤ k → k < n → (run p inp k).ready = false) →
    (inp n).req = (inp m).req ∧ (inp n).req.valid = true
  /-- Requests without byte enables are read, the others written. -/
  kind : ∀ n, (command p inp (n + 1)).isColumn = true →
    command p inp (n + 1) = if (inp (n + 1)).req.wmask = 0#4 then
      .read (inp (n + 1)).req.curBank (!p.keepOpen)
    else .write (inp (n + 1)).req.curBank (!p.keepOpen)
  /-- The place of a column command is that of the request's word. -/
  place : ∀ n, (command p inp (n + 1)).isColumn = true →
    ((run p inp (n + 1)).pins.ba, device p inp d n (run p inp (n + 1)).pins.ba,
        (run p inp (n + 1)).pins.saddr.extractLsb' 1 8) =
      ((SdramReq.place ((inp (n + 1)).req.addr.extractLsb' 2 23)).1,
        some (SdramReq.place ((inp (n + 1)).req.addr.extractLsb' 2 23)).2.1,
        (SdramReq.place ((inp (n + 1)).req.addr.extractLsb' 2 23)).2.2)
  /-- A write drives the lower and then the upper half of its word. -/
  words : ∀ n, (command p inp (n + 1)).isColumn = true → (inp (n + 1)).req.wmask ≠ 0#4 →
    (run p inp (n + 1)).pins.oe = true ∧
      (run p inp (n + 1)).pins.dq = (inp (n + 1)).req.din.extractLsb' 0 16 ∧
      (run p inp (n + 1)).pins.dqm = ~~~((inp (n + 1)).req.wmask.extractLsb' 0 2) ∧
      (run p inp (n + 2)).pins.command = .nop ∧ (run p inp (n + 2)).pins.oe = true ∧
      (run p inp (n + 2)).pins.dq = (inp (n + 1)).req.din.extractLsb' 16 16 ∧
      (run p inp (n + 2)).pins.dqm = ~~~((inp (n + 1)).req.wmask.extractLsb' 2 2)

end SdramCtrl

/-! ## Places -/

/-- A field of a field. -/
theorem extractLsb'_extractLsb' {w start len start' len' : ℕ} (x : BitVec w)
    (h : start + len ≤ len') :
    (x.extractLsb' start' len').extractLsb' start len = x.extractLsb' (start' + start) len := by
  ext i hi
  have hlt : start + i < len' := by omega
  simp [hlt, Nat.add_assoc]

theorem getLsbD_eq_of_extractLsb'_eq {w start len i : ℕ} {x y : BitVec w}
    (h : x.extractLsb' start len = y.extractLsb' start len) (hs : start ≤ i)
    (hi : i < start + len) : x.getLsbD i = y.getLsbD i := by
  have hbit := congrArg (fun z => z.getLsbD (i - start)) h
  have hlt : i - start < len := by omega
  simpa [hlt, Nat.add_sub_cancel' hs] using hbit

namespace SdramReq

variable (q : SdramReq)

theorem place_bank : (place (q.addr.extractLsb' 2 23)).1 = q.curBank :=
  extractLsb'_extractLsb' _ (by decide)

theorem place_row : (place (q.addr.extractLsb' 2 23)).2.1 = q.curRow := by
  simp only [place, curRow]
  rw [extractLsb'_extractLsb' _ (by decide), extractLsb'_extractLsb' _ (by decide)]

theorem place_col (k : Bool) :
    (place (q.addr.extractLsb' 2 23)).2.2 = (q.col k).extractLsb' 1 8 := by
  simp only [place]
  rw [extractLsb'_extractLsb' _ (by decide)]
  ext i hi
  cases k
  · simp [col, colAp]
    grind
  · simp [col, colKo]
    grind

/-- No two words share a place. -/
theorem place_injective : Function.Injective place := by
  intro w w' h
  simp only [place, Prod.mk.injEq] at h
  obtain ⟨hb, hr, hc⟩ := h
  have hhi : w.extractLsb' 21 2 = w'.extractLsb' 21 2 :=
    BitVec.extractLsb'_append_eq_left.symm.trans
      ((congrArg (BitVec.extractLsb' 11 2) hr).trans BitVec.extractLsb'_append_eq_left)
  have hlo : w.extractLsb' 8 11 = w'.extractLsb' 8 11 :=
    BitVec.extractLsb'_append_eq_right.symm.trans
      ((congrArg (BitVec.extractLsb' 0 11) hr).trans BitVec.extractLsb'_append_eq_right)
  apply BitVec.eq_of_getLsbD_eq
  intro i hi
  rcases Nat.lt_or_ge i 8 with h8 | h8
  · exact getLsbD_eq_of_extractLsb'_eq hc (by omega) (by omega)
  rcases Nat.lt_or_ge i 19 with h19 | h19
  · exact getLsbD_eq_of_extractLsb'_eq hlo (by omega) (by omega)
  rcases Nat.lt_or_ge i 21 with h21 | h21
  · exact getLsbD_eq_of_extractLsb'_eq hb (by omega) (by omega)
  · exact getLsbD_eq_of_extractLsb'_eq hhi (by omega) (by omega)

end SdramReq

/-- **The first SDRAM controller serves its requests.**  For timing that fits into the wait
counter, either policy, and every requester that holds its requests, over the whole run from
reset: the commands are legal and far enough apart, every request is answered by one ready pulse
for one column command, at a place that no other word has, and a write drives its word. -/
theorem sdram_requests_served {p : SdramParams} (hp : p.Fits) {inp : ℕ → SdramIn}
    (hq : SdramCtrl.Held p inp) (d : Banks (BitVec 2) (BitVec 13)) :
    Function.Injective SdramReq.place ∧ SdramCtrl.Correct p inp d := by
  refine ⟨SdramReq.place_injective, ?_⟩
  have htog := SdramCtrl.toggles hq
  constructor
  case legal => exact fun n => (SdramCtrl.kept_run hq n).1.legal
  case spaced =>
    intro m n hmn hm hn
    obtain ⟨m, rfl⟩ : ∃ i, m = i + 1 := by
      cases m with
      | zero => exact absurd rfl hm
      | succ m => exact ⟨m, rfl⟩
    obtain ⟨r, hgap, hsilent⟩ := SdramCtrl.run_gap hp hm
    have hr : r < n := by
      by_contra hge
      exact hn (hsilent n hmn (by omega))
    omega
  case answered =>
    intro m hm
    obtain ⟨i, rfl⟩ : ∃ i, m = i + 1 := by
      cases m with
      | zero => exact absurd hm Bool.false_ne_true
      | succ m => exact ⟨m, rfl⟩
    obtain ⟨r, -, hlt, -, hready⟩ := SdramCtrl.run_column hp hm
    -- The first ready pulse after the command.
    have hex : ∃ n, i + 1 < n ∧ (SdramCtrl.run p inp n).ready = true := ⟨r, hlt, hready⟩
    classical
    refine ⟨Nat.find hex, (Nat.find_spec hex).1, (Nat.find_spec hex).2, fun k hk hk' => ?_⟩
    rcases Nat.lt_or_ge (i + 1) k with hlt' | hge
    · by_contra hrk
      exact Nat.find_min hex hk' ⟨hlt', by simpa using hrk⟩
    · obtain rfl : k = i + 1 := by omega
      by_contra hrk
      exact htog.not_of_clear (by simpa using hrk) (htog.of_set hm)
  case once =>
    intro n hn
    simpa only [Bool.not_eq_true] using htog.existsUnique_set hn
  case request => exact fun m n hm hmn hno => SdramCtrl.req_of_isColumn hq hm hmn hno
  case kind => exact fun n hn => SdramCtrl.kind_of_isColumn hq hn
  case place =>
    intro n hn
    obtain ⟨hba, hsaddr⟩ := SdramCtrl.pins_of_isColumn hq hn
    rw [SdramCtrl.row_of_isColumn hq hn, hba, hsaddr, SdramReq.place_bank, SdramReq.place_row,
      SdramReq.place_col _ p.keepOpen]
  case words => exact fun n hn hw => SdramCtrl.words_of_write hq hn hw

/-- The parameters at 64 MHz. -/
def defaultSdramParams : SdramParams where
  sdramClkFreq := 64
  trpNs := 15
  trcdNs := 15
  tchNs := 2
  cas := 2#3
  trfcNs := 66
  twrNs := 15
  trefiNs := 7800
  refCreditsMax := 8
  refForceThresh := 4
  refSoftThresh := 1
  keepOpen := true
  readExtraCyc := 0

/-- A word written over and over. -/
theorem sdram_requests_served_writes :
    Function.Injective SdramReq.place ∧
      SdramCtrl.Correct defaultSdramParams
        (fun _ => ⟨⟨true, 0x123456#25, 0xf#4, 0xdeadbeef#32⟩, 0#16⟩) Banks.closed :=
  sdram_requests_served (by constructor <;> decide) (fun _ _ _ => rfl) Banks.closed

end KianRiscV
