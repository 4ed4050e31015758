/-
# The configurable SDRAM controller

`mt48lc16m16a2_ctrl.v` of LinuxSoC_v2: the state machine of `SdramCore` with its settings in
registers that can be written in any cycle, also while an access is under way.

The record of open rows is only kept under the keep-open policy.  `reconfigured_legal` shows
that the commands stay legal in every run in which the policy goes with the record, and
`act_on_open_bank` a switch of the policy after which they do not.
-/
import KianRiscV.SdramLegal

namespace KianRiscV

open Sdram

/-! ## The configuration registers -/

/-- The registers behind `cfg_wr` and `cfg_rd`. -/
structure SdramRegs where
  timTrpCyc : BitVec 16
  timTrcdCyc : BitVec 16
  timTmrdCyc : BitVec 16
  timTrfcCyc : BitVec 16
  timTwrCyc : BitVec 16
  timTdalCyc : BitVec 16
  timTrefiCyc : BitVec 16
  capCasLat : BitVec 3
  polKeepOpen : Bool
  capReadNegedge : Bool
  capReadExtraCyc : BitVec 4
  refCreditsMax : BitVec 4
  refForceThresh : BitVec 4
  refSoftThresh : BitVec 4
  ctlMrsPulse : Bool
  ctlReinitPulse : Bool

namespace SdramRegs

variable (r : SdramRegs)

/-- `cfg_wr` of `data` to the register `addr`. -/
def cfgWrite (addr : BitVec 6) (data : Word) : SdramRegs :=
  let w : BitVec 16 := data.extractLsb' 0 16
  if addr = 0x00#6 then { r with timTrpCyc := w }
  else if addr = 0x01#6 then { r with timTrcdCyc := w }
  else if addr = 0x02#6 then { r with timTmrdCyc := if w < 2#16 then 2#16 else w }
  else if addr = 0x03#6 then { r with timTrfcCyc := w }
  else if addr = 0x04#6 then { r with timTwrCyc := w }
  else if addr = 0x05#6 then { r with timTdalCyc := w }
  else if addr = 0x06#6 then { r with timTrefiCyc := w }
  else if addr = 0x07#6 then { r with capCasLat := data.extractLsb' 0 3, ctlMrsPulse := true }
  else if addr = 0x08#6 then { r with polKeepOpen := data.getLsbD 0 }
  else if addr = 0x09#6 then { r with capReadNegedge := data.getLsbD 0 }
  else if addr = 0x0A#6 then { r with capReadExtraCyc := data.extractLsb' 0 4 }
  else if addr = 0x0B#6 then { r with refCreditsMax := data.extractLsb' 0 4 }
  else if addr = 0x0C#6 then { r with refForceThresh := data.extractLsb' 0 4 }
  else if addr = 0x0D#6 then { r with refSoftThresh := data.extractLsb' 0 4 }
  else if addr = 0x10#6 then
    { r with
      ctlMrsPulse := r.ctlMrsPulse || data.getLsbD 0
      ctlReinitPulse := r.ctlReinitPulse || data.getLsbD 1 }
  else r

/-- The word `cfg_rd` finds at `addr`. -/
def cfgRead (initDone : Bool) (addr : BitVec 6) : Word :=
  if addr = 0x00#6 then r.timTrpCyc.setWidth 32
  else if addr = 0x01#6 then r.timTrcdCyc.setWidth 32
  else if addr = 0x02#6 then r.timTmrdCyc.setWidth 32
  else if addr = 0x03#6 then r.timTrfcCyc.setWidth 32
  else if addr = 0x04#6 then r.timTwrCyc.setWidth 32
  else if addr = 0x05#6 then r.timTdalCyc.setWidth 32
  else if addr = 0x06#6 then r.timTrefiCyc.setWidth 32
  else if addr = 0x07#6 then r.capCasLat.setWidth 32
  else if addr = 0x08#6 then (BitVec.ofBool r.polKeepOpen).setWidth 32
  else if addr = 0x09#6 then (BitVec.ofBool r.capReadNegedge).setWidth 32
  else if addr = 0x0A#6 then r.capReadExtraCyc.setWidth 32
  else if addr = 0x0B#6 then r.refCreditsMax.setWidth 32
  else if addr = 0x0C#6 then r.refForceThresh.setWidth 32
  else if addr = 0x0D#6 then r.refSoftThresh.setWidth 32
  else if addr = 0x11#6 then (BitVec.ofBool initDone).setWidth 32
  else 0#32

/-- Only register 8 is the policy. -/
theorem cfgWrite_polKeepOpen (data : Word) {addr : BitVec 6} (h : addr ≠ 0x08#6) :
    (r.cfgWrite addr data).polKeepOpen = r.polKeepOpen := by
  let P : SdramRegs → Prop := fun r' => r'.polKeepOpen = r.polKeepOpen
  show P (r.cfgWrite addr data)
  unfold cfgWrite
  repeat' refine iteInduction (motive := P) (fun _ => ?_) (fun _ => ?_)
  all_goals first | rfl | exact absurd ‹addr = 0x08#6› h

/-- The settings of a cycle; `wait200us` stays a parameter. -/
def settings (wait200us : BitVec 16) : SdramSettings where
  wait200us := wait200us
  trp := r.timTrpCyc
  trcd := r.timTrcdCyc
  tmrd := r.timTmrdCyc
  trfc := r.timTrfcCyc
  twr := r.timTwrCyc
  tdal := r.timTdalCyc
  trefi := r.timTrefiCyc
  readWait := r.capCasLat.setWidth 16 + r.capReadExtraCyc.setWidth 16
  modeReg := SdramParams.modeReg r.capCasLat
  keepOpen := r.polKeepOpen
  creditsMax := r.refCreditsMax
  forceThresh := r.refForceThresh
  softThresh := r.refSoftThresh
  creditSaturates := true
  reinit := r.ctlReinitPulse
  loadMode := r.ctlMrsPulse

/-- The registers after reset, from the parameters; `negedge` is `READ_NEGEDGE_DFLT`. -/
def resetState (p : SdramParams) (negedge : Bool) : SdramRegs where
  timTrpCyc := BitVec.ofNat 16 p.trpCyc
  timTrcdCyc := BitVec.ofNat 16 p.trcdCyc
  timTmrdCyc := BitVec.ofNat 16 p.tchCyc
  timTrfcCyc := BitVec.ofNat 16 p.trfcCyc
  timTwrCyc := BitVec.ofNat 16 p.twrCyc
  timTdalCyc := BitVec.ofNat 16 p.tdalCyc
  timTrefiCyc := BitVec.ofNat 16 p.trefiCyc
  capCasLat := p.cas
  polKeepOpen := p.keepOpen
  capReadNegedge := negedge
  capReadExtraCyc := BitVec.ofNat 4 p.readExtraCyc
  refCreditsMax := BitVec.ofNat 4 p.refCreditsMax
  refForceThresh := BitVec.ofNat 4 p.refForceThresh
  refSoftThresh := BitVec.ofNat 4 p.refSoftThresh
  ctlMrsPulse := false
  ctlReinitPulse := false

end SdramRegs

/-! ## The controller -/

/-- The registers of the controller. -/
structure SdramV2 where
  core : SdramCore
  regs : SdramRegs
  initDone : Bool
  cfgRdata : Word
  cfgDone : Bool

/-- What comes in a cycle: the request, the configuration port, and the data lines as they are
and as they were captured at the falling edge. -/
structure SdramV2In where
  req : SdramReq
  cfgWr : Bool
  cfgRd : Bool
  cfgAddr : BitVec 6
  cfgWdata : Word
  sdramDqIn : BitVec 16
  dqNegedge : BitVec 16

namespace SdramV2

section

variable (wait200us : BitVec 16) (s : SdramV2) (i : SdramV2In)

/-- The settings of the cycle. -/
def settings : SdramSettings := s.regs.settings wait200us

/-- `dq_rd`. -/
def dqRd : BitVec 16 := if s.regs.capReadNegedge then i.dqNegedge else i.sdramDqIn

/-- The registers after the edge: `IDLE` takes back the request it follows, whatever is written
in the same cycle. -/
def regsNext : SdramRegs :=
  let r := if i.cfgWr then s.regs.cfgWrite i.cfgAddr i.cfgWdata else s.regs
  if s.core.state = .idle then
    if s.regs.ctlReinitPulse then { r with ctlReinitPulse := false }
    else if s.regs.ctlMrsPulse then { r with ctlMrsPulse := false }
    else r
  else r

/-- One clock edge. -/
def next : SdramV2 where
  core := s.core.next (s.settings wait200us) i.req (s.dqRd i)
  regs := s.regsNext i
  initDone := s.initDone || s.core.state == .idle
  cfgRdata := if i.cfgRd then s.regs.cfgRead s.initDone i.cfgAddr else s.cfgRdata
  cfgDone := i.cfgWr || i.cfgRd

end

/-- The registers after reset. -/
def resetState (p : SdramParams) (negedge : Bool) : SdramV2 where
  core := SdramCore.resetState (BitVec.ofNat 16 p.trefiCyc)
  regs := SdramRegs.resetState p negedge
  initDone := false
  cfgRdata := 0#32
  cfgDone := false

section

variable (p : SdramParams) (negedge : Bool) (inp : ℕ → SdramV2In) (n : ℕ)

/-- The state after `n` cycles. -/
def run : SdramV2 :=
  Sync.run (next (BitVec.ofNat 16 p.wait200us)) (resetState p negedge) inp n

/-- The banks of the device after the command on the pins in cycle `n`, from any banks `d`. -/
def device (d : Banks (BitVec 2) (BitVec 13)) : ℕ → Banks (BitVec 2) (BitVec 13)
  | 0 => d
  | n + 1 => (device d n).step (run p negedge inp (n + 1)).core.pins.decode

/-- Requests are held until they are answered. -/
def Held : Prop :=
  ∀ n, (inp n).req.valid = true → (run p negedge inp n).core.ready = false →
    (inp (n + 1)).req = (inp n).req

/-- In cycle `n` the policy goes with the record of open rows. -/
def SteadyAt : Prop :=
  SdramCore.Steady ((run p negedge inp n).settings (BitVec.ofNat 16 p.wait200us))
    (run p negedge inp n).core (inp n).req

end

variable {p : SdramParams} {negedge : Bool} {inp : ℕ → SdramV2In}
  {d : Banks (BitVec 2) (BitVec 13)}

theorem kept_run (hq : Held p negedge inp) {n : ℕ}
    (hsteady : ∀ m, m < n → SteadyAt p negedge inp m) :
    (run p negedge inp n).core.Kept (inp n).req (device p negedge inp d n) := by
  induction n with
  | zero => constructor <;> simp [run, resetState, SdramCore.resetState, SdramCore.RowsAt,
      SdramCore.pos, SdramCore.busy]
  | succ n ih =>
    exact (ih fun m hm => hsteady m (by omega)).next (hsteady n (Nat.lt_succ_self n)) (hq n)

/-- The policy stays as long as it is not written. -/
theorem regsNext_polKeepOpen {s : SdramV2} {i : SdramV2In}
    (h : i.cfgWr = true → i.cfgAddr ≠ 0x08#6) :
    (s.regsNext i).polKeepOpen = s.regs.polKeepOpen := by
  have hw : (if i.cfgWr then s.regs.cfgWrite i.cfgAddr i.cfgWdata else s.regs).polKeepOpen =
      s.regs.polKeepOpen := by
    split
    · exact SdramRegs.cfgWrite_polKeepOpen _ _ (h ‹_›)
    · rfl
  unfold regsNext
  generalize (if i.cfgWr then s.regs.cfgWrite i.cfgAddr i.cfgWdata else s.regs) = r at hw ⊢
  dsimp only
  split_ifs <;> exact hw

/-- A run without a write to the policy is steady. -/
theorem steadyAt_of_not_written (hq : Held p negedge inp) {n : ℕ}
    (hpol : ∀ m, m < n → (inp m).cfgWr = true → (inp m).cfgAddr ≠ 0x08#6) :
    ∀ m, m ≤ n → SteadyAt p negedge inp m := by
  have hone : ∀ m, m ≤ n → (run p negedge inp m).regs.polKeepOpen = p.keepOpen ∧
      (run p negedge inp m).core.OnePolicy p.keepOpen (inp m).req ∧
      (run p negedge inp m).core.Kept (inp m).req (device p negedge inp Banks.closed m) := by
    intro m
    induction m with
    | zero =>
      intro _
      refine ⟨rfl, ⟨?_, fun _ => rfl⟩, kept_run hq fun m hm => absurd hm (Nat.not_lt_zero m)⟩
      simp [run, resetState, SdramCore.resetState, SdramCore.pos]
    | succ m ih =>
      intro hm
      obtain ⟨hk, hp, hkept⟩ := ih (by omega)
      have hpol' : ((run p negedge inp m).settings (BitVec.ofNat 16 p.wait200us)).keepOpen =
          p.keepOpen := hk
      rw [← hpol'] at hp
      refine ⟨(regsNext_polKeepOpen (hpol m (by omega))).trans hk, ?_, ?_⟩
      · rw [← hpol']
        exact hp.next hkept (hq m)
      · exact hkept.next hp.steady (hq m)
  intro m hm
  obtain ⟨hk, hp, -⟩ := hone m hm
  have hpol' : ((run p negedge inp m).settings (BitVec.ofNat 16 p.wait200us)).keepOpen =
      p.keepOpen := hk
  rw [← hpol'] at hp
  exact hp.steady

/-- One edge of controller and device. -/
def nextWithDevice (wait200us : BitVec 16) (s : SdramV2 × Banks (BitVec 2) (BitVec 13))
    (i : SdramV2In) : SdramV2 × Banks (BitVec 2) (BitVec 13) :=
  (s.1.next wait200us i, s.2.step (s.1.next wait200us i).core.pins.decode)

/-- Controller and device as one circuit. -/
theorem device_eq_run (p : SdramParams) (negedge : Bool) (inp : ℕ → SdramV2In)
    (d : Banks (BitVec 2) (BitVec 13)) (n : ℕ) :
    device p negedge inp d n = (Sync.run (nextWithDevice (BitVec.ofNat 16 p.wait200us))
      (resetState p negedge, d) inp n).2 := by
  have hrun : ∀ n, Sync.run (nextWithDevice (BitVec.ofNat 16 p.wait200us))
      (resetState p negedge, d) inp n = (run p negedge inp n, device p negedge inp d n) := by
    intro n
    induction n with
    | zero => rfl
    | succ n ih =>
      rw [Sync.run_succ, ih]
      rfl
  rw [hrun]

end SdramV2

/-- **Legal under reconfiguration.**  In every run from reset, with requests held until they are
answered and any configuration writes in between: as long as a request is accepted under the
closed-page policy only for a bank that is not on record as open, and every column command is
issued under the policy under which its row was opened, every command finds the banks of the
device as it requires. -/
theorem reconfigured_legal {p : SdramParams} {negedge : Bool} {inp : ℕ → SdramV2In}
    (d : Banks (BitVec 2) (BitVec 13)) (hq : SdramV2.Held p negedge inp) (n : ℕ)
    (hsteady : ∀ m, m < n → SdramV2.SteadyAt p negedge inp m) :
    (SdramV2.device p negedge inp d n).Legal (inp n).req.curRow
      (SdramV2.run p negedge inp (n + 1)).core.pins.decode :=
  (SdramV2.kept_run hq hsteady).legal

/-- A clock of 1 MHz, and a long refresh interval. -/
def slowParams : SdramParams where
  sdramClkFreq := 1
  trpNs := 15
  trcdNs := 15
  tchNs := 2
  cas := 2#3
  trfcNs := 66
  twrNs := 15
  trefiNs := 60000000
  refCreditsMax := 8
  refForceThresh := 4
  refSoftThresh := 1
  keepOpen := true
  readExtraCyc := 0

/-- A read of row 0, then `pol_keep_open` is cleared, then a read of row 1 of the same bank. -/
def switchInputs (n : ℕ) : SdramV2In :=
  if n ≤ 224 then ⟨⟨true, 0x0#25, 0#4, 0#32⟩, false, false, 0#6, 0#32, 0#16, 0#16⟩
  else if n = 225 then ⟨⟨false, 0x0#25, 0#4, 0#32⟩, true, false, 0x08#6, 0#32, 0#16, 0#16⟩
  else ⟨⟨true, 0x400#25, 0#4, 0#32⟩, false, false, 0#6, 0#32, 0#16, 0#16⟩

theorem switchInputs_held : SdramV2.Held slowParams true switchInputs := by
  intro n hv hr
  rcases Nat.lt_trichotomy n 224 with h | rfl | h
  · simp [switchInputs, show n ≤ 224 by omega, show n + 1 ≤ 224 by omega]
  · exact absurd hr (by decide +kernel)
  · rcases Nat.lt_trichotomy n 225 with h' | rfl | h'
    · omega
    · exact absurd hv (by decide)
    · simp [switchInputs, show ¬ n ≤ 224 by omega, show ¬ n + 1 ≤ 224 by omega,
        show n ≠ 225 by omega, show n + 1 ≠ 225 by omega]

/-- The row-to-column delay is set to five cycles, then row 0 is read. -/
def slowRowInputs (n : ℕ) : SdramV2In :=
  if n = 0 then ⟨⟨false, 0x0#25, 0#4, 0#32⟩, true, false, 0x01#6, 5#32, 0#16, 0#16⟩
  else ⟨⟨true, 0x0#25, 0#4, 0#32⟩, false, false, 0#6, 0#32, 0#16, 0#16⟩

theorem slowRowInputs_held : SdramV2.Held slowParams true slowRowInputs := by
  intro n hv _
  cases n with
  | zero => exact absurd hv (by decide)
  | succ n => rfl

/-- The first read after the write finds its row open. -/
theorem reconfigured_legal_first_read :
    (SdramV2.run slowParams true slowRowInputs 221).regs.timTrcdCyc = 5#16 ∧
      (SdramV2.run slowParams true slowRowInputs (221 + 1)).core.pins.decode = .read 0#2 false ∧
      SdramV2.device slowParams true slowRowInputs Banks.closed 221 0#2 =
        some (slowRowInputs 221).req.curRow := by
  have hsteady : ∀ m, m < 221 → SdramV2.SteadyAt slowParams true slowRowInputs m := by
    intro m hm
    refine SdramV2.steadyAt_of_not_written (n := 221) slowRowInputs_held (fun k hk hw => ?_) m hm.le
    cases k with
    | zero => decide
    | succ k => exact absurd hw (by simp [slowRowInputs])
  have hread : (SdramV2.run slowParams true slowRowInputs (221 + 1)).core.pins.decode =
      .read 0#2 false := by
    decide +kernel
  -- With a variable for the cycle, so that the run is not evaluated.
  have hrow : ∀ n, (∀ m, m < n → SdramV2.SteadyAt slowParams true slowRowInputs m) →
      (SdramV2.run slowParams true slowRowInputs (n + 1)).core.pins.decode = .read 0#2 false →
      SdramV2.device slowParams true slowRowInputs Banks.closed n 0#2 =
        some (slowRowInputs n).req.curRow := by
    intro n hs hr
    have hlegal := reconfigured_legal Banks.closed slowRowInputs_held n hs
    rwa [hr] at hlegal
  exact ⟨by decide +kernel, hread, hrow 221 hsteady hread⟩

/-- After the switch, `ACT` goes to a bank whose row is open. -/
theorem act_on_open_bank :
    SdramV2.Held slowParams true switchInputs ∧
      (SdramV2.run slowParams true switchInputs 228).core.pins.decode = .act 0#2 1#13 ∧
      SdramV2.device slowParams true switchInputs Banks.closed 227 0#2 = some 0#13 ∧
      ¬ (SdramV2.device slowParams true switchInputs Banks.closed 227).Legal
        (switchInputs 227).req.curRow
        (SdramV2.run slowParams true switchInputs 228).core.pins.decode := by
  have hact : (SdramV2.run slowParams true switchInputs 228).core.pins.decode = .act 0#2 1#13 := by
    decide +kernel
  have hopen : SdramV2.device slowParams true switchInputs Banks.closed 227 0#2 = some 0#13 := by
    rw [SdramV2.device_eq_run]
    decide +kernel
  refine ⟨switchInputs_held, hact, hopen, ?_⟩
  rw [hact]
  exact Banks.not_legal_act hopen

end KianRiscV
