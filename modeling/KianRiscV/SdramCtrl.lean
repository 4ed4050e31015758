/-
# The SDRAM controllers for the MT48LC16M16A2

The two versions of `mt48lc16m16a2_ctrl.v` have the same state machine.  That of the first
SoC has its timing, its policy and its mode register as parameters; that of LinuxSoC_v2 has
them in registers, and may be asked to load the mode register or to start over.  `SdramCore`
is the state machine under the settings of one cycle; `SdramCtrl` is the first version.
-/
import KianRiscV.SdramDevice
import KianRiscV.Instruction
import KianRiscV.SyncRun

namespace KianRiscV

/-! ## Commands and pins -/

/-- The commands that are driven, by their encodings of `{CS, RAS, CAS, WE}`. -/
inductive SdramCmd
  | mrs | act | read | write | pre | ref | nop
  deriving DecidableEq, Repr

/-- The outputs to the device: command, bank, address, mask and data. -/
structure SdramPins where
  command : SdramCmd
  ba : BitVec 2
  saddr : BitVec 13
  dqm : BitVec 2
  dq : BitVec 16
  oe : Bool
  deriving DecidableEq, Repr

/-- The command as the device takes it: `A10` selects all banks or the automatic precharge. -/
def SdramPins.decode (x : SdramPins) : Sdram.Command (BitVec 2) (BitVec 13) :=
  match x.command with
  | .act => .act x.ba x.saddr
  | .read => .read x.ba (x.saddr.getLsbD 10)
  | .write => .write x.ba (x.saddr.getLsbD 10)
  | .pre => if x.saddr.getLsbD 10 then .preAll else .pre x.ba
  | .ref => .ref
  | .mrs => .mrs
  | .nop => .nop

/-! ## Requests -/

/-- A request: `valid`, `addr`, `wmask` and `din`. -/
structure SdramReq where
  valid : Bool
  addr : BitVec 25
  wmask : BitVec 4
  din : Word
  deriving DecidableEq, Repr

namespace SdramReq

variable (q : SdramReq)

/-- `cur_bank_w`. -/
def curBank : BitVec 2 := q.addr.extractLsb' 21 2

/-- `cur_row_w`. -/
def curRow : BitVec 13 := q.addr.extractLsb' 23 2 ++ q.addr.extractLsb' 10 11

/-- `col_ap`: automatic precharge. -/
def colAp : BitVec 13 := 0b001#3 ++ q.addr.extractLsb' 2 9 ++ 0#1

/-- `col_ko`: the row is kept open. -/
def colKo : BitVec 13 := 0b000#3 ++ q.addr.extractLsb' 2 9 ++ 0#1

/-- The column address under a policy. -/
def col (keepOpen : Bool) : BitVec 13 := if keepOpen then q.colKo else q.colAp

end SdramReq

/-! ## The state machine -/

/-- The states, in the order of their encodings. -/
inductive SdramState
  | reset | assertCke | initPreAll | initRef0 | initRef1 | initMrs | idle | activate | preBank
  | preAll | refresh | readCmd | readL | readH | writeL | writeH | waitState
  deriving DecidableEq, Repr

/-- The settings of a cycle: cycle counts, policy, mode register and refresh scheduling, and
the two requests `ctl_reinit_pulse` and `ctl_mrs_pulse` of the second version.
`creditSaturates` says that a refresh started in `IDLE` does not take a credit from zero. -/
structure SdramSettings where
  wait200us : BitVec 16
  trp : BitVec 16
  trcd : BitVec 16
  tmrd : BitVec 16
  trfc : BitVec 16
  twr : BitVec 16
  tdal : BitVec 16
  trefi : BitVec 16
  readWait : BitVec 16
  modeReg : BitVec 13
  keepOpen : Bool
  creditsMax : BitVec 4
  forceThresh : BitVec 4
  softThresh : BitVec 4
  creditSaturates : Bool
  reinit : Bool
  loadMode : Bool

/-- The registers of the state machine.  `bankOpen` and `openRow` are `bank_open_valid` and
`open_row0` to `open_row3`. -/
structure SdramCore where
  state : SdramState
  retState : SdramState
  waitCnt : BitVec 16
  ready : Bool
  updateReady : Bool
  dout : Word
  cke : Bool
  pins : SdramPins
  refTimer : BitVec 16
  refCredit : BitVec 4
  bankOpen : BitVec 2 → Bool
  openRow : BitVec 2 → BitVec 13

namespace SdramCore

variable (t : SdramSettings) (c : SdramCore) (q : SdramReq) (dqRd : BitVec 16)

/-- `bank_open_valid != 0`. -/
def anyOpen : Bool := c.bankOpen 0 || c.bankOpen 1 || c.bankOpen 2 || c.bankOpen 3

/-- `same_row_hit`. -/
def sameRowHit : Bool := c.bankOpen q.curBank && c.openRow q.curBank == q.curRow

/-- The address with `A10` set or cleared. -/
def withA10 (saddr : BitVec 13) (b : Bool) : BitVec 13 :=
  saddr.extractLsb' 11 2 ++ BitVec.ofBool b ++ saddr.extractLsb' 0 10

/-- The registers that no state sets: a `NOP`, no ready pulse, and the refresh timer runs. -/
def rest : SdramCore :=
  { c with
    ready := false
    pins := { c.pins with command := .nop, oe := false }
    refTimer := if c.refTimer = 0 then t.trefi else c.refTimer - 1
    refCredit :=
      if c.refTimer = 0 ∧ c.refCredit < t.creditsMax then c.refCredit + 1 else c.refCredit }

/-- A wait of `n` cycles before `st`. -/
def waitFor (d : SdramCore) (n : BitVec 16) (st : SdramState) : SdramCore :=
  { d with waitCnt := n, retState := st, state := .waitState }

/-- `PRE` of all banks, then `st`. -/
def preAllThen (d : SdramCore) (st : SdramState) : SdramCore :=
  waitFor
    { d with
      pins := { d.pins with command := .pre, saddr := withA10 c.pins.saddr true }
      bankOpen := fun _ => false }
    t.trp st

/-- A credit taken, not below zero. -/
def decCredit (credit : BitVec 4) : BitVec 4 := if credit = 0 then 0 else credit - 1

/-- The refresh that `IDLE` starts. -/
def idleRefresh (d : SdramCore) : SdramCore :=
  if c.anyOpen then c.preAllThen t d .refresh
  else
    waitFor
      { d with
        pins := { d.pins with command := .ref }
        refCredit := if t.creditSaturates then decCredit c.refCredit else c.refCredit - 1 }
      t.trfc .idle

/-- The request that `IDLE` accepts. -/
def idleAccept (d : SdramCore) : SdramCore :=
  let d := { d with pins := { d.pins with ba := q.curBank } }
  if t.keepOpen then
    if c.sameRowHit q then { d with state := if q.wmask = 0#4 then .readCmd else .writeL }
    else if c.bankOpen q.curBank then
      waitFor
        { d with
          pins := { d.pins with command := .pre, saddr := withA10 c.pins.saddr false }
          bankOpen := Function.update c.bankOpen q.curBank false }
        t.trp .activate
    else { d with state := .activate }
  else { d with state := .activate }

/-- `IDLE`. -/
def idleNext : SdramCore :=
  let d := c.rest t
  let d := { d with updateReady := false, pins := { d.pins with dqm := 0b11#2 } }
  if t.reinit then
    waitFor { d with cke := false, bankOpen := fun _ => false } t.wait200us .assertCke
  else if t.loadMode then
    if c.anyOpen then c.preAllThen t d .initMrs else { d with state := .initMrs }
  else if t.forceThresh ≤ c.refCredit ∨
      t.softThresh ≤ c.refCredit ∧ (q.valid && !c.ready) = false then
    c.idleRefresh t d
  else if q.valid && !c.ready then c.idleAccept t q d
  else d

/-- One clock edge of the state machine. -/
def next : SdramCore :=
  let d := c.rest t
  match c.state with
  | .reset => waitFor { d with cke := false } t.wait200us .assertCke
  | .assertCke => waitFor { d with cke := true } 2#16 .initPreAll
  | .initPreAll => c.preAllThen t d .initRef0
  | .initRef0 => waitFor { d with pins := { d.pins with command := .ref } } t.trfc .initRef1
  | .initRef1 => waitFor { d with pins := { d.pins with command := .ref } } t.trfc .initMrs
  | .initMrs =>
    waitFor { d with pins := { d.pins with command := .mrs, saddr := t.modeReg } } t.tmrd .idle
  | .idle => c.idleNext t q
  | .activate =>
    waitFor
      { d with
        pins := { d.pins with command := .act, ba := q.curBank, saddr := q.curRow }
        bankOpen := if t.keepOpen then Function.update c.bankOpen q.curBank true else c.bankOpen
        openRow := if t.keepOpen then Function.update c.openRow q.curBank q.curRow
          else c.openRow }
      t.trcd (if q.wmask = 0#4 then .readCmd else .writeL)
  | .readCmd =>
    waitFor
      { d with
        pins := { d.pins with
          command := .read, dqm := 0b00#2, ba := q.curBank, saddr := q.col t.keepOpen } }
      t.readWait .readL
  | .readL =>
    { d with
      pins := { d.pins with dqm := 0b00#2 }
      dout := c.dout.extractLsb' 16 16 ++ dqRd
      state := .readH }
  | .readH =>
    waitFor
      { d with
        pins := { d.pins with dqm := 0b00#2 }
        dout := dqRd ++ c.dout.extractLsb' 0 16
        updateReady := true }
      (if t.keepOpen then 1#16 else t.trp) .idle
  | .writeL =>
    { d with
      pins :=
        { command := .write, ba := q.curBank, saddr := q.col t.keepOpen
          dqm := ~~~(q.wmask.extractLsb' 0 2), dq := q.din.extractLsb' 0 16, oe := true }
      state := .writeH }
  | .writeH =>
    waitFor
      { d with
        pins :=
          { command := .nop, ba := q.curBank, saddr := q.col t.keepOpen
            dqm := ~~~(q.wmask.extractLsb' 2 2), dq := q.din.extractLsb' 16 16, oe := true }
        updateReady := true }
      (if t.keepOpen then t.twr else t.tdal) .idle
  | .preBank =>
    waitFor
      { d with pins := { d.pins with command := .pre, saddr := withA10 c.pins.saddr false } }
      t.trp .idle
  | .preAll =>
    waitFor
      { d with pins := { d.pins with command := .pre, saddr := withA10 c.pins.saddr true } }
      t.trp .idle
  | .refresh =>
    waitFor
      { d with pins := { d.pins with command := .ref }, refCredit := decCredit c.refCredit }
      t.trfc .idle
  | .waitState =>
    let d := { d with waitCnt := c.waitCnt - 1 }
    if c.waitCnt = 1 then
      { d with
        state := c.retState
        updateReady := c.updateReady && c.retState != .idle
        ready := c.updateReady && c.retState == .idle }
    else d

/-- The registers after reset; `trefi` is the refresh interval. -/
def resetState (trefi : BitVec 16) : SdramCore where
  state := .reset
  retState := .reset
  waitCnt := 0
  ready := false
  updateReady := false
  dout := 0
  cke := false
  pins := ⟨.nop, 0, 0, 0b11#2, 0, false⟩
  refTimer := trefi
  refCredit := 0
  bankOpen := fun _ => false
  openRow := fun _ => 0

end SdramCore

/-! ## The first version -/

/-- The parameters of the first `mt48lc16m16a2_ctrl`. -/
structure SdramParams where
  sdramClkFreq : ℕ
  trpNs : ℕ
  trcdNs : ℕ
  tchNs : ℕ
  cas : BitVec 3
  trfcNs : ℕ
  twrNs : ℕ
  trefiNs : ℕ
  refCreditsMax : ℕ
  refForceThresh : ℕ
  refSoftThresh : ℕ
  keepOpen : Bool
  readExtraCyc : ℕ

/-- `ns2cyc`: the cycles of `ns` nanoseconds at `f` megahertz, rounded up, at least one. -/
def ns2cyc (ns f : ℕ) : ℕ := max 1 ((ns * f + 999) / 1000)

namespace SdramParams

variable (p : SdramParams)

/-- `WAIT_200US`. -/
def wait200us : ℕ := 200 * p.sdramClkFreq

/-- `TRP_CYC`. -/
def trpCyc : ℕ := max 2 (ns2cyc p.trpNs p.sdramClkFreq)

/-- `TRCD_CYC`. -/
def trcdCyc : ℕ := max 2 (ns2cyc p.trcdNs p.sdramClkFreq)

/-- `TCH_CYC`, the cycles of tMRD. -/
def tchCyc : ℕ := max 2 (ns2cyc p.tchNs p.sdramClkFreq)

/-- `TRFC_CYC`. -/
def trfcCyc : ℕ := ns2cyc p.trfcNs p.sdramClkFreq

/-- `TWR_CYC`. -/
def twrCyc : ℕ := ns2cyc p.twrNs p.sdramClkFreq

/-- `TDAL_CYC`. -/
def tdalCyc : ℕ := p.twrCyc + p.trpCyc

/-- `TREFI_CYC`. -/
def trefiCyc : ℕ := ns2cyc p.trefiNs p.sdramClkFreq

/-- The wait of `READ_CMD`. -/
def readCyc : ℕ := p.cas.toNat + p.readExtraCyc

/-- The mode register: bursts of two, sequential, with the CAS latency. -/
def modeReg (cas : BitVec 3) : BitVec 13 := 0b00#2 ++ 0b0000#4 ++ cas ++ 0b0#1 ++ 0b001#3

/-- The settings, the same in every cycle. -/
def settings : SdramSettings where
  wait200us := BitVec.ofNat 16 p.wait200us
  trp := BitVec.ofNat 16 p.trpCyc
  trcd := BitVec.ofNat 16 p.trcdCyc
  tmrd := BitVec.ofNat 16 p.tchCyc
  trfc := BitVec.ofNat 16 p.trfcCyc
  twr := BitVec.ofNat 16 p.twrCyc
  tdal := BitVec.ofNat 16 p.tdalCyc
  trefi := BitVec.ofNat 16 p.trefiCyc
  readWait := BitVec.ofNat 16 p.readCyc
  modeReg := modeReg p.cas
  keepOpen := p.keepOpen
  creditsMax := BitVec.ofNat 4 p.refCreditsMax
  forceThresh := BitVec.ofNat 4 p.refForceThresh
  softThresh := BitVec.ofNat 4 p.refSoftThresh
  creditSaturates := false
  reinit := false
  loadMode := false

/-- Positive timing whose cycle counts fit into the 16 bits of the wait counter, and a CAS
latency of two or three. -/
structure Fits : Prop where
  positive : 0 < p.sdramClkFreq ∧ 0 < p.trpNs ∧ 0 < p.trcdNs ∧ 0 < p.tchNs ∧ 0 < p.trfcNs ∧
    0 < p.twrNs ∧ 0 < p.trefiNs
  cas : p.cas = 2#3 ∨ p.cas = 3#3
  wait200us : p.wait200us < 2 ^ 16
  trp : p.trpCyc < 2 ^ 16
  trcd : p.trcdCyc < 2 ^ 16
  tch : p.tchCyc < 2 ^ 16
  trfc : p.trfcCyc < 2 ^ 16
  tdal : p.tdalCyc < 2 ^ 16
  trefi : p.trefiCyc < 2 ^ 16
  read : p.readCyc < 2 ^ 16

end SdramParams

/-- What comes in a cycle: the request, and `dq_rd` captured from the device. -/
structure SdramIn where
  req : SdramReq
  dqRd : BitVec 16

namespace SdramCtrl

/-- The state after `n` cycles from reset. -/
def run (p : SdramParams) (inp : ℕ → SdramIn) (n : ℕ) : SdramCore :=
  Sync.run (fun c i => SdramCore.next p.settings c i.req i.dqRd)
    (SdramCore.resetState p.settings.trefi) inp n

end SdramCtrl

end KianRiscV
