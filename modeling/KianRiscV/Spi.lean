/-
# The SPI controllers

`spi.v` of both SoCs.  A data write loads the shift register and the count of bits; in `S_XFER`
the clock is toggled at every tick, a bit is sampled when it rises and the next one put out when
it falls.  The two versions differ in the divider and in where the clock returns to its idle
level; one definition with the version as a parameter serves for both.

A write that comes in the cycle in which the count has reached zero but the state is still
`S_XFER` is accepted, but the state goes to `S_IDLE` nevertheless: the count then stays at eight
for ever (`Spi.next_clash`).
-/
import KianRiscV.Instruction
import KianRiscV.SyncRun

namespace KianRiscV

/-! ## The model -/

/-- The SoC a controller belongs to. -/
inductive SpiVersion
  | first | second
  deriving DecidableEq, Repr

/-- `S_IDLE` and `S_XFER`. -/
inductive SpiState
  | idle | xfer
  deriving DecidableEq, Repr

/-- The registers of `spi`.  `spiBuf` is `shreg` in the second version. -/
structure Spi where
  state : SpiState
  xferCycles : BitVec 6
  spiBuf : BitVec 8
  rxData : Word
  spiCen : Bool
  tickCnt : BitVec 18
  sclk : Bool
  mosi : Bool
  ready : Bool

/-- The bus, the divisor and `miso`. -/
structure SpiIn where
  ctrl : Bool
  valid : Bool
  wdata : Word
  wstrb : BitVec 4
  div : BitVec 16
  miso : Bool

/-- A write to the data register is on the bus. -/
def SpiIn.offers (i : SpiIn) : Bool := i.valid && i.ctrl && i.wstrb.getLsbD 0

namespace Spi

variable (v : SpiVersion) (cpol : Bool) (s : Spi) (i : SpiIn)

/-- `in_xfer`. -/
def inXfer : Bool := s.xferCycles != 0#6

/-- `tick`.  In the first version the difference has 32 bits, so that there is no tick with a
divisor of zero. -/
def tick : Bool :=
  match v with
  | .first => s.tickCnt.setWidth 32 == i.div.setWidth 32 - 1#32
  | .second => s.tickCnt == (if i.div = 0#16 then 1#18 else i.div.setWidth 18) - 1#18

/-- The clock is toggled. -/
def toggles : Bool :=
  match v with
  | .first => s.inXfer && (s.tick .first i || i.div == 0#16)
  | .second => s.inXfer && s.tick .second i

/-- `rdata`. -/
def rdata : Word :=
  if i.ctrl then s.rxData
  else BitVec.ofBool s.inXfer ++ 0#30 ++ BitVec.ofBool s.spiCen

/-- `ctrl_access`. -/
def ctrlAccess : Bool := i.valid && !i.ctrl

/-- `data_write`. -/
def dataWrite : Bool := i.offers && !s.inXfer

/-- `data_read`. -/
def dataRead : Bool := i.valid && i.ctrl && !i.wstrb.getLsbD 0

/-- `accept`. -/
def accept : Bool := ctrlAccess i || s.dataWrite i || dataRead i

/-- The assignments for an access to the bus. -/
def access : Spi :=
  let d := { s with ready := s.accept i }
  let d := if ctrlAccess i && i.wstrb.getLsbD 0 then { d with spiCen := !i.wdata.getLsbD 0 } else d
  if s.dataWrite i then
    { d with
      spiBuf := i.wdata.extractLsb' 0 8
      xferCycles := 8#6
      state := .xfer
      mosi := i.wdata.getLsbD 7
      sclk := match v with
        | .first => s.sclk
        | .second => cpol }
  else d

/-- The assignments of the transfer, which come last and win. -/
def transfer (d : Spi) : Spi :=
  match s.state with
  | .idle => { d with sclk := cpol }
  | .xfer =>
    if s.toggles v i then
      if s.sclk then { d with sclk := !s.sclk, mosi := s.spiBuf.getLsbD 7 }
      else
        { d with
          sclk := !s.sclk
          spiBuf := s.spiBuf.extractLsb' 0 7 ++ BitVec.ofBool i.miso
          xferCycles := s.xferCycles - 1#6 }
    else if !s.inXfer then
      { d with
        rxData := 0#24 ++ s.spiBuf
        state := .idle
        mosi := false
        sclk := match v with
          | .first => d.sclk
          | .second => cpol }
    else d

/-- One clock edge. -/
def next : Spi :=
  { s.transfer v cpol i (s.access v cpol i) with
    tickCnt := if s.tick v i || !s.inXfer then 0#18 else s.tickCnt + 1#18 }

/-- The registers after reset. -/
def resetState : Spi where
  state := .idle
  xferCycles := 0
  spiBuf := 0
  rxData := 0
  spiCen := true
  tickCnt := 0
  sclk := cpol
  mosi := false
  ready := false

/-- The registers `n` cycles after reset. -/
def after (inp : ℕ → SpiIn) (n : ℕ) : Spi := Sync.run (next v cpol) (resetState cpol) inp n

/-! ## One clock edge -/

section

variable {v cpol s i}

/-- The registers that matter to a transfer are as they were. -/
structure Same (s s' : Spi) : Prop where
  state : s'.state = s.state
  count : s'.xferCycles = s.xferCycles
  buf : s'.spiBuf = s.spiBuf
  sclk : s'.sclk = s.sclk
  mosi : s'.mosi = s.mosi

theorem dataWrite_eq_false (hx : s.inXfer = true) : s.dataWrite i = false := by
  simp [dataWrite, hx]

/-- The fields that an access without a data write leaves alone. -/
theorem access_same (v : SpiVersion) (cpol : Bool) (h : s.dataWrite i = false) :
    Same s (s.access v cpol i) ∧ (s.access v cpol i).rxData = s.rxData := by
  unfold access
  simp only [h, Bool.false_eq_true, if_false]
  split
  · exact ⟨⟨rfl, rfl, rfl, rfl, rfl⟩, rfl⟩
  · exact ⟨⟨rfl, rfl, rfl, rfl, rfl⟩, rfl⟩

theorem tick_eq_false (hx : s.inXfer = true) (ht : s.toggles v i = false) :
    s.tick v i = false := by
  cases v with
  | first =>
    simp only [toggles, hx, Bool.true_and, Bool.or_eq_false_iff] at ht
    exact ht.1
  | second =>
    simp only [toggles, hx, Bool.true_and] at ht
    exact ht

/-- Between the ticks nothing but the divider moves. -/
theorem next_wait (cpol : Bool) (hs : s.state = .xfer) (hx : s.inXfer = true)
    (ht : s.toggles v i = false) :
    Same s (s.next v cpol i) ∧ (s.next v cpol i).tickCnt = s.tickCnt + 1#18 := by
  have hn : s.next v cpol i = { s.access v cpol i with tickCnt := s.tickCnt + 1#18 } := by
    simp [next, transfer, hs, ht, hx, tick_eq_false hx ht]
  obtain ⟨h1, h2, h3, h4, h5⟩ := (access_same v cpol (dataWrite_eq_false hx)).1
  rw [hn]
  exact ⟨⟨h1, h2, h3, h4, h5⟩, rfl⟩

/-- The clock rises: a bit is sampled. -/
theorem next_rise (cpol : Bool) (hs : s.state = .xfer) (hx : s.inXfer = true)
    (ht : s.toggles v i = true) (hc : s.sclk = false) :
    (s.next v cpol i).state = .xfer ∧ (s.next v cpol i).xferCycles = s.xferCycles - 1#6 ∧
      (s.next v cpol i).spiBuf = s.spiBuf.extractLsb' 0 7 ++ BitVec.ofBool i.miso ∧
      (s.next v cpol i).sclk = true ∧ (s.next v cpol i).mosi = s.mosi := by
  have ha := (access_same v cpol (dataWrite_eq_false (i := i) hx)).1
  simp only [next, transfer, hs, ht, hc, if_true, Bool.false_eq_true, if_false, Bool.not_false]
  exact ⟨ha.state.trans hs, trivial, trivial, trivial, ha.mosi⟩

/-- The clock falls: the next bit is put out. -/
theorem next_fall (cpol : Bool) (hs : s.state = .xfer) (hx : s.inXfer = true)
    (ht : s.toggles v i = true) (hc : s.sclk = true) :
    (s.next v cpol i).state = .xfer ∧ (s.next v cpol i).xferCycles = s.xferCycles ∧
      (s.next v cpol i).spiBuf = s.spiBuf ∧
      (s.next v cpol i).sclk = false ∧ (s.next v cpol i).mosi = s.spiBuf.getLsbD 7 := by
  have ha := (access_same v cpol (dataWrite_eq_false (i := i) hx)).1
  simp only [next, transfer, hs, ht, hc, if_true, Bool.not_true]
  exact ⟨ha.state.trans hs, ha.count, ha.buf, trivial, trivial⟩

/-- All bits are through: the byte received is put into the register. -/
theorem next_done (v : SpiVersion) (cpol : Bool) (hs : s.state = .xfer) (hx : s.inXfer = false)
    (ho : i.offers = false) :
    (s.next v cpol i).state = .idle ∧ (s.next v cpol i).xferCycles = s.xferCycles ∧
      (s.next v cpol i).rxData = 0#24 ++ s.spiBuf ∧
      ((s.next v cpol i).sclk = s.sclk ∨ (s.next v cpol i).sclk = cpol) := by
  have hw : s.dataWrite i = false := by simp [dataWrite, ho]
  have ht : s.toggles v i = false := by cases v <;> simp [toggles, hx]
  have ha := (access_same v cpol hw).1
  simp only [next, transfer, hs, ht, hx, Bool.not_false, if_true, Bool.false_eq_true, if_false]
  refine ⟨trivial, ha.count, trivial, ?_⟩
  cases v with
  | first => exact .inl ha.sclk
  | second => exact .inr rfl

/-- In `S_IDLE` the clock is at its idle level a cycle later. -/
theorem next_sclk_of_idle (v : SpiVersion) (cpol : Bool) (hs : s.state = .idle) :
    (s.next v cpol i).sclk = cpol := by
  simp only [next, transfer, hs]

theorem next_idle (v : SpiVersion) (cpol : Bool) (hs : s.state = .idle)
    (hw : s.dataWrite i = false) :
    (s.next v cpol i).state = .idle ∧ (s.next v cpol i).xferCycles = s.xferCycles := by
  have ha := (access_same v cpol hw).1
  simp only [next, transfer, hs]
  exact ⟨ha.state.trans hs, ha.count⟩

/-- A data write is accepted. -/
theorem next_write (v : SpiVersion) (cpol : Bool) (hs : s.state = .idle)
    (hw : s.dataWrite i = true) :
    (s.next v cpol i).state = .xfer ∧ (s.next v cpol i).xferCycles = 8#6 ∧
      (s.next v cpol i).spiBuf = i.wdata.extractLsb' 0 8 ∧
      (s.next v cpol i).mosi = i.wdata.getLsbD 7 ∧ (s.next v cpol i).tickCnt = 0#18 := by
  have hx : s.inXfer = false := by
    simp only [dataWrite, Bool.and_eq_true, Bool.not_eq_true'] at hw
    exact hw.2
  simp [next, transfer, access, hs, hw, hx]

/-- A data write in the last cycle of a transfer is accepted, but the state returns to `S_IDLE`. -/
theorem next_clash (v : SpiVersion) (cpol : Bool) (hs : s.state = .xfer)
    (hw : s.dataWrite i = true) :
    (s.next v cpol i).state = .idle ∧ (s.next v cpol i).xferCycles = 8#6 := by
  have hx : s.inXfer = false := by
    simp only [dataWrite, Bool.and_eq_true, Bool.not_eq_true'] at hw
    exact hw.2
  have ht : s.toggles v i = false := by cases v <;> simp [toggles, hx]
  simp [next, transfer, access, hs, hw, hx, ht]

/-- Half a period of the clock, in cycles. -/
def half (div : BitVec 16) : ℕ := max 1 div.toNat

/-- The first version with a divisor of zero toggles in every cycle. -/
theorem toggles_of_zero (hx : s.inXfer = true) (hd : i.div = 0#16) :
    s.toggles .first i = true := by
  simp [toggles, hx, hd]

/-- Otherwise the tick comes when the divider has counted half a period. -/
theorem tick_iff (h : v = .second ∨ i.div ≠ 0#16) :
    s.tick v i = true ↔ s.tickCnt.toNat + 1 = half i.div := by
  have hlt := i.div.isLt
  have hlt' := s.tickCnt.isLt
  cases v with
  | first =>
    have hd : i.div.toNat ≠ 0 := by
      intro h0
      rcases h with h | h
      · cases h
      · exact h (BitVec.eq_of_toNat_eq h0)
    rw [tick, beq_iff_eq, ← BitVec.toNat_inj, BitVec.toNat_sub, BitVec.toNat_setWidth,
      BitVec.toNat_setWidth, BitVec.toNat_ofNat, half]
    omega
  | second =>
    rw [tick, beq_iff_eq, ← BitVec.toNat_inj, BitVec.toNat_sub, half]
    by_cases hd : i.div = 0#16
    · rw [if_pos hd, hd]
      simp
    · have hpos : i.div.toNat ≠ 0 := fun h0 => hd (BitVec.eq_of_toNat_eq h0)
      rw [if_neg hd, BitVec.toNat_setWidth, BitVec.toNat_ofNat]
      omega

theorem toggles_iff (hx : s.inXfer = true) (h : v = .second ∨ i.div ≠ 0#16) :
    s.toggles v i = true ↔ s.tickCnt.toNat + 1 = half i.div := by
  rw [← tick_iff h]
  cases v with
  | first =>
    have hd : i.div ≠ 0#16 := by
      rcases h with h | h
      · cases h
      · exact h
    simp [toggles, hx, hd]
  | second => simp [toggles, hx]

end

end Spi

end KianRiscV
