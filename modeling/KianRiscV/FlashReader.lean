/-
# The flash reader of LinuxSoC_v2

`spi_nor_flash.v` together with the flash behind it.  A read clocks out the command `03` and a
24-bit address, one bit at each rising edge, and then samples four bytes, one bit at each rising
edge, which the flash puts out at the falling edges before.

The flash is a device of mode 0: it shifts in at rising edges and puts out at falling ones, and it
answers the command `03` with its contents from the address on.  While it does not drive the data
line the level there is an input.
-/
import KianRiscV.SyncRun
import KianRiscV.Instruction

namespace KianRiscV

/-! ## The controller -/

/-- `ST_IDLE`, `ST_CMD`, `ST_RD` and `ST_DONE`. -/
inductive FlashState
  | idle | cmd | rd | done
  deriving DecidableEq, Repr

/-- The registers of `spi_nor_flash`, without `cmd_next`, which only names the command while it is
loaded. -/
structure SpiNorFlash where
  divcnt : BitVec 16
  state : FlashState
  phase : Bool
  cmdSr : Word
  cmdCnt : BitVec 6
  rxSr : BitVec 8
  bitCnt : BitVec 3
  byteIdx : BitVec 2
  rcvBuff : Word
  done : Bool
  mosiBit : Bool
  validD : Bool
  spiCs : Bool
  spiSclk : Bool

/-- `{8'h03, addr, 2'b00}`. -/
def readCmd (addr : BitVec 22) : Word := 0x03#8 ++ addr ++ 0#2

/-- `rcv_buff[8 * pos + 7 : 8 * pos] <= v`. -/
def putByte (w : Word) (pos : ℕ) (v : BitVec 8) : Word :=
  if pos = 0 then w.extractLsb' 8 24 ++ v
  else if pos = 1 then w.extractLsb' 16 16 ++ v ++ w.extractLsb' 0 8
  else if pos = 2 then w.extractLsb' 24 8 ++ v ++ w.extractLsb' 0 16
  else v ++ w.extractLsb' 0 24

/-- The place of byte `j` in the word. -/
def bytePos (littleEndian : Bool) (j : ℕ) : ℕ := if littleEndian then j else 3 - j

namespace SpiNorFlash

variable (sclkDiv : ℕ) (littleEndian : Bool) (s : SpiNorFlash)

/-- The registers after reset. -/
def resetState : SpiNorFlash where
  divcnt := 0#16
  state := .idle
  phase := false
  cmdSr := 0#32
  cmdCnt := 0#6
  rxSr := 0#8
  bitCnt := 0#3
  byteIdx := 0#2
  rcvBuff := 0#32
  done := false
  mosiBit := false
  validD := false
  spiCs := true
  spiSclk := false

/-- `tick`. -/
def tick : Bool := if sclkDiv = 1 then true else s.divcnt == 0#16

/-- The new value of `divcnt`. -/
def divcntNxt : BitVec 16 :=
  if sclkDiv = 1 then s.divcnt
  else if s.state = .idle then BitVec.ofNat 16 (sclkDiv - 1)
  else if s.tick sclkDiv then BitVec.ofNat 16 (sclkDiv - 1)
  else s.divcnt - 1#16

/-- `start_pulse`. -/
def startPulse (valid : Bool) : Bool := valid && !s.validD

/-- A tick in `ST_CMD`. -/
def cmdTick : SpiNorFlash :=
  let d := { s with phase := !s.phase, spiSclk := !s.spiSclk }
  if s.phase then { d with mosiBit := s.cmdSr.getLsbD 31 }
  else
    let d := { d with cmdSr := s.cmdSr.extractLsb' 0 31 ++ 0#1 }
    if s.cmdCnt = 0#6 then { d with bitCnt := 7#3, byteIdx := 0#2, state := .rd }
    else { d with cmdCnt := s.cmdCnt - 1#6 }

/-- A tick in `ST_RD`. -/
def rdTick (spiMiso : Bool) : SpiNorFlash :=
  let d := { s with phase := !s.phase, spiSclk := !s.spiSclk }
  if s.phase then d
  else
    let byte : BitVec 8 := s.rxSr.extractLsb' 0 7 ++ BitVec.ofBool spiMiso
    let d := { d with rxSr := byte }
    if s.bitCnt = 0#3 then
      let d := { d with
        rcvBuff := putByte s.rcvBuff (bytePos littleEndian s.byteIdx.toNat) byte }
      if s.byteIdx = 3#2 then { d with state := .done }
      else { d with byteIdx := s.byteIdx + 1#2, bitCnt := 7#3 }
    else { d with bitCnt := s.bitCnt - 1#3 }

/-- One clock edge. -/
def next (addr : BitVec 22) (valid spiMiso : Bool) : SpiNorFlash :=
  let d := { s with validD := valid, done := false, divcnt := s.divcntNxt sclkDiv }
  match s.state with
  | .idle =>
    let d := { d with spiCs := true, spiSclk := false, phase := false }
    if s.startPulse valid then
      { d with
        cmdSr := readCmd addr
        cmdCnt := 31#6
        mosiBit := (readCmd addr).getLsbD 31
        spiCs := false
        state := .cmd }
    else d
  | .cmd => if s.tick sclkDiv then d.cmdTick else d
  | .rd => if s.tick sclkDiv then d.rdTick littleEndian spiMiso else d
  | .done =>
    { d with
      spiCs := true
      spiSclk := false
      phase := false
      done := true
      state := .idle }

end SpiNorFlash

/-! ## The flash -/

/-- A flash: the level of the clock it saw last, how many rising edges it has seen since it was
selected, the first 32 bits it received, and the level it puts out, if any. -/
structure NorFlash where
  sclk : Bool
  count : ℕ
  sr : Word
  drive : Option Bool

namespace NorFlash

variable (mem : BitVec 24 → BitVec 8) (d : NorFlash)

/-- Bit `k` of the contents from the address received on, the highest bit of a byte first. -/
def contentBit (k : ℕ) : Bool :=
  (mem (d.sr.extractLsb' 0 24 + BitVec.ofNat 24 (k / 8))).getLsbD (7 - k % 8)

/-- What it does when it sees the levels of its pins. -/
def next (cs sclk mosi : Bool) : NorFlash :=
  if cs then { d with sclk := sclk, count := 0, drive := none }
  else if sclk && !d.sclk then
    { d with
      sclk := true
      count := d.count + 1
      sr := if d.count < 32 then d.sr.extractLsb' 0 31 ++ BitVec.ofBool mosi else d.sr }
  else if !sclk && d.sclk then
    { d with
      sclk := false
      drive :=
        if 32 ≤ d.count ∧ d.sr.extractLsb' 24 8 = 0x03#8 then some (d.contentBit mem (d.count - 32))
        else none }
  else d

end NorFlash

/-! ## Both together -/

/-- The request, and the level of the data line while the flash does not drive it. -/
structure FlashIn where
  valid : Bool
  addr : BitVec 22
  floating : Bool

structure FlashSystem where
  ctrl : SpiNorFlash
  flash : NorFlash

namespace FlashSystem

variable (sclkDiv : ℕ) (littleEndian : Bool) (mem : BitVec 24 → BitVec 8)

/-- One clock edge; the flash sees the new levels at once. -/
def next (s : FlashSystem) (i : FlashIn) : FlashSystem :=
  let c := s.ctrl.next sclkDiv littleEndian i.addr i.valid (s.flash.drive.getD i.floating)
  ⟨c, s.flash.next mem c.spiCs c.spiSclk c.mosiBit⟩

/-- After reset, with whatever the flash received before. -/
def resetState (sr : Word) : FlashSystem := ⟨.resetState, ⟨false, 0, sr, none⟩⟩

end FlashSystem

/-- The word at an address, in the order of bytes asked for. -/
def flashWord (littleEndian : Bool) (mem : BitVec 24 → BitVec 8) (addr : BitVec 22) : Word :=
  if littleEndian then
    mem (addr ++ 3#2) ++ mem (addr ++ 2#2) ++ mem (addr ++ 1#2) ++ mem (addr ++ 0#2)
  else mem (addr ++ 0#2) ++ mem (addr ++ 1#2) ++ mem (addr ++ 2#2) ++ mem (addr ++ 3#2)

/-! ## Bytes of the word -/

theorem extract_putByte (w : Word) {pos q : ℕ} (hpos : pos < 4) (hq : q < 4) (v : BitVec 8) :
    (putByte w pos v).extractLsb' (8 * q) 8
      = if q = pos then v else w.extractLsb' (8 * q) 8 := by
  apply BitVec.eq_of_getLsbD_eq
  intro i hi
  obtain rfl | rfl | rfl | rfl : pos = 0 ∨ pos = 1 ∨ pos = 2 ∨ pos = 3 := by omega
  all_goals
    obtain rfl | rfl | rfl | rfl : q = 0 ∨ q = 1 ∨ q = 2 ∨ q = 3 := by omega
  all_goals
    simp (disch := omega) only [putByte, BitVec.getLsbD_extractLsb', BitVec.getLsbD_append, hi,
      decide_true, Bool.true_and, if_true, if_pos, if_neg, decide_eq_true]
    try (congr 1; omega)

theorem bytePos_lt (littleEndian : Bool) {j : ℕ} (hj : j < 4) : bytePos littleEndian j < 4 := by
  unfold bytePos
  split <;> omega

theorem bytePos_inj {littleEndian : Bool} {j l : ℕ} (hj : j < 4) (hl : l < 4) :
    bytePos littleEndian j = bytePos littleEndian l ↔ j = l := by
  unfold bytePos
  split <;> omega

/-- A word whose four bytes are those of the flash is the word at the address. -/
theorem eq_flashWord {littleEndian : Bool} {mem : BitVec 24 → BitVec 8} {addr : BitVec 22}
    {w : Word}
    (h : ∀ j < 4, w.extractLsb' (8 * bytePos littleEndian j) 8 = mem (addr ++ BitVec.ofNat 2 j)) :
    w = flashWord littleEndian mem addr := by
  have hbytes : w = w.extractLsb' 24 8 ++ w.extractLsb' 16 8 ++ w.extractLsb' 8 8
      ++ w.extractLsb' 0 8 := by
    apply BitVec.eq_of_getLsbD_eq
    intro i hi
    simp only [BitVec.getLsbD_extractLsb', BitVec.getLsbD_append]
    split_ifs <;> simp (disch := omega) only [decide_eq_true, Bool.true_and, Nat.zero_add] <;>
      congr 1 <;> omega
  have h0 := h 0 (by omega)
  have h1 := h 1 (by omega)
  have h2 := h 2 (by omega)
  have h3 := h 3 (by omega)
  rw [hbytes]
  cases littleEndian <;>
    simp only [bytePos, Bool.false_eq_true, if_true, if_false] at h0 h1 h2 h3 <;>
    rw [flashWord, h0, h1, h2, h3] <;> rfl

/-! ## One edge of the flash -/

namespace NorFlash

variable (mem : BitVec 24 → BitVec 8) {d : NorFlash} (mosi : Bool)

theorem next_of_same {sclk : Bool} (h : d.sclk = sclk) : d.next mem false sclk mosi = d := by
  subst h
  cases hs : d.sclk <;> simp [next, hs]

theorem next_rise (h : d.sclk = false) :
    (d.next mem false true mosi).sclk = true ∧
      (d.next mem false true mosi).count = d.count + 1 ∧
      (d.next mem false true mosi).sr
        = (if d.count < 32 then d.sr.extractLsb' 0 31 ++ BitVec.ofBool mosi else d.sr) ∧
      (d.next mem false true mosi).drive = d.drive := by
  simp [next, h]

theorem next_fall (h : d.sclk = true) :
    (d.next mem false false mosi).sclk = false ∧
      (d.next mem false false mosi).count = d.count ∧
      (d.next mem false false mosi).sr = d.sr ∧
      (d.next mem false false mosi).drive
        = if 32 ≤ d.count ∧ d.sr.extractLsb' 24 8 = 0x03#8 then
            some (d.contentBit mem (d.count - 32)) else none := by
  simp [next, h]

end NorFlash

/-! ## The stages of a read -/

/-- Bit `k` of the answer. -/
def answerBit (mem : BitVec 24 → BitVec 8) (addr : BitVec 22) (k : ℕ) : Bool :=
  (mem (addr ++ BitVec.ofNat 2 (k / 8))).getLsbD (7 - k % 8)

/-- `r` bits of the command are clocked out. -/
structure InCmd (addr : BitVec 22) (r : ℕ) (s : FlashSystem) : Prop where
  state : s.ctrl.state = .cmd
  cs : s.ctrl.spiCs = false
  sclk : s.ctrl.spiSclk = s.ctrl.phase
  lt : r < 32
  cmdCnt : s.ctrl.cmdCnt.toNat = 31 - r
  cmdSr : s.ctrl.cmdSr = readCmd addr <<< r
  mosi : s.ctrl.phase = false → s.ctrl.mosiBit = (readCmd addr).getLsbD (31 - r)
  seen : s.flash.sclk = s.ctrl.phase
  count : s.flash.count = r
  sr : ∀ i < r, s.flash.sr.getLsbD i = (readCmd addr).getLsbD (32 - r + i)

/-- The command is clocked out, and `k` bits of the answer are sampled. -/
structure InRead (littleEndian : Bool) (mem : BitVec 24 → BitVec 8) (addr : BitVec 22) (k : ℕ)
    (s : FlashSystem) : Prop where
  state : s.ctrl.state = .rd
  cs : s.ctrl.spiCs = false
  sclk : s.ctrl.spiSclk = s.ctrl.phase
  mosi : s.ctrl.mosiBit = false
  lt : k < 32
  byteIdx : s.ctrl.byteIdx.toNat = k / 8
  bitCnt : s.ctrl.bitCnt.toNat = 7 - k % 8
  rxSr : ∀ i < k % 8, s.ctrl.rxSr.getLsbD i = answerBit mem addr (k - 1 - i)
  rcvBuff : ∀ j < k / 8, s.ctrl.rcvBuff.extractLsb' (8 * bytePos littleEndian j) 8
    = mem (addr ++ BitVec.ofNat 2 j)
  seen : s.flash.sclk = s.ctrl.phase
  count : s.flash.count = 32 + k
  sr : s.flash.sr = readCmd addr
  drive : s.ctrl.phase = false → s.flash.drive = some (answerBit mem addr k)

/-- All bits of the answer are sampled. -/
structure AtDone (littleEndian : Bool) (mem : BitVec 24 → BitVec 8) (addr : BitVec 22)
    (s : FlashSystem) : Prop where
  state : s.ctrl.state = .done
  cs : s.ctrl.spiCs = false
  count : s.flash.count = 64
  rcvBuff : s.ctrl.rcvBuff = flashWord littleEndian mem addr

theorem readCmd_lsb (addr : BitVec 22) : (readCmd addr).getLsbD 0 = false := by
  rw [readCmd, BitVec.getLsbD_append]
  rfl

theorem append_two_add (addr : BitVec 22) {j : ℕ} (hj : j < 4) :
    (addr ++ 0#2 : BitVec 24) + BitVec.ofNat 24 j = addr ++ BitVec.ofNat 2 j := by
  have hsum : ∀ {b : ℕ}, b < 4 → (addr ++ BitVec.ofNat 2 b : BitVec 24).toNat
      = addr.toNat * 4 + b := by
    intro b hb
    rw [BitVec.toNat_append, BitVec.toNat_ofNat, Nat.mod_eq_of_lt hb,
      ← Nat.shiftLeft_add_eq_or_of_lt hb, Nat.shiftLeft_eq]
  have haddr := addr.isLt
  apply BitVec.eq_of_toNat_eq
  rw [BitVec.toNat_add, hsum (b := 0) (by omega), hsum hj, BitVec.toNat_ofNat]
  omega

/-- The flash answers the bits of the word. -/
theorem contentBit_eq (mem : BitVec 24 → BitVec 8) {addr : BitVec 22} {d : NorFlash}
    (h : d.sr = readCmd addr) {k : ℕ} (hk : k < 32) :
    d.sr.extractLsb' 24 8 = 0x03#8 ∧ d.contentBit mem k = answerBit mem addr k := by
  constructor
  · rw [h, readCmd]
    apply BitVec.eq_of_getLsbD_eq
    intro i hi
    simp (disch := omega) only [BitVec.getLsbD_extractLsb', BitVec.getLsbD_append, hi, decide_true,
      Bool.true_and, if_neg]
    congr 1
    omega
  · have haddr : d.sr.extractLsb' 0 24 = addr ++ 0#2 := by
      rw [h, readCmd]
      apply BitVec.eq_of_getLsbD_eq
      intro i hi
      simp only [BitVec.getLsbD_extractLsb', BitVec.getLsbD_append, hi, decide_true, Bool.true_and,
        Nat.zero_add]
      split_ifs
      · rfl
      · rfl
      · omega
    rw [NorFlash.contentBit, haddr, append_two_add addr (by omega), answerBit]

/-! ## Progress -/

/-- The edges of the clock still to come, and the two cycles after them. -/
def edgesLeft (s : FlashSystem) : ℕ :=
  match s.ctrl.state with
  | .idle => 0
  | .done => 1
  | .cmd | .rd => 129 - 2 * s.flash.count + if s.ctrl.phase then 1 else 0

/-- The cycles of the divider count as well. -/
def flashRank (s : FlashSystem) : ℕ := edgesLeft s * 2 ^ 16 + s.ctrl.divcnt.toNat

/-- The level of the data line at a rising edge of the clock while the flash is selected. -/
def clockedBit (s s' : FlashSystem) : List Bool :=
  if !s'.ctrl.spiCs && (!s.ctrl.spiSclk && s'.ctrl.spiSclk) then [s'.ctrl.mosiBit] else []

theorem clockedBit_of_rise {s s' : FlashSystem} {b : Bool} (hlow : s.ctrl.spiSclk = false)
    (hcs : s'.ctrl.spiCs = false) (hhigh : s'.ctrl.spiSclk = true) (hbit : s'.ctrl.mosiBit = b) :
    clockedBit s s' = [b] := by
  simp [clockedBit, hlow, hcs, hhigh, hbit]

/-- The first `r` bits clocked out: the command, and zeros behind it. -/
def bitsOut (addr : BitVec 22) (r : ℕ) : List Bool :=
  (List.range r).map fun j => if j < 32 then (readCmd addr).getLsbD (31 - j) else false

theorem bitsOut_succ (addr : BitVec 22) (r : ℕ) :
    bitsOut addr (r + 1)
      = bitsOut addr r ++ [if r < 32 then (readCmd addr).getLsbD (31 - r) else false] := by
  simp [bitsOut, List.range_succ]

/-- A counter that is not zero goes down by one. -/
theorem toNat_pred {w : ℕ} {x : BitVec (w + 1)} (h : x.toNat ≠ 0) :
    (x - 1#(w + 1)).toNat = x.toNat - 1 := by
  have hone : (1#(w + 1)).toNat = 1 := by simp
  rw [BitVec.toNat_sub_of_le (by rw [BitVec.le_def, hone]; omega), hone]

namespace FlashSystem

variable {sclkDiv : ℕ} {littleEndian : Bool} {mem : BitVec 24 → BitVec 8} {addr : BitVec 22}
  {s : FlashSystem} {i : FlashIn} {r k : ℕ}

/-- A cycle without a tick. -/
theorem next_of_not_tick (hst : s.ctrl.state = .cmd ∨ s.ctrl.state = .rd)
    (ht : s.ctrl.tick sclkDiv = false) (hcs : s.ctrl.spiCs = false)
    (hseen : s.flash.sclk = s.ctrl.spiSclk) :
    s.next sclkDiv littleEndian mem i
      = ⟨{ s.ctrl with
            validD := i.valid
            done := false
            divcnt := s.ctrl.divcnt - 1#16 }, s.flash⟩ := by
  have hdiv : s.ctrl.divcntNxt sclkDiv = s.ctrl.divcnt - 1#16 := by
    have hne : sclkDiv ≠ 1 := by
      rintro rfl
      exact absurd ht (by simp [SpiNorFlash.tick])
    rcases hst with hst | hst <;> simp [SpiNorFlash.divcntNxt, hne, hst, ht]
  have hctrl : s.ctrl.next sclkDiv littleEndian i.addr i.valid (s.flash.drive.getD i.floating)
      = { s.ctrl with validD := i.valid, done := false, divcnt := s.ctrl.divcnt - 1#16 } := by
    rcases hst with hst | hst <;> simp [SpiNorFlash.next, hst, ht, hdiv]
  rw [FlashSystem.next, hctrl]
  dsimp only
  rw [hcs, NorFlash.next_of_same _ _ hseen]

theorem flashRank_of_not_tick (hst : s.ctrl.state = .cmd ∨ s.ctrl.state = .rd)
    (ht : s.ctrl.tick sclkDiv = false) (hcs : s.ctrl.spiCs = false)
    (hseen : s.flash.sclk = s.ctrl.spiSclk) :
    flashRank (s.next sclkDiv littleEndian mem i) < flashRank s := by
  have hne : s.ctrl.divcnt ≠ 0#16 := by
    intro h0
    exact absurd ht (by simp [SpiNorFlash.tick, h0])
  have hpos : s.ctrl.divcnt.toNat ≠ 0 := fun h0 => hne (BitVec.eq_of_toNat_eq h0)
  have hdec : (s.ctrl.divcnt - 1#16).toNat = s.ctrl.divcnt.toNat - 1 := toNat_pred hpos
  rw [next_of_not_tick hst ht hcs hseen]
  show edgesLeft s * 2 ^ 16 + (s.ctrl.divcnt - 1#16).toNat
    < edgesLeft s * 2 ^ 16 + s.ctrl.divcnt.toNat
  omega

/-- An edge of the clock lowers the rank whatever the divider is loaded with. -/
theorem flashRank_of_edge {s' : FlashSystem} (h : edgesLeft s' < edgesLeft s) :
    flashRank s' < flashRank s := by
  have hlt := s'.ctrl.divcnt.isLt
  unfold flashRank
  omega

/-- A rising edge after which the read goes on. -/
theorem edgesLeft_rise {s' : FlashSystem} (hst : s.ctrl.state = .cmd ∨ s.ctrl.state = .rd)
    (hp : s.ctrl.phase = false) (hlt : s.flash.count < 64)
    (hst' : s'.ctrl.state = .cmd ∨ s'.ctrl.state = .rd) (hp' : s'.ctrl.phase = true)
    (hcount : s'.flash.count = s.flash.count + 1) : edgesLeft s' < edgesLeft s := by
  have hleft : edgesLeft s = 129 - 2 * s.flash.count := by
    rcases hst with hst | hst <;> simp [edgesLeft, hst, hp]
  have hleft' : edgesLeft s' = 129 - 2 * s'.flash.count + 1 := by
    rcases hst' with hst' | hst' <;> simp [edgesLeft, hst', hp']
  omega

/-! ## The command -/

/-- A falling edge puts out the next bit. -/
theorem next_cmd_fall (littleEndian : Bool) (mem : BitVec 24 → BitVec 8) (i : FlashIn)
    (h : InCmd addr r s) (hp : s.ctrl.phase = true)
    (ht : s.ctrl.tick sclkDiv = true) :
    InCmd addr r (s.next sclkDiv littleEndian mem i) ∧
      clockedBit s (s.next sclkDiv littleEndian mem i) = [] ∧
      edgesLeft (s.next sclkDiv littleEndian mem i) < edgesLeft s := by
  have hnext : s.next sclkDiv littleEndian mem i
      = ⟨{ s.ctrl with
            validD := i.valid
            done := false
            divcnt := s.ctrl.divcntNxt sclkDiv
            phase := false
            spiSclk := false
            mosiBit := s.ctrl.cmdSr.getLsbD 31 },
          s.flash.next mem false false (s.ctrl.cmdSr.getLsbD 31)⟩ := by
    simp [FlashSystem.next, SpiNorFlash.next, SpiNorFlash.cmdTick, h.state, h.cs, ht, hp, h.sclk]
  obtain ⟨hseen, hcount, hsr, -⟩ := NorFlash.next_fall mem
    (s.ctrl.cmdSr.getLsbD 31) (h.seen.trans hp)
  have hlt := h.lt
  have hmosi : s.ctrl.cmdSr.getLsbD 31 = (readCmd addr).getLsbD (31 - r) := by
    rw [h.cmdSr, BitVec.getLsbD_shiftLeft]
    simp [show ¬ 31 < r by omega]
  rw [hnext]
  refine ⟨⟨h.state, h.cs, rfl, h.lt, h.cmdCnt, h.cmdSr, fun _ => hmosi, hseen,
    hcount.trans h.count, fun j hj => ?_⟩, ?_, ?_⟩
  · rw [hsr]
    exact h.sr j hj
  · simp [clockedBit]
  · simp only [edgesLeft, h.state, hp, hcount, Bool.false_eq_true, if_true, if_false]
    omega

/-- What a rising edge leaves in the flash. -/
theorem sr_rise (h : InCmd addr r s) (hp : s.ctrl.phase = false) (j : ℕ) (hj : j < r + 1) :
    (s.flash.sr.extractLsb' 0 31 ++ BitVec.ofBool s.ctrl.mosiBit).getLsbD j
      = (readCmd addr).getLsbD (32 - (r + 1) + j) := by
  have hlt := h.lt
  rw [BitVec.getLsbD_append]
  cases j with
  | zero =>
    rw [h.mosi hp, show 32 - (r + 1) + 0 = 31 - r by omega]
    simp
  | succ j =>
    have hbit := h.sr j (by omega)
    simp only [show ¬ j + 1 < 1 by omega, if_false, BitVec.getLsbD_extractLsb',
      Nat.add_sub_cancel, Nat.zero_add, show j < 31 by omega, decide_true, Bool.true_and, hbit]
    congr 1
    omega

/-- What a rising edge in the command leaves. -/
theorem flash_cmd_rise (mem : BitVec 24 → BitVec 8) (h : InCmd addr r s)
    (hp : s.ctrl.phase = false) :
    (s.flash.next mem false true s.ctrl.mosiBit).sclk = true ∧
      (s.flash.next mem false true s.ctrl.mosiBit).count = r + 1 ∧
      ∀ j < r + 1, (s.flash.next mem false true s.ctrl.mosiBit).sr.getLsbD j
        = (readCmd addr).getLsbD (32 - (r + 1) + j) := by
  obtain ⟨hseen, hcount, hsr, -⟩ := NorFlash.next_rise mem s.ctrl.mosiBit (h.seen.trans hp)
  rw [h.count, if_pos h.lt] at hsr
  refine ⟨hseen, by rw [hcount, h.count], fun j hj => ?_⟩
  rw [hsr, sr_rise h hp j hj]

/-- A rising edge samples the next bit of the command. -/
theorem next_cmd_bit (littleEndian : Bool) (mem : BitVec 24 → BitVec 8) (i : FlashIn)
    (h : InCmd addr r s) (hp : s.ctrl.phase = false) (ht : s.ctrl.tick sclkDiv = true)
    (hr : r + 1 ≠ 32) :
    InCmd addr (r + 1) (s.next sclkDiv littleEndian mem i) ∧
      clockedBit s (s.next sclkDiv littleEndian mem i) = [(readCmd addr).getLsbD (31 - r)] ∧
      edgesLeft (s.next sclkDiv littleEndian mem i) < edgesLeft s := by
  obtain ⟨hseen, hcount, hsr⟩ := flash_cmd_rise mem h hp
  have hlt := h.lt
  have hne : s.ctrl.cmdCnt.toNat ≠ 0 := by
    rw [h.cmdCnt]
    omega
  have hcnt : s.ctrl.cmdCnt ≠ 0#6 := fun h0 => hne (by rw [h0]; rfl)
  have hpred : (s.ctrl.cmdCnt - 1#6).toNat = s.ctrl.cmdCnt.toNat - 1 := toNat_pred hne
  have hnext : s.next sclkDiv littleEndian mem i
      = ⟨{ s.ctrl with
            validD := i.valid
            done := false
            divcnt := s.ctrl.divcntNxt sclkDiv
            phase := true
            spiSclk := true
            cmdSr := s.ctrl.cmdSr.extractLsb' 0 31 ++ 0#1
            cmdCnt := s.ctrl.cmdCnt - 1#6 }, s.flash.next mem false true s.ctrl.mosiBit⟩ := by
    simp [FlashSystem.next, SpiNorFlash.next, SpiNorFlash.cmdTick, h.state, h.cs, ht, hp, h.sclk,
      hcnt]
  have hshift : s.ctrl.cmdSr.extractLsb' 0 31 ++ 0#1 = readCmd addr <<< (r + 1) := by
    rw [h.cmdSr]
    apply BitVec.eq_of_getLsbD_eq
    intro j hj
    simp only [BitVec.getLsbD_append, BitVec.getLsbD_extractLsb', BitVec.getLsbD_shiftLeft]
    split_ifs with h0
    · obtain rfl : j = 0 := by omega
      simp
    · simp (disch := omega) only [decide_eq_true, Bool.true_and, Nat.zero_add]
      rw [decide_eq_decide.2 (show j - 1 < r ↔ j < r + 1 by omega),
        show j - 1 - r = j - (r + 1) by omega]
  rw [hnext]
  refine ⟨?_, ?_, edgesLeft_rise (.inl h.state) hp (by rw [h.count]; omega) (.inl h.state) rfl
    (by rw [hcount, h.count])⟩
  · exact
      { state := h.state
        cs := h.cs
        sclk := rfl
        lt := by omega
        cmdCnt := by
          show (s.ctrl.cmdCnt - 1#6).toNat = 31 - (r + 1)
          rw [hpred, h.cmdCnt]
          omega
        cmdSr := hshift
        mosi := fun hf => absurd (show true = false from hf) (by decide)
        seen := hseen
        count := hcount
        sr := hsr }
  · exact clockedBit_of_rise (h.sclk.trans hp) h.cs rfl (h.mosi hp)

/-- After the last one the answer begins, with the data line left low by the last bit. -/
theorem next_cmd_last (littleEndian : Bool) (mem : BitVec 24 → BitVec 8) (i : FlashIn)
    (h : InCmd addr r s) (hp : s.ctrl.phase = false) (ht : s.ctrl.tick sclkDiv = true)
    (hr : r + 1 = 32) :
    InRead littleEndian mem addr 0 (s.next sclkDiv littleEndian mem i) ∧
      clockedBit s (s.next sclkDiv littleEndian mem i) = [(readCmd addr).getLsbD (31 - r)] ∧
      edgesLeft (s.next sclkDiv littleEndian mem i) < edgesLeft s := by
  obtain ⟨hseen, hcount, hsr⟩ := flash_cmd_rise mem h hp
  have hzero : s.ctrl.cmdCnt.toNat = 0 := h.cmdCnt.trans (by omega)
  have hcnt : s.ctrl.cmdCnt = 0#6 := BitVec.eq_of_toNat_eq hzero
  have hnext : s.next sclkDiv littleEndian mem i
      = ⟨{ s.ctrl with
            validD := i.valid
            done := false
            divcnt := s.ctrl.divcntNxt sclkDiv
            phase := true
            spiSclk := true
            cmdSr := s.ctrl.cmdSr.extractLsb' 0 31 ++ 0#1
            bitCnt := 7#3
            byteIdx := 0#2
            state := .rd }, s.flash.next mem false true s.ctrl.mosiBit⟩ := by
    simp [FlashSystem.next, SpiNorFlash.next, SpiNorFlash.cmdTick, h.state, h.cs, ht, hp, h.sclk,
      hcnt]
  have hmosi : s.ctrl.mosiBit = false := by
    rw [h.mosi hp, show 31 - r = 0 by omega, readCmd_lsb]
  have hcmd : (s.flash.next mem false true s.ctrl.mosiBit).sr = readCmd addr := by
    apply BitVec.eq_of_getLsbD_eq
    intro j hj
    rw [hsr j (by omega), show 32 - (r + 1) + j = j by omega]
  rw [hnext]
  refine ⟨?_, ?_, edgesLeft_rise (.inl h.state) hp (by rw [h.count]; omega) (.inr rfl) rfl
    (by rw [hcount, h.count])⟩
  · exact
      { state := rfl
        cs := h.cs
        sclk := rfl
        mosi := hmosi
        lt := by omega
        byteIdx := rfl
        bitCnt := rfl
        rxSr := fun j hj => by omega
        rcvBuff := fun j hj => by omega
        seen := hseen
        count := hcount.trans (by omega)
        sr := hcmd
        drive := fun hf => absurd (show true = false from hf) (by decide) }
  · exact clockedBit_of_rise (h.sclk.trans hp) h.cs rfl (h.mosi hp)

/-! ## The answer -/

/-- A falling edge has the flash put out the next bit. -/
theorem next_rd_fall (i : FlashIn) (h : InRead littleEndian mem addr k s) (hp : s.ctrl.phase = true)
    (ht : s.ctrl.tick sclkDiv = true) :
    InRead littleEndian mem addr k (s.next sclkDiv littleEndian mem i) ∧
      clockedBit s (s.next sclkDiv littleEndian mem i) = [] ∧
      edgesLeft (s.next sclkDiv littleEndian mem i) < edgesLeft s := by
  have hnext : s.next sclkDiv littleEndian mem i
      = ⟨{ s.ctrl with
            validD := i.valid
            done := false
            divcnt := s.ctrl.divcntNxt sclkDiv
            phase := false
            spiSclk := false }, s.flash.next mem false false s.ctrl.mosiBit⟩ := by
    simp [FlashSystem.next, SpiNorFlash.next, SpiNorFlash.rdTick, h.state, h.cs, ht, hp, h.sclk]
  obtain ⟨hseen, hcount, hsr, hdrive⟩ := NorFlash.next_fall mem s.ctrl.mosiBit
    (h.seen.trans hp)
  obtain ⟨hcode, hbit⟩ := contentBit_eq mem h.sr h.lt
  have hlt := h.lt
  have hput : (s.flash.next mem false false s.ctrl.mosiBit).drive
      = some (answerBit mem addr k) := by
    rw [hdrive, h.count, if_pos ⟨by omega, hcode⟩, show 32 + k - 32 = k by omega, hbit]
  rw [hnext]
  refine ⟨?_, ?_, ?_⟩
  · exact
      { h with
        sclk := rfl
        seen := hseen
        count := hcount.trans h.count
        sr := hsr.trans h.sr
        drive := fun _ => hput }
  · simp [clockedBit]
  · simp only [edgesLeft, h.state, hp, hcount, Bool.false_eq_true, if_true, if_false]
    omega

/-- The shift register with the next bit. -/
theorem rx_rise (h : InRead littleEndian mem addr k s) {j : ℕ} (hj : j ≤ k % 8) :
    (s.ctrl.rxSr.extractLsb' 0 7 ++ BitVec.ofBool (answerBit mem addr k)).getLsbD j
      = answerBit mem addr (k - j) := by
  rw [BitVec.getLsbD_append]
  cases j with
  | zero => simp
  | succ j =>
    have hbit := h.rxSr j (by omega)
    simp only [show ¬ j + 1 < 1 by omega, if_false, BitVec.getLsbD_extractLsb',
      Nat.add_sub_cancel, Nat.zero_add, show j < 7 by omega, decide_true, Bool.true_and, hbit]
    congr 1
    omega

/-- After eight bits it holds a byte. -/
theorem rx_byte (h : InRead littleEndian mem addr k s) (hk : k % 8 = 7) :
    s.ctrl.rxSr.extractLsb' 0 7 ++ BitVec.ofBool (answerBit mem addr k)
      = mem (addr ++ BitVec.ofNat 2 (k / 8)) := by
  apply BitVec.eq_of_getLsbD_eq
  intro j hj
  rw [rx_rise h (by omega), answerBit, show (k - j) / 8 = k / 8 by omega,
    show 7 - (k - j) % 8 = j by omega]

/-- The bytes received with the new one. -/
theorem rcv_byte (h : InRead littleEndian mem addr k s) {j : ℕ} (hj : j < k / 8 + 1) :
    (putByte s.ctrl.rcvBuff (bytePos littleEndian s.ctrl.byteIdx.toNat)
        (mem (addr ++ BitVec.ofNat 2 (k / 8)))).extractLsb' (8 * bytePos littleEndian j) 8
      = mem (addr ++ BitVec.ofNat 2 j) := by
  have hlt := h.lt
  rw [h.byteIdx, extract_putByte _ (bytePos_lt _ (by omega)) (bytePos_lt _ (by omega))]
  by_cases heq : j = k / 8
  · rw [if_pos (by rw [heq]), heq]
  · rw [if_neg fun h' => heq ((bytePos_inj (by omega) (by omega)).1 h')]
    exact h.rcvBuff j (by omega)

/-- What a rising edge in the answer leaves. -/
theorem flash_rd_rise (h : InRead littleEndian mem addr k s) (hp : s.ctrl.phase = false) :
    (s.flash.next mem false true s.ctrl.mosiBit).sclk = true ∧
      (s.flash.next mem false true s.ctrl.mosiBit).count = 32 + (k + 1) ∧
      (s.flash.next mem false true s.ctrl.mosiBit).sr = readCmd addr := by
  obtain ⟨hseen, hcount, hsr, -⟩ := NorFlash.next_rise mem s.ctrl.mosiBit (h.seen.trans hp)
  rw [h.count, if_neg (by omega)] at hsr
  exact ⟨hseen, by rw [hcount, h.count]; omega, hsr.trans h.sr⟩

/-- The bit on the data line from the flash. -/
theorem getD_drive (h : InRead littleEndian mem addr k s) (hp : s.ctrl.phase = false)
    (floating : Bool) : s.flash.drive.getD floating = answerBit mem addr k := by
  rw [h.drive hp]
  rfl

/-- A rising edge samples the next bit of a byte. -/
theorem next_rd_bit (i : FlashIn) (h : InRead littleEndian mem addr k s)
    (hp : s.ctrl.phase = false) (ht : s.ctrl.tick sclkDiv = true) (hk : k % 8 ≠ 7) :
    InRead littleEndian mem addr (k + 1) (s.next sclkDiv littleEndian mem i) ∧
      clockedBit s (s.next sclkDiv littleEndian mem i) = [false] ∧
      edgesLeft (s.next sclkDiv littleEndian mem i) < edgesLeft s := by
  obtain ⟨hseen, hcount, hsr⟩ := flash_rd_rise h hp
  have hlt := h.lt
  have hne : s.ctrl.bitCnt.toNat ≠ 0 := by
    rw [h.bitCnt]
    omega
  have hcnt : s.ctrl.bitCnt ≠ 0#3 := fun h0 => hne (by rw [h0]; rfl)
  have hpred : (s.ctrl.bitCnt - 1#3).toNat = s.ctrl.bitCnt.toNat - 1 := toNat_pred hne
  have hnext : s.next sclkDiv littleEndian mem i
      = ⟨{ s.ctrl with
            validD := i.valid
            done := false
            divcnt := s.ctrl.divcntNxt sclkDiv
            phase := true
            spiSclk := true
            rxSr := s.ctrl.rxSr.extractLsb' 0 7 ++ BitVec.ofBool (answerBit mem addr k)
            bitCnt := s.ctrl.bitCnt - 1#3 }, s.flash.next mem false true s.ctrl.mosiBit⟩ := by
    simp [FlashSystem.next, SpiNorFlash.next, SpiNorFlash.rdTick, h.state, h.cs, ht, hp, h.sclk,
      hcnt, getD_drive h hp]
  rw [hnext]
  refine ⟨?_, ?_, edgesLeft_rise (.inr h.state) hp (by rw [h.count]; omega) (.inr h.state) rfl
    (by rw [hcount, h.count]; omega)⟩
  · exact
      { state := h.state
        cs := h.cs
        sclk := rfl
        mosi := h.mosi
        lt := by omega
        byteIdx := h.byteIdx.trans (by omega)
        bitCnt := by
          show (s.ctrl.bitCnt - 1#3).toNat = 7 - (k + 1) % 8
          rw [hpred, h.bitCnt]
          omega
        rxSr := fun j hj => by
          rw [show k + 1 - 1 - j = k - j by omega]
          exact rx_rise h (by omega)
        rcvBuff := fun j hj => h.rcvBuff j (by omega)
        seen := hseen
        count := hcount
        sr := hsr
        drive := fun hf => absurd (show true = false from hf) (by decide) }
  · exact clockedBit_of_rise (h.sclk.trans hp) h.cs rfl h.mosi

/-- The eighth bit completes a byte, and the next byte begins. -/
theorem next_rd_byte (i : FlashIn) (h : InRead littleEndian mem addr k s)
    (hp : s.ctrl.phase = false) (ht : s.ctrl.tick sclkDiv = true) (hk : k % 8 = 7)
    (hlast : k + 1 ≠ 32) :
    InRead littleEndian mem addr (k + 1) (s.next sclkDiv littleEndian mem i) ∧
      clockedBit s (s.next sclkDiv littleEndian mem i) = [false] ∧
      edgesLeft (s.next sclkDiv littleEndian mem i) < edgesLeft s := by
  obtain ⟨hseen, hcount, hsr⟩ := flash_rd_rise h hp
  have hlt := h.lt
  have hzero : s.ctrl.bitCnt.toNat = 0 := h.bitCnt.trans (by omega)
  have hcnt : s.ctrl.bitCnt = 0#3 := BitVec.eq_of_toNat_eq hzero
  have hidx : s.ctrl.byteIdx ≠ 3#2 := by
    intro h3
    have hval := h.byteIdx
    rw [h3] at hval
    have hthree : 3 = k / 8 := hval
    omega
  have hsucc : (s.ctrl.byteIdx + 1#2).toNat = k / 8 + 1 := by
    rw [BitVec.toNat_add, h.byteIdx, show (1#2).toNat = 1 from rfl]
    omega
  have hnext : s.next sclkDiv littleEndian mem i
      = ⟨{ s.ctrl with
            validD := i.valid
            done := false
            divcnt := s.ctrl.divcntNxt sclkDiv
            phase := true
            spiSclk := true
            rxSr := mem (addr ++ BitVec.ofNat 2 (k / 8))
            rcvBuff := putByte s.ctrl.rcvBuff (bytePos littleEndian s.ctrl.byteIdx.toNat)
              (mem (addr ++ BitVec.ofNat 2 (k / 8)))
            byteIdx := s.ctrl.byteIdx + 1#2
            bitCnt := 7#3 }, s.flash.next mem false true s.ctrl.mosiBit⟩ := by
    simp [FlashSystem.next, SpiNorFlash.next, SpiNorFlash.rdTick, h.state, h.cs, ht, hp, h.sclk,
      hcnt, getD_drive h hp, rx_byte h hk, hidx]
  rw [hnext]
  refine ⟨?_, ?_, edgesLeft_rise (.inr h.state) hp (by rw [h.count]; omega) (.inr h.state) rfl
    (by rw [hcount, h.count]; omega)⟩
  · exact
      { state := h.state
        cs := h.cs
        sclk := rfl
        mosi := h.mosi
        lt := by omega
        byteIdx := hsucc.trans (by omega)
        bitCnt := by
          show 7 = 7 - (k + 1) % 8
          omega
        rxSr := fun j hj => by omega
        rcvBuff := fun j hj => rcv_byte h (by omega)
        seen := hseen
        count := hcount
        sr := hsr
        drive := fun hf => absurd (show true = false from hf) (by decide) }
  · exact clockedBit_of_rise (h.sclk.trans hp) h.cs rfl h.mosi

theorem next_rd_rise (i : FlashIn) (h : InRead littleEndian mem addr k s)
    (hp : s.ctrl.phase = false) (ht : s.ctrl.tick sclkDiv = true) (hlast : k + 1 ≠ 32) :
    InRead littleEndian mem addr (k + 1) (s.next sclkDiv littleEndian mem i) ∧
      clockedBit s (s.next sclkDiv littleEndian mem i) = [false] ∧
      edgesLeft (s.next sclkDiv littleEndian mem i) < edgesLeft s := by
  by_cases hk : k % 8 = 7
  · exact next_rd_byte i h hp ht hk hlast
  · exact next_rd_bit i h hp ht hk

/-- The last bit of the last byte completes the word. -/
theorem next_rd_last (i : FlashIn) (h : InRead littleEndian mem addr k s)
    (hp : s.ctrl.phase = false) (ht : s.ctrl.tick sclkDiv = true) (hlast : k + 1 = 32) :
    AtDone littleEndian mem addr (s.next sclkDiv littleEndian mem i) ∧
      clockedBit s (s.next sclkDiv littleEndian mem i) = [false] ∧
      edgesLeft (s.next sclkDiv littleEndian mem i) < edgesLeft s := by
  obtain ⟨-, hcount, -⟩ := flash_rd_rise h hp
  have hzero : s.ctrl.bitCnt.toNat = 0 := h.bitCnt.trans (by omega)
  have hcnt : s.ctrl.bitCnt = 0#3 := BitVec.eq_of_toNat_eq hzero
  have hidx : s.ctrl.byteIdx = 3#2 := by
    refine BitVec.eq_of_toNat_eq (h.byteIdx.trans ?_)
    show k / 8 = 3
    omega
  have hnext : s.next sclkDiv littleEndian mem i
      = ⟨{ s.ctrl with
            validD := i.valid
            done := false
            divcnt := s.ctrl.divcntNxt sclkDiv
            phase := true
            spiSclk := true
            rxSr := mem (addr ++ BitVec.ofNat 2 (k / 8))
            rcvBuff := putByte s.ctrl.rcvBuff (bytePos littleEndian s.ctrl.byteIdx.toNat)
              (mem (addr ++ BitVec.ofNat 2 (k / 8)))
            state := .done }, s.flash.next mem false true s.ctrl.mosiBit⟩ := by
    simp [FlashSystem.next, SpiNorFlash.next, SpiNorFlash.rdTick, h.state, h.cs, ht, hp, h.sclk,
      hcnt, getD_drive h hp, rx_byte h (by omega), hidx]
  rw [hnext]
  refine ⟨⟨rfl, h.cs, hcount.trans (by omega), ?_⟩, ?_, ?_⟩
  · exact eq_flashWord fun j hj => rcv_byte h (by omega)
  · exact clockedBit_of_rise (h.sclk.trans hp) h.cs rfl h.mosi
  · simp only [edgesLeft, h.state, hp, h.count, Bool.false_eq_true, if_false]
    omega

end FlashSystem

end KianRiscV
