/-
# The UART

`fifo.v`, `tx_uart.v` and `rx_uart.v`.  The first SoC and LinuxSoC_v2 have the same buffer, and
their shifters differ in a few places only:

* the transmitter of the first SoC drives the start bit on its way out of `S_IDLE`, that of
  LinuxSoC_v2 has a state for it;
* the receiver of the first SoC reports a byte a bit time after the middle of the stop bit, that
  of LinuxSoC_v2 in the middle of it, and then waits for a quarter of a bit time.

One definition with the version as a parameter serves for both.
-/
import KianRiscV.RingBuffer
import KianRiscV.Instruction
import KianRiscV.SyncRun

namespace KianRiscV

/-! ## The buffer -/

/-- The registers of `fifo` with `DEPTH = 2 ^ aw`. -/
structure Fifo (aw : ℕ) (α : Type) where
  ram : BitVec aw → α
  cnt : BitVec (aw + 1)
  rdPtr : BitVec aw
  wrPtr : BitVec aw

namespace Fifo

variable {aw : ℕ} {α : Type} (s : Fifo aw α) (din : α) (push pop : Bool)

/-- `empty`. -/
def empty : Bool := s.cnt == 0#(aw + 1)

/-- `full`. -/
def full : Bool := s.cnt == BitVec.ofNat (aw + 1) (2 ^ aw)

/-- `dout`. -/
def dout : α := s.ram s.rdPtr

/-- `wr_accept`. -/
def wrAccept : Bool := push && (!s.full || pop)

/-- `rd_accept`. -/
def rdAccept : Bool := pop && !s.empty

/-- `cnt_next`. -/
def cntNext : BitVec (aw + 1) :=
  match push, pop with
  | false, false => s.cnt
  | false, true => if s.empty then s.cnt else s.cnt - 1
  | true, false => if s.full then s.cnt else s.cnt + 1
  | true, true => s.cnt

/-- One clock edge. -/
def next : Fifo aw α where
  ram := if s.wrAccept push pop then Function.update s.ram s.wrPtr din else s.ram
  cnt := s.cntNext push pop
  rdPtr := if s.rdAccept pop then s.rdPtr + 1 else s.rdPtr
  wrPtr := if s.wrAccept push pop then s.wrPtr + 1 else s.wrPtr

/-- The registers after reset; the memory is not cleared. -/
def resetState (ram : BitVec aw → α) : Fifo aw α where
  ram := ram
  cnt := 0
  rdPtr := 0
  wrPtr := 0

end Fifo

/-- The SoC a shifter belongs to. -/
inductive UartVersion
  | first | second
  deriving DecidableEq, Repr

/-! ## The transmitter -/

/-- The states of `tx_uart`; `start` is only used by the second version. -/
inductive TxState
  | idle | start | data | stop | wait
  deriving DecidableEq, Repr

/-- The registers of `tx_uart`. -/
structure TxUart (aw : ℕ) where
  fifo : Fifo aw (BitVec 8)
  state : TxState
  returnState : TxState
  bitIdx : BitVec 3
  txDataReg : BitVec 8
  waitStates : BitVec 17
  fifoPop : Bool
  txOut : Bool

namespace TxUart

variable {aw : ℕ} (v : UartVersion) (stopBits : ℕ) (div : BitVec 16) (s : TxUart aw)
  (valid : Bool) (txData : BitVec 8)

/-- `ready`. -/
def ready : Bool := !s.fifo.full

/-- `busy`. -/
def busy : Bool := s.state != .idle || !s.fifo.empty

/-- `{1'b0, div} - 17'd1`. -/
def bitWait : BitVec 17 := div.setWidth 17 - 1#17

/-- The wait of `S_STOP`. -/
def stopWait : BitVec 17 :=
  match v with
  | .first => BitVec.ofNat 17 (div.toNat * stopBits) - 1#17
  | .second => if stopBits = 2 then (div.setWidth 17 <<< 1) - 1#17 else bitWait div

/-- A wait before `st`. -/
def waitFor (s : TxUart aw) (n : BitVec 17) (st : TxState) : TxUart aw :=
  { s with waitStates := n, returnState := st, state := .wait }

/-- The shifter after the edge, with the buffer as it is. -/
def shift : TxUart aw :=
  let s' := { s with fifoPop := false }
  match s.state with
  | .idle =>
    let s' := { s' with txOut := true, bitIdx := 0#3 }
    if s.fifo.empty then s'
    else
      let s' := { s' with txDataReg := s.fifo.dout, fifoPop := true }
      match v with
      | .first => waitFor { s' with txOut := false } (bitWait div) .data
      | .second => { s' with state := .start }
  | .start => waitFor { s' with txOut := false } (bitWait div) .data
  | .data =>
    waitFor { s' with txOut := s.txDataReg.getLsbD s.bitIdx.toNat, bitIdx := s.bitIdx + 1 }
      (bitWait div) (if s.bitIdx = 7#3 then .stop else .data)
  | .stop => waitFor { s' with txOut := true } (stopWait v stopBits div) .idle
  | .wait =>
    if s.waitStates = 0#17 then { s' with state := s.returnState }
    else { s' with waitStates := s.waitStates - 1 }

/-- One clock edge. -/
def next : TxUart aw :=
  { s.shift v stopBits div with
    fifo := s.fifo.next txData (valid && !s.fifo.full) s.fifoPop }

/-- The registers after reset. -/
def resetState (ram : BitVec aw → BitVec 8) : TxUart aw where
  fifo := Fifo.resetState ram
  state := .idle
  returnState := .idle
  bitIdx := 0
  txDataReg := 0
  waitStates := 0
  fifoPop := false
  txOut := true

/-- The shifter takes a byte. -/
def takes : Bool := s.state == .idle && !s.fifo.empty

end TxUart

/-! ## The receiver -/

/-- The states of `rx_uart`. -/
inductive RxState
  | idle | verify | data | stop | wait
  deriving DecidableEq, Repr

/-- The registers of `rx_uart`. -/
structure RxUart (aw : ℕ) where
  fifo : Fifo aw (BitVec 8)
  state : RxState
  returnState : RxState
  bitIdx : BitVec 3
  rxData : BitVec 8
  ready : Bool
  error : Bool
  waitStates : BitVec 17
  rxInSync : BitVec 3

/-- `x[i] <= b`. -/
def putBit (x : BitVec 8) (i : BitVec 3) (b : Bool) : BitVec 8 :=
  if b then x ||| (1#8 <<< i.toNat) else x &&& ~~~(1#8 <<< i.toNat)

namespace RxUart

variable {aw : ℕ} (v : UartVersion) (div : BitVec 16) (s : RxUart aw) (rxIn dataRd : Bool)

/-- `data`: all ones if there is no byte. -/
def data : Word := if s.fifo.empty then 0xFFFFFFFF#32 else s.fifo.dout.setWidth 32

/-- The byte that is put into the buffer. -/
def push : Bool := s.ready && !s.fifo.full

/-- `rx_in_sync[2]`. -/
def sample : Bool := s.rxInSync.getLsbD 2

/-- `rx_in_sync[2:1] == 2'b10`. -/
def edge : Bool := s.rxInSync.getLsbD 2 && !s.rxInSync.getLsbD 1

/-- A wait before `st`. -/
def waitFor (s : RxUart aw) (n : BitVec 17) (st : RxState) : RxUart aw :=
  { s with waitStates := n, returnState := st, state := .wait }

/-- The shifter after the edge, with the synchroniser and the buffer as they are. -/
def shift : RxUart aw :=
  match s.state with
  | .idle =>
    let s' := { s with
      ready := false
      error := false
      bitIdx := match v with
        | .first => s.bitIdx
        | .second => 0#3 }
    if s.edge then waitFor s' ((div >>> 1).setWidth 17) .verify else s'
  | .verify => if s.sample then { s with state := .idle } else waitFor s (div.setWidth 17) .data
  | .data =>
    waitFor { s with rxData := putBit s.rxData s.bitIdx s.sample, bitIdx := s.bitIdx + 1 }
      (div.setWidth 17) (if s.bitIdx = 7#3 then .stop else .data)
  | .stop =>
    if s.sample then
      match v with
      | .first => waitFor s (div.setWidth 17) .idle
      | .second => waitFor { s with ready := true } (div.setWidth 17 >>> 2) .idle
    else { s with error := true, state := .idle }
  | .wait =>
    match v with
    | .first =>
      let s' := { s with waitStates := s.waitStates - 1 }
      if s.waitStates = 1#17 then
        { s' with state := s.returnState, ready := s.ready || s.returnState == .idle }
      else s'
    | .second =>
      let s' := { s with ready := false }
      if s.waitStates = 1#17 then { s' with state := s.returnState }
      else { s' with waitStates := s.waitStates - 1 }

/-- One clock edge. -/
def next : RxUart aw :=
  { s.shift v div with
    fifo := s.fifo.next s.rxData s.push (dataRd && !s.fifo.empty)
    rxInSync := s.rxInSync.extractLsb' 0 2 ++ BitVec.ofBool rxIn }

/-- The registers after reset. -/
def resetState (ram : BitVec aw → BitVec 8) : RxUart aw where
  fifo := Fifo.resetState ram
  state := .idle
  returnState := .idle
  bitIdx := 0
  rxData := 0
  ready := false
  error := false
  waitStates := 1
  rxInSync := match v with
    | .first => 0b000#3
    | .second => 0b111#3

end RxUart

end KianRiscV
