/-
# The multiplier

`multiplier.v` in both builds: the iterative shift-add machine with its
trailing-zero skip and early exit, and the `FPGA_MULTIPLIER` build with one wide
product.  `design_func.vh` supplies `ctz32`.
-/
import KianRiscV.Alu

namespace KianRiscV

/-- `ctz32`: the number of trailing zeros, by halving. -/
def ctz32 (x : Word) : ℕ :=
  if x = 0#32 then 32
  else
    let (n, y) := (0, x)
    let (n, y) := if y.extractLsb' 0 16 = 0#16 then (n + 16, y >>> 16) else (n, y)
    let (n, y) := if y.extractLsb' 0 8 = 0#8 then (n + 8, y >>> 8) else (n, y)
    let (n, y) := if y.extractLsb' 0 4 = 0#4 then (n + 4, y >>> 4) else (n, y)
    let (n, y) := if y.extractLsb' 0 2 = 0#2 then (n + 2, y >>> 2) else (n, y)
    if y.getLsbD 0 then n else n + 1

/-- The one-hot states of `multiplier`. -/
inductive MulState where
  | idle | prep | calc | mul1 | ready | done
  deriving DecidableEq, Repr

/-- The registers of `multiplier`, of both builds. -/
structure Multiplier where
  state : MulState
  ready : Bool
  aQ : Word
  bQ : Word
  mulOpQ : MulOp
  acc : BitVec 64
  mcand : BitVec 64
  mulr : Word
  prodNegR : Bool
  resQ : Word
  aDsp : Word
  bDsp : Word
  deriving DecidableEq

namespace Multiplier

/-- The registers after reset. -/
def reset : Multiplier where
  state := .idle
  ready := false
  aQ := 0
  bQ := 0
  mulOpQ := .mul
  acc := 0
  mcand := 0
  mulr := 0
  prodNegR := false
  resQ := 0
  aDsp := 0
  bDsp := 0

/-- `a_signed_q`: `MULH` and `MULHSU`. -/
def aSigned (op : MulOp) : Bool := op == .mulh || op == .mulsu

/-- `b_signed_q`: `MULH`. -/
def bSigned (op : MulOp) : Bool := op == .mulh

/-- `a_abs` and `b_abs`: two's complement absolute value of a signed operand. -/
def absOf (signed : Bool) (v : Word) : Word :=
  if signed && v.getLsbD 31 then ~~~v + 1#32 else v

/-- The value `res_q` takes in `READY`: the low or high word of the accumulator,
negated when the product is negative. -/
def resultOf (op : MulOp) (neg : Bool) (acc : BitVec 64) : Word :=
  let accLo := acc.extractLsb' 0 32
  let accHi := acc.extractLsb' 32 32
  let loTc := ~~~accLo + 1#32
  let hiTc := ~~~accHi + boolWord (accLo == 0#32)
  match op with
  | .mul => if neg then loTc else accLo
  | _ => if neg then hiTc else accHi

/-- One clock edge of `multiplier`; `fpga` selects the `FPGA_MULTIPLIER` build. -/
def next (fpga : Bool) (m : Multiplier) (multiplicandOp multiplierOp : Word) (mulOp : MulOp)
    (valid : Bool) : Multiplier :=
  match m.state with
  | .idle =>
    let m := { m with ready := false }
    if valid then
      { m with aQ := multiplicandOp, bQ := multiplierOp, mulOpQ := mulOp, state := .prep }
    else m
  | .prep =>
    let aAbs := absOf (aSigned m.mulOpQ) m.aQ
    let bAbs := absOf (bSigned m.mulOpQ) m.bQ
    let m := { m with prodNegR :=
      (aSigned m.mulOpQ && m.aQ.getLsbD 31) ^^ (bSigned m.mulOpQ && m.bQ.getLsbD 31) }
    if fpga then { m with aDsp := aAbs, bDsp := bAbs, state := .mul1 }
    else if bAbs = 0#32 then { m with acc := 0, mcand := 0, mulr := 0, state := .ready }
    else
      { m with acc := 0, mcand := aAbs.setWidth 64 <<< ctz32 bAbs,
               mulr := bAbs >>> ctz32 bAbs, state := .calc }
  | .calc =>
    if fpga then m
    else
      let mulrNext := m.mulr >>> 1
      { m with acc := if m.mulr.getLsbD 0 then m.acc + m.mcand else m.acc
               mcand := m.mcand <<< 1
               mulr := mulrNext
               state := if mulrNext = 0#32 then .ready else .calc }
  | .mul1 =>
    if fpga then
      { m with acc := m.aDsp.setWidth 64 * m.bDsp.setWidth 64, state := .ready }
    else m
  | .ready => { m with resQ := resultOf m.mulOpQ m.prodNegR m.acc, state := .done }
  | .done => if valid then { m with ready := true } else { m with ready := false, state := .idle }

end Multiplier

end KianRiscV
