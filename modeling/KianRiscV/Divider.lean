/-
# The divider

`divider.v`: restoring division on absolute values that starts at the leading one
of the dividend, with a shift path for powers of two and an early exit for a zero
dividend or divisor.  `design_func.vh` supplies `clz32` and `ctz32`.
-/
import KianRiscV.Multiplier

namespace KianRiscV

/-- `clz32`: the number of leading zeros, by halving. -/
def clz32 (x : Word) : ℕ :=
  if x = 0#32 then 32
  else
    let (n, y) := (0, x)
    let (n, y) := if y.extractLsb' 16 16 = 0#16 then (n + 16, y <<< 16) else (n, y)
    let (n, y) := if y.extractLsb' 24 8 = 0#8 then (n + 8, y <<< 8) else (n, y)
    let (n, y) := if y.extractLsb' 28 4 = 0#4 then (n + 4, y <<< 4) else (n, y)
    let (n, y) := if y.extractLsb' 30 2 = 0#2 then (n + 2, y <<< 2) else (n, y)
    if y.getLsbD 31 then n else n + 1

/-- The one-hot states of `divider`. -/
inductive DivState where
  | idle | calc | ready | fast
  deriving DecidableEq, Repr

/-- The registers of `divider`. -/
structure Divider where
  divState : DivState
  ready : Bool
  remRslt : Word
  quoRslt : Word
  iterCnt : BitVec 6
  dividentQ : Word
  divisorQ : Word
  divOpQ : DivOp
  dvdQ : Word
  bitIdx : BitVec 5
  pow2ShiftQ : BitVec 5
  deriving DecidableEq

namespace Divider

/-- The registers after reset. -/
def reset : Divider where
  divState := .idle
  ready := false
  remRslt := 0
  quoRslt := 0
  iterCnt := 0
  dividentQ := 0
  divisorQ := 0
  divOpQ := .div
  dvdQ := 0
  bitIdx := 0
  pow2ShiftQ := 0

/-- `is_signed_q` and `is_signed_in`: `DIV` and `REM`. -/
def isSigned (op : DivOp) : Bool := op == .div || op == .rem

/-- `divident_abs_*` and `divisor_abs_*`. -/
def absOf (op : DivOp) (v : Word) : Word :=
  if isSigned op && v.getLsbD 31 then ~~~v + 1#32 else v

/-- `iter_cnt_init_in`. -/
def iterCntInit (dividentAbs : Word) : ℕ :=
  if dividentAbs = 0#32 then 0 else 32 - clz32 dividentAbs

/-- `is_pow2_in`. -/
def isPow2 (divisorAbs : Word) : Bool :=
  divisorAbs != 0#32 && (divisorAbs &&& (divisorAbs - 1#32)) == 0#32

/-- `divOrRemRslt`. -/
def divOrRemRslt (d : Divider) : Word :=
  if d.divOpQ = .div ∨ d.divOpQ = .divu then d.quoRslt else d.remRslt

/-- One clock edge of `divider`. -/
def next (d : Divider) (divident divisor : Word) (divOp : DivOp) (valid : Bool) : Divider :=
  match d.divState with
  | .idle =>
    let dividentAbsIn := absOf divOp divident
    let divisorAbsIn := absOf divOp divisor
    let lz := clz32 dividentAbsIn
    if !d.ready && valid then
      { ready := false
        dividentQ := divident
        divisorQ := divisor
        divOpQ := divOp
        dvdQ := dividentAbsIn
        iterCnt := BitVec.ofNat 6 (iterCntInit dividentAbsIn)
        bitIdx := if lz = 32 then 0 else BitVec.ofNat 5 (31 - lz)
        remRslt := 0
        quoRslt := 0
        pow2ShiftQ := BitVec.ofNat 5 (ctz32 divisorAbsIn)
        divState :=
          if divisorAbsIn = 0#32 ∨ iterCntInit dividentAbsIn = 0 then .ready
          else if isPow2 divisorAbsIn then .fast
          else .calc }
    else { d with ready := false }
  | .fast =>
    let dividentAbsQ := absOf d.divOpQ d.dividentQ
    let divisorAbsQ := absOf d.divOpQ d.divisorQ
    { d with remRslt := dividentAbsQ &&& (divisorAbsQ - 1#32)
             quoRslt := dividentAbsQ >>> d.pow2ShiftQ.toNat
             divState := .ready }
  | .calc =>
    let divisorAbsQ := absOf d.divOpQ d.divisorQ
    let inBit := d.dvdQ.getLsbD d.bitIdx.toNat
    let remRsltNext := (d.remRslt <<< 1) ||| boolWord inBit
    let remRsltSub : BitVec 33 := remRsltNext.setWidth 33 - divisorAbsQ.setWidth 33
    { d with remRslt := if remRsltSub.getLsbD 32 then remRsltNext else remRsltSub.setWidth 32
             quoRslt := if remRsltSub.getLsbD 32 then d.quoRslt <<< 1
                        else (d.quoRslt <<< 1) ||| 1#32
             bitIdx := d.bitIdx - 1
             iterCnt := d.iterCnt - 1
             divState := if d.iterCnt = 1#6 then .ready else .calc }
  | .ready =>
    let divisorAbsQ := absOf d.divOpQ d.divisorQ
    let signed := isSigned d.divOpQ
    let negQuo := signed && (d.dividentQ.getLsbD 31 ^^ d.divisorQ.getLsbD 31)
    let negRem := signed && d.dividentQ.getLsbD 31
    { d with quoRslt := if divisorAbsQ = 0#32 then 0xFFFFFFFF#32
                        else if negQuo then ~~~d.quoRslt + 1#32 else d.quoRslt
             remRslt := if divisorAbsQ = 0#32 then d.dividentQ
                        else if negRem then ~~~d.remRslt + 1#32 else d.remRslt
             ready := true
             divState := .idle }

end Divider

end KianRiscV
