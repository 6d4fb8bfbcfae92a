import LoomImport.Netlist
import LoomImport.Lib.Words

/-!
# The simlib meaning of the combinational cells

What Yosys' simulation library says a cell computes, for operands and result of any widths: operands are extended by their
signedness to the width the Verilog expression is evaluated at, and the result is truncated or zero-extended to Y. A binary cell
is signed when both operands are. This is the reference the translated expressions are compared with; it is not what the adapter
computes.
-/

namespace LoomImport

open Words

/-- What a cell fixes about its operation: the signedness and number of bits of its operands, and the number of bits of Y. -/
structure Shape where
  aSigned : Bool
  bSigned : Bool
  aWidth : Nat
  bWidth : Nat
  width : Nat
  deriving Repr, DecidableEq

namespace Shape

/-- Both operands are signed. -/
def signed (sh : Shape) : Bool := sh.aSigned && sh.bSigned

/-- The width an arithmetic operation is evaluated at. -/
def operationWidth (sh : Shape) : Nat := max sh.aWidth (max sh.bWidth sh.width)

/-- The width a comparison is evaluated at. -/
def comparisonWidth (sh : Shape) : Nat := max sh.aWidth sh.bWidth

/-- The width a shift is evaluated at: the amount does not count. -/
def shiftWidth (sh : Shape) : Nat := max sh.aWidth sh.width

end Shape

namespace Simlib

/-- A truth value as a result: one bit, zero-extended. -/
def truth (w : Nat) (b : Bool) : BitVec w := (BitVec.ofBool b).setWidth w

/-- The cells with one operand. -/
def unary (kind : UnaryKind) (sh : Shape) (a : BitVec sh.aWidth) : BitVec sh.width :=
  match kind with
  | .not => (~~~(extend sh.aSigned sh.shiftWidth a)).setWidth sh.width
  | .neg => (-(extend sh.aSigned sh.shiftWidth a)).setWidth sh.width
  | .logicNot => truth sh.width (a = 0)
  | .reduceAnd => truth sh.width (a = BitVec.allOnes sh.aWidth)
  | .reduceOr | .reduceBool => truth sh.width (a ≠ 0)

/-- An arithmetic or bitwise operation: evaluated at the widest of the three widths. -/
def arithmetic (op : (w : Nat) → BitVec w → BitVec w → BitVec w) (sh : Shape) (a : BitVec sh.aWidth)
    (b : BitVec sh.bWidth) : BitVec sh.width :=
  (op sh.operationWidth (extend sh.signed sh.operationWidth a) (extend sh.signed sh.operationWidth b)).setWidth sh.width

/-- A comparison: evaluated at the wider of the two operands, signed when both are. -/
def comparison (op : Bool → (w : Nat) → BitVec w → BitVec w → Bool) (sh : Shape) (a : BitVec sh.aWidth)
    (b : BitVec sh.bWidth) : BitVec sh.width :=
  truth sh.width (op sh.signed sh.comparisonWidth (extend sh.signed sh.comparisonWidth a) (extend sh.signed sh.comparisonWidth b))

/-- Less than, signed or unsigned. -/
def less (signed : Bool) {w : Nat} (a b : BitVec w) : Bool := if signed then a.slt b else a.ult b

/-- The operand of a shift, at the width the shift is evaluated at. -/
def shifted (sh : Shape) (a : BitVec sh.aWidth) : BitVec sh.shiftWidth := extend sh.aSigned sh.shiftWidth a

/-- `$shift`: right by a non-negative amount, left by the magnitude of a negative one, zero fill. -/
def shift (sh : Shape) (a : BitVec sh.aWidth) (b : BitVec sh.bWidth) : BitVec sh.width :=
  (if sh.bSigned && decide (b.toInt < 0) then shifted sh a <<< b.toInt.natAbs
    else shifted sh a >>> b.toNat).setWidth sh.width

/-- `$div`: truncating division at the widest of the three widths. -/
def div (sh : Shape) (a : BitVec sh.aWidth) (b : BitVec sh.bWidth) : BitVec sh.width :=
  arithmetic (fun _ x y => if sh.signed then x.sdiv y else x / y) sh a b

/-- `$mod`: the remainder, with the sign of the dividend. -/
def mod (sh : Shape) (a : BitVec sh.aWidth) (b : BitVec sh.bWidth) : BitVec sh.width :=
  arithmetic (fun _ x y => if sh.signed then x.srem y else x % y) sh a b

/-- The cells with the two operands A and B. -/
def binary (kind : BinaryKind) (sh : Shape) (a : BitVec sh.aWidth) (b : BitVec sh.bWidth) : BitVec sh.width :=
  match kind with
  | .logicAnd => truth sh.width (a ≠ 0 && b ≠ 0)
  | .logicOr => truth sh.width (a ≠ 0 || b ≠ 0)
  | .eq => comparison (fun _ _ x y => x = y) sh a b
  | .ne => comparison (fun _ _ x y => !decide (x = y)) sh a b
  | .lt => comparison (fun s _ x y => less s x y) sh a b
  | .le => comparison (fun s _ x y => !less s y x) sh a b
  | .ge => comparison (fun s _ x y => !less s x y) sh a b
  | .gt => comparison (fun s _ x y => less s y x) sh a b
  | .and => arithmetic (fun _ x y => x &&& y) sh a b
  | .or => arithmetic (fun _ x y => x ||| y) sh a b
  | .xor => arithmetic (fun _ x y => x ^^^ y) sh a b
  | .add => arithmetic (fun _ x y => x + y) sh a b
  | .sub => arithmetic (fun _ x y => x - y) sh a b
  | .mul => arithmetic (fun _ x y => x * y) sh a b
  | .div => div sh a b
  | .mod => mod sh a b
  | .shl => (shifted sh a <<< b.toNat).setWidth sh.width
  | .shr => (shifted sh a >>> b.toNat).setWidth sh.width
  | .sshr => (if sh.aSigned then (shifted sh a).sshiftRight b.toNat else shifted sh a >>> b.toNat).setWidth sh.width
  | .shift => shift sh a b

/-- `$mux`: B when S is set, A otherwise. -/
def mux {w : Nat} (a b : BitVec w) (s : Bool) : BitVec w := if s then b else a

/-- `$shiftx` with an unsigned amount and zeros outside A: bit `i` of the result is bit `B + i` of A. -/
def shiftx (sh : Shape) (a : BitVec sh.aWidth) (b : BitVec sh.bWidth) : BitVec sh.width :=
  ofBits sh.width fun i => if b.toNat + i < sh.aWidth then a.getLsbD (b.toNat + i) else false

end Simlib

end LoomImport
