import LoomImport.Denotes
import LoomImport.Simlib

/-!
# The expressions the adapter builds

The helper functions of the adapter that build an expression from operand expressions, and the expression each kind of
combinational cell becomes once its operands are translated.
-/

namespace LoomImport

open ImportIR

/-- A slice, left out when it takes the whole value. -/
def sliceExpr (value : Expr) (offset width : Nat) (src : SourceLocation) : Expr :=
  if offset = 0 ∧ value.width = width then value else .slice width value offset src

/-- A value at another width: extended by its signedness, or its low bits. -/
def resize (value : Expr) (width : Nat) (signed : Bool) (src : SourceLocation) : Expr :=
  if value.width = width then value
  else if value.width < width then
    if signed then .signExtend width value src else .zeroExtend width value src
  else sliceExpr value 0 width src

/-- One bit: whether the value is not zero. -/
def booleanize (value : Expr) (src : SourceLocation) : Expr := .unary 1 .reduceBool value src

/-- The arithmetic right shift: a logical shift over a sign extension twice as wide for the amounts in range, and the sign
itself for the others. -/
def arithmeticShiftRight (value amount : Expr) (width : Nat) (signedValue : Bool) (src : SourceLocation) : Expr :=
  let baseWidth := max value.width width
  let workWidth := max (if signedValue then baseWidth * 2 else baseWidth) amount.width
  let value := resize value workWidth signedValue src
  let amount := resize amount workWidth false src
  let shifted := Expr.binary value.width .logicalShiftRight value amount src
  let shifted :=
    if signedValue then
      let sign := sliceExpr value (value.width - 1) 1 src
      let fill := Expr.mux value.width sign (.literal value.width (1 <<< value.width - 1) src)
        (.literal value.width 0 src) src
      let inRange := Expr.binary 1 .unsignedLessThan amount (.literal value.width baseWidth src) src
      .mux value.width inRange shifted fill src
    else shifted
  resize shifted width signedValue src

/-- The branch of `$shift`: right by the amount, or left by its magnitude when it is signed and negative. -/
def variableShift (value amountRaw : Expr) (width : Nat) (valueSigned amountSigned : Bool) (src : SourceLocation) : Expr :=
  let workWidth := max (max value.width amountRaw.width) width
  let value := resize value workWidth valueSigned src
  let amount := resize amountRaw workWidth amountSigned src
  let right := Expr.binary workWidth .logicalShiftRight value amount src
  let shifted :=
    if amountSigned then
      let negative := sliceExpr amount (workWidth - 1) 1 src
      let magnitude := Expr.unary workWidth .negate amount src
      let left := Expr.binary workWidth .shiftLeft value magnitude src
      .mux workWidth negative left right src
    else right
  resize shifted width valueSigned src

/-- `$not` and `$neg`: the operand at the width of the result. -/
def widthUnary (op : UnaryOp) (sh : Shape) (src : SourceLocation) (value : Expr) : Expr :=
  .unary sh.width op (resize value sh.width sh.aSigned src) src

/-- `$logic_not` and the reductions: one bit, zero-extended. -/
def reduction (op : UnaryOp) (sh : Shape) (src : SourceLocation) (value : Expr) : Expr :=
  resize (.unary 1 op value src) sh.width false src

/-- The cells with one operand. -/
def unaryCell (kind : UnaryKind) (sh : Shape) (src : SourceLocation) (value : Expr) : Expr :=
  match kind with
  | .not => widthUnary .bitNot sh src value
  | .neg => widthUnary .negate sh src value
  | .logicNot => reduction .logicalNot sh src value
  | .reduceAnd => reduction .reduceAnd sh src value
  | .reduceOr | .reduceBool => reduction .reduceBool sh src value

/-- `$logic_and` and `$logic_or`: both operands as truth values. -/
def logicCell (op : BinaryOp) (sh : Shape) (src : SourceLocation) (left right : Expr) : Expr :=
  resize (.binary 1 op (booleanize left src) (booleanize right src) src) sh.width false src

/-- The comparisons: both operands at the width of the wider one, then `compared`, zero-extended. -/
def comparisonCell (compared : Expr → Expr → Expr) (sh : Shape) (src : SourceLocation) (left right : Expr) : Expr :=
  let operandWidth := max sh.aWidth sh.bWidth
  resize (compared (resize left operandWidth sh.aSigned src) (resize right operandWidth sh.bSigned src)) sh.width false src

/-- Signed when both operands are. -/
def lessOp (sh : Shape) : BinaryOp := if sh.aSigned && sh.bSigned then .signedLessThan else .unsignedLessThan

/-- The remaining binary cells: both operands at the width of the result. -/
def widthBinary (op : BinaryOp) (sh : Shape) (src : SourceLocation) (left right : Expr) : Expr :=
  .binary sh.width op (resize left sh.width sh.aSigned src) (resize right sh.width sh.bSigned src) src

/-- The cells with the two operands A and B. -/
def binaryCell (kind : BinaryKind) (sh : Shape) (src : SourceLocation) (left right : Expr) : Expr :=
  match kind with
  | .logicAnd => logicCell .bitAnd sh src left right
  | .logicOr => logicCell .bitOr sh src left right
  | .sshr => arithmeticShiftRight left right sh.width sh.aSigned src
  | .shift => variableShift left right sh.width sh.aSigned sh.bSigned src
  | .eq => comparisonCell (fun l r => .binary 1 .equal l r src) sh src left right
  | .ne => comparisonCell (fun l r => .unary 1 .logicalNot (.binary 1 .equal l r src) src) sh src left right
  | .lt => comparisonCell (fun l r => .binary 1 (lessOp sh) l r src) sh src left right
  | .gt => comparisonCell (fun l r => .binary 1 (lessOp sh) r l src) sh src left right
  | .ge => comparisonCell (fun l r => .unary 1 .logicalNot (.binary 1 (lessOp sh) l r src) src) sh src left right
  | .le => comparisonCell (fun l r => .unary 1 .logicalNot (.binary 1 (lessOp sh) r l src) src) sh src left right
  | .and => widthBinary .bitAnd sh src left right
  | .or => widthBinary .bitOr sh src left right
  | .xor => widthBinary .bitXor sh src left right
  | .add => widthBinary .add sh src left right
  | .sub => widthBinary .sub sh src left right
  | .mul => widthBinary .mul sh src left right
  | .div => widthBinary .unsignedDiv sh src left right
  | .mod => widthBinary .unsignedRem sh src left right
  | .shl => widthBinary .shiftLeft sh src left right
  | .shr => widthBinary .logicalShiftRight sh src left right

/-- `$mux`: B, A and S in the order they are translated. -/
def muxCell (width : Nat) (src : SourceLocation) (yes no condition : Expr) : Expr :=
  .mux width condition (resize yes width false src) (resize no width false src) src

/-- The accepted branch of `$shiftx`: a logical shift of A with the fill above it, and the fill for amounts outside A. -/
def partSelect (value amount fill : Expr) (width : Nat) (src : SourceLocation) : Expr :=
  let extended := Expr.concat (value.width + width) fill value src
  let workWidth := max extended.width amount.width
  let extended := resize extended workWidth false src
  let amount := resize amount workWidth false src
  let shifted := Expr.binary workWidth .logicalShiftRight extended amount src
  let selected := resize shifted width false src
  let inRange := Expr.binary 1 .unsignedLessThan amount (.literal workWidth value.width src) src
  .mux width inRange selected fill src

/-- Parts given most significant first, concatenated. -/
def concatParts (src : SourceLocation) (first : Expr) (rest : List Expr) : Expr :=
  rest.foldl (fun value part => .concat (value.width + part.width) value part src) first

/-! ## What the helpers denote -/

namespace ImportIR.Denotes

open Words

variable {σ : Hw.St} {w : Nat} {e : Expr} {v : BitVec w}

theorem sliceExpr (h : Denotes σ e v) {offset width : Nat} (hw : 0 < width) (hfit : offset + width ≤ w)
    (src : SourceLocation) : Denotes σ (sliceExpr e offset width src) (v.extractLsb' offset width) := by
  unfold LoomImport.sliceExpr
  split
  · rename_i hc
    obtain ⟨rfl, hwidth⟩ := hc
    rw [h.width_eq] at hwidth
    subst hwidth
    rw [BitVec.extractLsb'_eq_self]
    exact h
  · exact h.slice hw hfit src

theorem resize (h : Denotes σ e v) {width : Nat} (hw : 0 < width) (signed : Bool) (src : SourceLocation) :
    Denotes σ (resize e width signed src) (extend signed width v) := by
  unfold LoomImport.resize
  rw [h.width_eq]
  split
  · rename_i hc
    subst hc
    rw [extend_self]
    exact h
  · split
    · rename_i hlt
      cases signed
      · exact h.zeroExtend (Nat.le_of_lt hlt) src
      · exact h.signExtend (Nat.le_of_lt hlt) src
    · rename_i hge
      have hle : width ≤ w := Nat.le_of_not_lt hge
      rw [extend_of_le signed hle, BitVec.setWidth_eq_extractLsb' hle]
      exact sliceExpr h hw (by omega) src

theorem booleanize (h : Denotes σ e v) (src : SourceLocation) :
    Denotes σ (booleanize e src) (BitVec.ofBool (v ≠ 0)) :=
  h.reduce .reduceBool rfl src

/-- Concatenating parts, most significant first, appends their values. -/
theorem concatParts_cons (h : Denotes σ e v) {e' : Expr} {w' : Nat} {v' : BitVec w'} (h' : Denotes σ e' v')
    (src : SourceLocation) (rest : List Expr) :
    concatParts src e (e' :: rest) = concatParts src (.concat (w + w') e e' src) rest ∧
      Denotes σ (.concat (w + w') e e' src) (v ++ v') := by
  refine ⟨?_, h.concat h' src⟩
  simp only [concatParts, List.foldl_cons, h.width_eq, h'.width_eq]

end ImportIR.Denotes

end LoomImport
