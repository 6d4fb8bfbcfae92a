import LoomImport.Builders

/-!
# The cells that are neither shifts nor divisions

Every such cell, translated over operand expressions, denotes the simlib value of the operands' values: the arithmetic and bitwise
cells because their operations commute with truncation, the comparisons because they are evaluated at the wider operand.
-/

namespace LoomImport

open ImportIR Words

/-- The binary cells that are neither shifts nor divisions. -/
def BinaryKind.isPlain : BinaryKind → Bool
  | .sshr | .shift | .shl | .shr | .div | .mod => false
  | _ => true

namespace CellsAux

/-- An operation that only carries upwards, evaluated at the result's width instead of the widest one, gives the same bits. -/
theorem arithmetic_eq (op : (w : Nat) → BitVec w → BitVec w → BitVec w)
    (hop : ∀ {w v : Nat}, v ≤ w → ∀ x y : BitVec w, (op w x y).setWidth v = op v (x.setWidth v) (y.setWidth v))
    {sh : Shape} (hs : sh.aSigned = sh.bSigned) (a : BitVec sh.aWidth) (b : BitVec sh.bWidth) :
    Simlib.arithmetic op sh a b = op sh.width (extend sh.aSigned sh.width a) (extend sh.bSigned sh.width b) := by
  have hle : sh.width ≤ sh.operationWidth := by
    simp only [Shape.operationWidth]
    omega
  have hsigned : sh.signed = sh.aSigned := by simp [Shape.signed, ← hs]
  rw [Simlib.arithmetic, hop hle, setWidth_extend _ hle, setWidth_extend _ hle, hsigned, hs]

/-- One bit, zero-extended, is the truth value as a result. -/
theorem resize_truth {σ : Hw.St} {e : Expr} {b : Bool} (h : Denotes σ e (BitVec.ofBool b)) {w : Nat} (hw : 0 < w)
    (src : SourceLocation) : Denotes σ (resize e w false src) (Simlib.truth w b) :=
  h.resize hw false src

/-- The adapter's less-than is the simlib one. -/
theorem lessOp_compare (sh : Shape) {w : Nat} (x y : BitVec w) :
    (lessOp sh).compare x y = Simlib.less sh.signed x y := by
  unfold lessOp Shape.signed Simlib.less
  split <;> simp_all [BinaryOp.compare]

theorem lessOp_isComparison (sh : Shape) : (lessOp sh).isComparison = true := by
  unfold lessOp
  split <;> rfl

end CellsAux

open CellsAux

section

variable {σ : Hw.St} {sh : Shape} {src : SourceLocation}

/-- The cells with one operand denote their simlib value. -/
theorem unaryCell_denotes (kind : UnaryKind) (hw : 0 < sh.width) {e : Expr} {a : BitVec sh.aWidth} (h : Denotes σ e a) :
    Denotes σ (unaryCell kind sh src e) (Simlib.unary kind sh a) := by
  have hle : sh.width ≤ sh.shiftWidth := by
    simp only [Shape.shiftWidth]
    omega
  cases kind with
  | not =>
    rw [Simlib.unary, BitVec.setWidth_not hle, setWidth_extend _ hle]
    exact (h.resize hw sh.aSigned src).bitNot src
  | neg =>
    rw [Simlib.unary, BitVec.setWidth_neg_of_le hle, setWidth_extend _ hle]
    exact (h.resize hw sh.aSigned src).negate src
  | logicNot => exact resize_truth (h.reduce .logicalNot rfl src) hw src
  | reduceAnd => exact resize_truth (h.reduce .reduceAnd rfl src) hw src
  | reduceOr => exact resize_truth (h.reduce .reduceBool rfl src) hw src
  | reduceBool => exact resize_truth (h.reduce .reduceBool rfl src) hw src

/-- Both operands at the width of the result: what the adapter computes for every such operation, right or not. -/
theorem widthBinary_denotes (op : BinaryOp) (hop : op.isComparison = false) (hw : 0 < sh.width) {l r : Expr}
    {a : BitVec sh.aWidth} {b : BitVec sh.bWidth} (hl : Denotes σ l a) (hr : Denotes σ r b) :
    Denotes σ (widthBinary op sh src l r)
      (op.apply (extend sh.aSigned sh.width a) (extend sh.bSigned sh.width b)) :=
  (hl.resize hw sh.aSigned src).apply op hop (hr.resize hw sh.bSigned src) src

/-- A comparison cell denotes the simlib comparison, when the operands have one signedness. -/
theorem comparisonCell_denotes (hs : sh.aSigned = sh.bSigned) (hw : 0 < sh.width)
    (op : Bool → (w : Nat) → BitVec w → BitVec w → Bool) {compared : Expr → Expr → Expr}
    (hc : ∀ {w : Nat} {l r : Expr} {x y : BitVec w}, Denotes σ l x → Denotes σ r y →
      Denotes σ (compared l r) (BitVec.ofBool (op sh.signed w x y)))
    {l r : Expr} {a : BitVec sh.aWidth} {b : BitVec sh.bWidth} (hl : Denotes σ l a) (hr : Denotes σ r b) :
    Denotes σ (comparisonCell compared sh src l r) (Simlib.comparison op sh a b) := by
  have hpos : 0 < sh.comparisonWidth := lt_of_lt_of_le hl.pos (Nat.le_max_left _ _)
  have hsigned : sh.signed = sh.aSigned := by simp [Shape.signed, ← hs]
  have h := hc (hl.resize hpos sh.aSigned src) (hr.resize hpos sh.bSigned src)
  rw [← hs, ← hsigned] at h
  unfold comparisonCell
  rw [← hs, ← hsigned]
  exact resize_truth h hw src

/-- Every binary cell that is neither a shift nor a division denotes its simlib value, when its operands have one signedness. -/
theorem binaryCell_denotes {kind : BinaryKind} (hk : kind.isPlain = true) (hs : sh.aSigned = sh.bSigned)
    (hw : 0 < sh.width) {l r : Expr} {a : BitVec sh.aWidth} {b : BitVec sh.bWidth} (hl : Denotes σ l a)
    (hr : Denotes σ r b) : Denotes σ (binaryCell kind sh src l r) (Simlib.binary kind sh a b) := by
  have less : ∀ {w : Nat} {l r : Expr} {x y : BitVec w}, Denotes σ l x → Denotes σ r y →
      Denotes σ (.binary 1 (lessOp sh) l r src) (BitVec.ofBool (Simlib.less sh.signed x y)) := by
    intro w l r x y hx hy
    rw [← lessOp_compare]
    exact hx.compare (lessOp sh) (lessOp_isComparison sh) hy src
  have notLess : ∀ {w : Nat} {l r : Expr} {x y : BitVec w}, Denotes σ l x → Denotes σ r y →
      Denotes σ (.unary 1 .logicalNot (.binary 1 (lessOp sh) l r src) src)
        (BitVec.ofBool (!Simlib.less sh.signed x y)) := by
    intro w l r x y hx hy
    have h := (less hx hy).reduce .logicalNot rfl src
    cases hb : Simlib.less sh.signed x y <;> rw [hb] at h <;> exact h
  have notEqual : ∀ {w : Nat} {l r : Expr} {x y : BitVec w}, Denotes σ l x → Denotes σ r y →
      Denotes σ (.unary 1 .logicalNot (.binary 1 .equal l r src) src) (BitVec.ofBool (!decide (x = y))) := by
    intro w l r x y hx hy
    have h := (hx.compare .equal rfl hy src).reduce .logicalNot rfl src
    by_cases hxy : x = y
    · rw [show BinaryOp.compare .equal x y = true from decide_eq_true hxy] at h
      rw [decide_eq_true hxy]
      exact h
    · rw [show BinaryOp.compare .equal x y = false from decide_eq_false hxy] at h
      rw [decide_eq_false hxy]
      exact h
  cases kind with
  | sshr => cases hk
  | shift => cases hk
  | shl => cases hk
  | shr => cases hk
  | div => cases hk
  | mod => cases hk
  | logicAnd =>
    have h := (hl.booleanize src).apply .bitAnd rfl (hr.booleanize src) src
    refine resize_truth ?_ hw src
    cases ha : decide (a ≠ 0) <;> cases hb : decide (b ≠ 0) <;> rw [ha, hb] at h <;> exact h
  | logicOr =>
    have h := (hl.booleanize src).apply .bitOr rfl (hr.booleanize src) src
    refine resize_truth ?_ hw src
    cases ha : decide (a ≠ 0) <;> cases hb : decide (b ≠ 0) <;> rw [ha, hb] at h <;> exact h
  | eq => exact comparisonCell_denotes hs hw (fun _ _ x y => x = y) (fun hx hy => hx.compare .equal rfl hy src) hl hr
  | ne =>
    exact comparisonCell_denotes hs hw (fun _ _ x y => !decide (x = y)) (fun hx hy => notEqual hx hy) hl hr
  | lt => exact comparisonCell_denotes hs hw (fun s _ x y => Simlib.less s x y) (fun hx hy => less hx hy) hl hr
  | gt => exact comparisonCell_denotes hs hw (fun s _ x y => Simlib.less s y x) (fun hx hy => less hy hx) hl hr
  | ge => exact comparisonCell_denotes hs hw (fun s _ x y => !Simlib.less s x y) (fun hx hy => notLess hx hy) hl hr
  | le => exact comparisonCell_denotes hs hw (fun s _ x y => !Simlib.less s y x) (fun hx hy => notLess hy hx) hl hr
  | and =>
    rw [Simlib.binary, arithmetic_eq (fun _ x y => x &&& y) (fun _ _ _ => BitVec.setWidth_and) hs]
    exact widthBinary_denotes .bitAnd rfl hw hl hr
  | or =>
    rw [Simlib.binary, arithmetic_eq (fun _ x y => x ||| y) (fun _ _ _ => BitVec.setWidth_or) hs]
    exact widthBinary_denotes .bitOr rfl hw hl hr
  | xor =>
    rw [Simlib.binary, arithmetic_eq (fun _ x y => x ^^^ y) (fun _ _ _ => BitVec.setWidth_xor) hs]
    exact widthBinary_denotes .bitXor rfl hw hl hr
  | add =>
    rw [Simlib.binary, arithmetic_eq (fun _ x y => x + y) (fun h x y => BitVec.setWidth_add x y h) hs]
    exact widthBinary_denotes .add rfl hw hl hr
  | sub =>
    rw [Simlib.binary, arithmetic_eq (fun _ x y => x - y) (fun h x y => setWidth_sub h x y) hs]
    exact widthBinary_denotes .sub rfl hw hl hr
  | mul =>
    rw [Simlib.binary, arithmetic_eq (fun _ x y => x * y) (fun h x y => BitVec.setWidth_mul x y h) hs]
    exact widthBinary_denotes .mul rfl hw hl hr

/-- A multiplexer whose operands have the width of its result denotes its simlib value. -/
theorem muxCell_denotes {w : Nat} {yes no condition : Expr} {a b : BitVec w} {s : Bool} (hw : 0 < w)
    (hy : Denotes σ yes b) (hn : Denotes σ no a) (hc : Denotes σ condition (BitVec.ofBool s)) :
    Denotes σ (muxCell w src yes no condition) (Simlib.mux a b s) := by
  have h := Denotes.muxBool hc (hy.resize hw false src) (hn.resize hw false src) src
  rw [extend_self, extend_self] at h
  exact h

end

end LoomImport
