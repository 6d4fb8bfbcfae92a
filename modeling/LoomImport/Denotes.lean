import LoomImport.ImportIR

/-!
# What an import expression denotes

`Denotes σ e v` says that the import expression `e` has a lowering and that the lowering evaluates to `v` in the state `σ`. One
rule per kind of node; every proof about an emitted expression is a chain of these rules, and none unfolds the lowering again.
-/

namespace LoomImport

/-! ## The value of an operator -/

/-- The reductions to one bit. -/
def UnaryOp.reduce : UnaryOp → {w : Nat} → BitVec w → Bool
  | .reduceBool, _, v => v ≠ 0
  | .reduceAnd, w, v => v = BitVec.allOnes w
  | .logicalNot, _, v => v = 0
  | .bitNot, _, _ | .negate, _, _ => false

/-- The comparisons. -/
def BinaryOp.compare : BinaryOp → {w : Nat} → BitVec w → BitVec w → Bool
  | .equal, _, a, b => a = b
  | .unsignedLessThan, _, a, b => a.ult b
  | .signedLessThan, _, a, b => a.slt b
  | _, _, _, _ => false

/-- The operators whose operands and result share one width. -/
def BinaryOp.apply : BinaryOp → {w : Nat} → BitVec w → BitVec w → BitVec w
  | .bitAnd, _, a, b => a &&& b
  | .bitOr, _, a, b => a ||| b
  | .bitXor, _, a, b => a ^^^ b
  | .add, _, a, b => a + b
  | .sub, _, a, b => a - b
  | .mul, _, a, b => a * b
  | .unsignedDiv, _, a, b => a / b
  | .unsignedRem, _, a, b => a % b
  | .shiftLeft, _, a, b => a <<< b.toNat
  | .logicalShiftRight, _, a, b => a >>> b.toNat
  | .equal, _, a, _ | .unsignedLessThan, _, a, _ | .signedLessThan, _, a, _ => a

/-- The operators that compare. -/
def BinaryOp.isComparison : BinaryOp → Bool
  | .equal | .unsignedLessThan | .signedLessThan => true
  | _ => false

/-- The unary operators that reduce to one bit. -/
def UnaryOp.isReduction : UnaryOp → Bool
  | .reduceBool | .reduceAnd | .logicalNot => true
  | .bitNot | .negate => false

namespace ImportIR

/-- The expression lowers at the width of `v`, and the lowering evaluates to `v`. -/
def Denotes (σ : Hw.St) (e : Expr) {w : Nat} (v : BitVec w) : Prop :=
  ∃ le : Hw.Expr w, lowerExpr? e = .ok ⟨w, le⟩ ∧ le.eval σ = v

/-! ## Helpers: the lowering of a node over lowered operands -/

namespace DenotesAux

@[simp] theorem expectWidth_self {w : Nat} (le : Hw.Expr w) (source : SourceLocation) :
    expectWidth w ⟨w, le⟩ source = .ok le := by
  simp [expectWidth]

/-- An expected width that is met gives back the expression itself. -/
theorem expectWidth_eq_ok {w : Nat} {x : LoweredExpr} {source : SourceLocation} {le : Hw.Expr w}
    (h : expectWidth w x source = .ok le) : x = ⟨w, le⟩ := by
  obtain ⟨w', le'⟩ := x
  unfold expectWidth at h
  split at h
  · rename_i hw
    subst hw
    cases h
    rfl
  · cases h

/-- A comparison evaluates to one bit. -/
theorem ite_eq_ofBool (p : Prop) [Decidable p] : (if p then 1#1 else 0#1) = BitVec.ofBool (decide p) := by
  by_cases h : p <;> simp [h]

theorem not_ofBool (b : Bool) : ~~~(BitVec.ofBool b) = BitVec.ofBool (!b) := by
  cases b <;> rfl

theorem ofBool_eq_one (b : Bool) : BitVec.ofBool b = 1#1 ↔ b = true := by
  cases b <;> simp

/-- A bind in `Except` that succeeds has a first result. -/
theorem bind_eq_ok {ε α β : Type} {x : Except ε α} {f : α → Except ε β} {b : β} (h : (x >>= f) = .ok b) :
    ∃ a, x = .ok a ∧ f a = .ok b := by
  cases x with
  | error e => cases h
  | ok a => exact ⟨a, rfl, h⟩

theorem ok_bind {ε α β : Type} (a : α) (f : α → Except ε β) : ((.ok a : Except ε α) >>= f) = f a := rfl

end DenotesAux

open DenotesAux

/-! ## One rule per node -/

namespace Denotes

attribute [local simp] lowerExpr?

variable {σ : Hw.St} {w : Nat}

theorem literal (hw : 0 < w) (value : Nat) (source : SourceLocation) :
    Denotes σ (.literal w value source) (BitVec.ofNat w value) :=
  ⟨.lit (BitVec.ofNat w value), by simp [lowerExpr?, Nat.ne_of_gt hw, pure, Except.pure], rfl⟩

theorem partialLiteral {choice : PartialValue} (h : choice.validB w = true) (source : SourceLocation) :
    Denotes σ (.partialLiteral w choice source) (BitVec.ofNat w choice.implementationValue) :=
  ⟨.lit (BitVec.ofNat w choice.implementationValue), by simp [lowerExpr?, h, pure, Except.pure], rfl⟩

theorem signal (hw : 0 < w) {name : String} (hn : name.isEmpty = false) (source : SourceLocation) :
    Denotes σ (.signal w name source) (σ.regs name w) :=
  ⟨.reg w name, by simp [lowerExpr?, Nat.ne_of_gt hw, hn, pure, Except.pure], rfl⟩

theorem bitNot {e : Expr} {v : BitVec w} (h : Denotes σ e v) (source : SourceLocation) :
    Denotes σ (.unary w .bitNot e source) (~~~v) := by
  obtain ⟨le, hl, rfl⟩ := h
  exact ⟨.not le, by simp [lowerExpr?, hl, ok_bind, lowerUnary?, pure, Except.pure], rfl⟩

theorem negate {e : Expr} {v : BitVec w} (h : Denotes σ e v) (source : SourceLocation) :
    Denotes σ (.unary w .negate e source) (-v) := by
  obtain ⟨le, hl, rfl⟩ := h
  refine ⟨.sub (.lit (BitVec.ofNat w 0)) le, by simp [lowerExpr?, hl, ok_bind, lowerUnary?, pure, Except.pure], ?_⟩
  simp [Hw.Expr.eval]

theorem reduce (op : UnaryOp) (hop : op.isReduction = true) {e : Expr} {v : BitVec w} (h : Denotes σ e v)
    (source : SourceLocation) : Denotes σ (.unary 1 op e source) (BitVec.ofBool (op.reduce v)) := by
  obtain ⟨le, hl, rfl⟩ := h
  cases op with
  | bitNot => cases hop
  | negate => cases hop
  | reduceBool =>
    refine ⟨.not (.eq le (.lit 0)), by simp [lowerExpr?, hl, ok_bind, lowerUnary?, pure, Except.pure], ?_⟩
    rw [Hw.Expr.eval, Hw.Expr.eval, ite_eq_ofBool, not_ofBool]
    by_cases hv : le.eval σ = 0#w <;> simp [UnaryOp.reduce, Hw.Expr.eval, hv]
  | reduceAnd =>
    refine ⟨.eq le (.lit (BitVec.allOnes w)), by simp [lowerExpr?, hl, ok_bind, lowerUnary?, pure, Except.pure], ?_⟩
    rw [Hw.Expr.eval, ite_eq_ofBool]
    rfl
  | logicalNot =>
    refine ⟨.eq le (.lit 0), by simp [lowerExpr?, hl, ok_bind, lowerUnary?, pure, Except.pure], ?_⟩
    rw [Hw.Expr.eval, ite_eq_ofBool]
    rfl

theorem compare (op : BinaryOp) (hop : op.isComparison = true) {l r : Expr} {a b : BitVec w} (hl : Denotes σ l a)
    (hr : Denotes σ r b) (source : SourceLocation) :
    Denotes σ (.binary 1 op l r source) (BitVec.ofBool (op.compare a b)) := by
  obtain ⟨la, hla, rfl⟩ := hl
  obtain ⟨lb, hlb, rfl⟩ := hr
  have key : ∀ make : {w : Nat} → Hw.Expr w → Hw.Expr w → Hw.Expr 1,
      lowerComparison? 1 make ⟨w, la⟩ ⟨w, lb⟩ source = .ok ⟨1, make la lb⟩ := by
    intro make
    simp [lowerComparison?, ok_bind, pure, Except.pure]
  cases op <;> cases hop
  · refine ⟨.eq la lb, by simp only [lowerExpr?, hla, hlb, ok_bind, lowerBinary?, key], ?_⟩
    rw [Hw.Expr.eval, ite_eq_ofBool]
    rfl
  · refine ⟨.ult la lb, by simp only [lowerExpr?, hla, hlb, ok_bind, lowerBinary?, key], ?_⟩
    rw [Hw.Expr.eval, ite_eq_ofBool]
    simp [BinaryOp.compare]
  · refine ⟨.slt la lb, by simp only [lowerExpr?, hla, hlb, ok_bind, lowerBinary?, key], ?_⟩
    rw [Hw.Expr.eval, ite_eq_ofBool]
    simp [BinaryOp.compare]

theorem apply (op : BinaryOp) (hop : op.isComparison = false) {l r : Expr} {a b : BitVec w} (hl : Denotes σ l a)
    (hr : Denotes σ r b) (source : SourceLocation) : Denotes σ (.binary w op l r source) (op.apply a b) := by
  obtain ⟨la, hla, rfl⟩ := hl
  obtain ⟨lb, hlb, rfl⟩ := hr
  have key : ∀ make : Hw.Expr w → Hw.Expr w → Hw.Expr w,
      lowerUniform? w make ⟨w, la⟩ ⟨w, lb⟩ source = .ok ⟨w, make la lb⟩ := by
    intro make
    simp [lowerUniform?, ok_bind, pure, Except.pure]
  have low : lowerExpr? (.binary w op l r source) = lowerBinary? w op ⟨w, la⟩ ⟨w, lb⟩ source := by
    simp only [lowerExpr?, hla, hlb, ok_bind]
  cases op <;> first | exact ⟨_, low.trans (key _), rfl⟩ | cases hop

theorem mux {c y n : Expr} {b : BitVec 1} {vy vn : BitVec w} (hc : Denotes σ c b) (hy : Denotes σ y vy)
    (hn : Denotes σ n vn) (source : SourceLocation) :
    Denotes σ (.mux w c y n source) (if b = 1#1 then vy else vn) := by
  obtain ⟨lc, hlc, rfl⟩ := hc
  obtain ⟨ly, hly, rfl⟩ := hy
  obtain ⟨ln, hln, rfl⟩ := hn
  exact ⟨.mux lc ly ln, by simp [lowerExpr?, hlc, hly, hln, ok_bind, pure, Except.pure], rfl⟩

/-- A multiplexer on a condition that is a truth value. -/
theorem muxBool {c y n : Expr} {b : Bool} {vy vn : BitVec w} (hc : Denotes σ c (BitVec.ofBool b)) (hy : Denotes σ y vy)
    (hn : Denotes σ n vn) (source : SourceLocation) :
    Denotes σ (.mux w c y n source) (if b then vy else vn) := by
  have h := mux hc hy hn source
  simpa only [ofBool_eq_one] using h

theorem slice {e : Expr} {v : BitVec w} (h : Denotes σ e v) {offset width : Nat} (hw : 0 < width)
    (hfit : offset + width ≤ w) (source : SourceLocation) :
    Denotes σ (.slice width e offset source) (v.extractLsb' offset width) := by
  obtain ⟨le, hl, rfl⟩ := h
  have hno : ¬(width = 0 ∨ offset + width > w) := by omega
  exact ⟨.slice le offset width, by simp [lowerExpr?, hl, ok_bind, hno, pure, Except.pure], rfl⟩

theorem zeroExtend {e : Expr} {v : BitVec w} (h : Denotes σ e v) {width : Nat} (hw : w ≤ width)
    (source : SourceLocation) : Denotes σ (.zeroExtend width e source) (v.setWidth width) := by
  obtain ⟨le, hl, rfl⟩ := h
  have hno : ¬width < w := by omega
  exact ⟨.zext le width, by simp [lowerExpr?, hl, ok_bind, hno, pure, Except.pure], rfl⟩

theorem signExtend {e : Expr} {v : BitVec w} (h : Denotes σ e v) {width : Nat} (hw : w ≤ width)
    (source : SourceLocation) : Denotes σ (.signExtend width e source) (v.signExtend width) := by
  obtain ⟨le, hl, rfl⟩ := h
  have hno : ¬width < w := by omega
  exact ⟨.sext le width, by simp [lowerExpr?, hl, ok_bind, hno, pure, Except.pure], rfl⟩

theorem concat {hi lo : Expr} {wh wl : Nat} {vh : BitVec wh} {vl : BitVec wl} (hh : Denotes σ hi vh)
    (hl : Denotes σ lo vl) (source : SourceLocation) :
    Denotes σ (.concat (wh + wl) hi lo source) (vh ++ vl) := by
  obtain ⟨lh, hlh, rfl⟩ := hh
  obtain ⟨ll, hll, rfl⟩ := hl
  exact ⟨.concat lh ll, by simp [lowerExpr?, hlh, hll, ok_bind, pure, Except.pure], Hw.Expr.concat_eval σ lh ll⟩

theorem memoryRead {aw : Nat} {address : Expr} {a : BitVec aw} (h : Denotes σ address a) {width : Nat} (hw : 0 < width)
    {memory : String} (hm : memory.isEmpty = false) (source : SourceLocation) :
    Denotes σ (.memoryRead width memory address source) (σ.mems memory a.toNat width) := by
  obtain ⟨le, hl, rfl⟩ := h
  exact ⟨.memRead width memory le, by simp [lowerExpr?, hl, ok_bind, Nat.ne_of_gt hw, hm, pure, Except.pure], rfl⟩

end Denotes

/-! ## The width of a lowering -/

/-- A lowering has the width its node declares. -/
theorem lowerExpr?_width {e : Expr} {x : LoweredExpr} (h : lowerExpr? e = .ok x) : x.width = e.width := by
  cases e with
  | literal width value source =>
    simp only [lowerExpr?] at h
    split at h <;> cases h
    rfl
  | partialLiteral width choice source =>
    simp only [lowerExpr?] at h
    split at h <;> cases h
    rfl
  | signal width name source =>
    simp only [lowerExpr?] at h
    split at h <;> cases h
    rfl
  | unary width op value source =>
    simp only [lowerExpr?] at h
    obtain ⟨y, -, h⟩ := bind_eq_ok h
    cases op <;> simp only [lowerUnary?] at h
    · obtain ⟨z, -, h⟩ := bind_eq_ok h
      cases h
      rfl
    · obtain ⟨z, -, h⟩ := bind_eq_ok h
      cases h
      rfl
    all_goals
      split at h
      · cases h
      · rename_i hw
        cases h
        exact (not_not.1 hw).symm
  | binary width op left right source =>
    simp only [lowerExpr?] at h
    obtain ⟨a, -, h⟩ := bind_eq_ok h
    obtain ⟨b, -, h⟩ := bind_eq_ok h
    have comparison : ∀ {make : {w : Nat} → Hw.Expr w → Hw.Expr w → Hw.Expr 1},
        lowerComparison? width make a b source = .ok x → x.width = width := by
      intro make h
      unfold lowerComparison? at h
      split at h
      · cases h
      · rename_i hw
        obtain ⟨z, -, h⟩ := bind_eq_ok h
        cases h
        exact (not_not.1 hw).symm
    have uniform : ∀ {make : Hw.Expr width → Hw.Expr width → Hw.Expr width},
        lowerUniform? width make a b source = .ok x → x.width = width := by
      intro make h
      obtain ⟨y, -, h⟩ := bind_eq_ok h
      obtain ⟨z, -, h⟩ := bind_eq_ok h
      cases h
      rfl
    cases op <;> first | exact uniform h | exact comparison h
  | mux width condition yes no source =>
    simp only [lowerExpr?] at h
    obtain ⟨c, -, h⟩ := bind_eq_ok h
    obtain ⟨y, -, h⟩ := bind_eq_ok h
    obtain ⟨n, -, h⟩ := bind_eq_ok h
    cases h
    rfl
  | slice width value offset source =>
    simp only [lowerExpr?] at h
    obtain ⟨y, -, h⟩ := bind_eq_ok h
    split at h <;> cases h
    rfl
  | zeroExtend width value source =>
    simp only [lowerExpr?] at h
    obtain ⟨y, -, h⟩ := bind_eq_ok h
    split at h <;> cases h
    rfl
  | signExtend width value source =>
    simp only [lowerExpr?] at h
    obtain ⟨y, -, h⟩ := bind_eq_ok h
    split at h <;> cases h
    rfl
  | concat width high low source =>
    simp only [lowerExpr?] at h
    obtain ⟨y, -, h⟩ := bind_eq_ok h
    obtain ⟨z, -, h⟩ := bind_eq_ok h
    split at h <;> cases h
    rfl
  | memoryRead width memory address source =>
    simp only [lowerExpr?] at h
    obtain ⟨y, -, h⟩ := bind_eq_ok h
    split at h <;> cases h
    rfl

/-- A lowering has at least one bit. -/
theorem lowerExpr?_pos {e : Expr} : ∀ {x : LoweredExpr}, lowerExpr? e = .ok x → 0 < x.width := by
  induction e with
  | literal width value source =>
    intro x h
    have hw := lowerExpr?_width h
    simp only [lowerExpr?] at h
    split at h
    · cases h
    · rename_i hne
      rw [hw]
      exact Nat.pos_of_ne_zero hne
  | partialLiteral width choice source =>
    intro x h
    have hw := lowerExpr?_width h
    simp only [lowerExpr?] at h
    split at h
    · rename_i hv
      rw [hw]
      simp only [PartialValue.validB, Bool.and_eq_true, decide_eq_true_eq] at hv
      exact hv.1.1.1.2
    · cases h
  | signal width name source =>
    intro x h
    have hw := lowerExpr?_width h
    simp only [lowerExpr?] at h
    split at h
    · cases h
    · rename_i hne
      rw [hw]
      exact Nat.pos_of_ne_zero fun h0 => hne (Or.inl h0)
  | unary width op value source ih =>
    intro x h
    simp only [lowerExpr?] at h
    obtain ⟨y, hy, h⟩ := bind_eq_ok h
    have hpos := ih hy
    cases op <;> simp only [lowerUnary?] at h
    · obtain ⟨z, hz, h⟩ := bind_eq_ok h
      cases h
      rw [expectWidth_eq_ok hz] at hpos
      exact hpos
    · obtain ⟨z, hz, h⟩ := bind_eq_ok h
      cases h
      rw [expectWidth_eq_ok hz] at hpos
      exact hpos
    all_goals
      split at h
      · cases h
      · cases h
        exact Nat.one_pos
  | binary width op left right source ihl ihr =>
    intro x h
    simp only [lowerExpr?] at h
    obtain ⟨a, ha, h⟩ := bind_eq_ok h
    obtain ⟨b, -, h⟩ := bind_eq_ok h
    have hpos := ihl ha
    have comparison : ∀ {make : {w : Nat} → Hw.Expr w → Hw.Expr w → Hw.Expr 1},
        lowerComparison? width make a b source = .ok x → 0 < x.width := by
      intro make h
      unfold lowerComparison? at h
      split at h
      · cases h
      · obtain ⟨z, -, h⟩ := bind_eq_ok h
        cases h
        exact Nat.one_pos
    have uniform : ∀ {make : Hw.Expr width → Hw.Expr width → Hw.Expr width},
        lowerUniform? width make a b source = .ok x → 0 < x.width := by
      intro make h
      obtain ⟨y, hy, h⟩ := bind_eq_ok h
      obtain ⟨z, -, h⟩ := bind_eq_ok h
      cases h
      rw [expectWidth_eq_ok hy] at hpos
      exact hpos
    cases op <;> first | exact uniform h | exact comparison h
  | mux width condition yes no source _ ihy _ =>
    intro x h
    simp only [lowerExpr?] at h
    obtain ⟨c, -, h⟩ := bind_eq_ok h
    obtain ⟨y, hy, h⟩ := bind_eq_ok h
    obtain ⟨n, -, h⟩ := bind_eq_ok h
    obtain ⟨y', hy', hy⟩ := bind_eq_ok hy
    have hpos := ihy hy'
    rw [expectWidth_eq_ok hy] at hpos
    cases h
    exact hpos
  | slice width value offset source _ =>
    intro x h
    have hw := lowerExpr?_width h
    simp only [lowerExpr?] at h
    obtain ⟨y, -, h⟩ := bind_eq_ok h
    split at h
    · cases h
    · rename_i hne
      rw [hw]
      exact Nat.pos_of_ne_zero fun h0 => hne (Or.inl h0)
  | zeroExtend width value source ih =>
    intro x h
    have hw := lowerExpr?_width h
    simp only [lowerExpr?] at h
    obtain ⟨y, hy, h⟩ := bind_eq_ok h
    have hpos := ih hy
    split at h
    · cases h
    · rw [hw]
      show 0 < width
      omega
  | signExtend width value source ih =>
    intro x h
    have hw := lowerExpr?_width h
    simp only [lowerExpr?] at h
    obtain ⟨y, hy, h⟩ := bind_eq_ok h
    have hpos := ih hy
    split at h
    · cases h
    · rw [hw]
      show 0 < width
      omega
  | concat width high low source ihh ihl =>
    intro x h
    have hw := lowerExpr?_width h
    simp only [lowerExpr?] at h
    obtain ⟨y, hy, h⟩ := bind_eq_ok h
    obtain ⟨z, -, h⟩ := bind_eq_ok h
    have hpos := ihh hy
    split at h
    · rename_i heq
      rw [hw]
      show 0 < width
      omega
    · cases h
  | memoryRead width memory address source _ =>
    intro x h
    have hw := lowerExpr?_width h
    simp only [lowerExpr?] at h
    obtain ⟨y, -, h⟩ := bind_eq_ok h
    split at h
    · cases h
    · rename_i hne
      rw [hw]
      exact Nat.pos_of_ne_zero fun h0 => hne (Or.inl h0)

namespace Denotes

variable {σ : Hw.St} {w : Nat}

/-- An expression that denotes declares the width of its value. -/
theorem width_eq {e : Expr} {v : BitVec w} (h : Denotes σ e v) : e.width = w := by
  obtain ⟨le, hl, -⟩ := h
  exact (lowerExpr?_width hl).symm

/-- An expression denotes one value. -/
theorem unique {e : Expr} {v v' : BitVec w} (h : Denotes σ e v) (h' : Denotes σ e v') : v = v' := by
  obtain ⟨le, hl, rfl⟩ := h
  obtain ⟨le', hl', rfl⟩ := h'
  rw [hl] at hl'
  cases hl'
  rfl

/-- What denotes has at least one bit. -/
theorem pos {e : Expr} {v : BitVec w} (h : Denotes σ e v) : 0 < w := by
  obtain ⟨le, hl, -⟩ := h
  exact lowerExpr?_pos hl

/-- A slice that denotes is not empty and lies inside its operand. -/
theorem slice_fits {e : Expr} {offset width : Nat} {source : SourceLocation} {v : BitVec w}
    (h : Denotes σ (.slice width e offset source) v) : 0 < width ∧ offset + width ≤ e.width := by
  obtain ⟨le, hl, -⟩ := h
  simp only [lowerExpr?] at hl
  obtain ⟨y, hy, hl⟩ := bind_eq_ok hl
  split at hl
  · cases hl
  · rename_i hno
    rw [lowerExpr?_width hy] at hno
    omega

end Denotes

end ImportIR

end LoomImport
