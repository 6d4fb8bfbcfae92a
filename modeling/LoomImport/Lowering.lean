import LoomImport.Cells

/-!
# What an expression that lowers contains

The lowering is checked at every node, so an expression that lowers is made of expressions that lower. Every expression the adapter
builds over operands contains them, so one operand that does not lower is enough for the whole not to.
-/

namespace LoomImport

open ImportIR DenotesAux

namespace ImportIR

/-- The checked lowering accepts the expression. -/
def Lowers (e : Expr) : Prop := ∃ x, lowerExpr? e = .ok x

instance (e : Expr) : Decidable (Lowers e) :=
  match h : lowerExpr? e with
  | .ok x => .isTrue ⟨x, h⟩
  | .error _ => .isFalse fun ⟨x, hx⟩ => by rw [h] at hx; cases hx

/-- The operands of a node. -/
def Expr.children : Expr → List Expr
  | .literal .. | .partialLiteral .. | .signal .. => []
  | .unary _ _ value _ | .slice _ value _ _ | .zeroExtend _ value _ | .signExtend _ value _ | .memoryRead _ _ value _ => [value]
  | .binary _ _ left right _ | .concat _ left right _ => [left, right]
  | .mux _ condition yes no _ => [condition, yes, no]

theorem Denotes.lowers {σ : Hw.St} {e : Expr} {w : Nat} {v : BitVec w} (h : Denotes σ e v) : Lowers e := by
  obtain ⟨le, hl, -⟩ := h
  exact ⟨_, hl⟩

/-- An expression that lowers has a value in every state. -/
theorem Lowers.denotes {e : Expr} (h : Lowers e) {w : Nat} (hw : e.width = w) (σ : Hw.St) : ∃ v : BitVec w, Denotes σ e v := by
  obtain ⟨⟨width, le⟩, hl⟩ := h
  have hwidth : width = w := (lowerExpr?_width hl).trans hw
  subst hwidth
  exact ⟨le.eval σ, le, hl, rfl⟩

/-- The operands of a node that lowers lower. -/
theorem Lowers.child {e c : Expr} (h : Lowers e) (hc : c ∈ e.children) : Lowers c := by
  obtain ⟨x, h⟩ := h
  cases e with
  | literal => cases hc
  | partialLiteral => cases hc
  | signal => cases hc
  | unary width op value source =>
    simp only [lowerExpr?] at h
    obtain ⟨y, hy, -⟩ := bind_eq_ok h
    rw [Expr.children, List.mem_singleton] at hc
    exact hc ▸ ⟨y, hy⟩
  | binary width op left right source =>
    simp only [lowerExpr?] at h
    obtain ⟨a, ha, h⟩ := bind_eq_ok h
    obtain ⟨b, hb, -⟩ := bind_eq_ok h
    rcases List.mem_cons.1 hc with rfl | hc
    · exact ⟨a, ha⟩
    · exact List.mem_singleton.1 hc ▸ ⟨b, hb⟩
  | mux width condition yes no source =>
    simp only [lowerExpr?] at h
    obtain ⟨c', hc', h⟩ := bind_eq_ok h
    obtain ⟨y', hy', h⟩ := bind_eq_ok h
    obtain ⟨n', hn', -⟩ := bind_eq_ok h
    obtain ⟨a, ha, -⟩ := bind_eq_ok hc'
    obtain ⟨b, hb, -⟩ := bind_eq_ok hy'
    obtain ⟨d, hd, -⟩ := bind_eq_ok hn'
    rcases List.mem_cons.1 hc with rfl | hc
    · exact ⟨a, ha⟩
    · rcases List.mem_cons.1 hc with rfl | hc
      · exact ⟨b, hb⟩
      · exact List.mem_singleton.1 hc ▸ ⟨d, hd⟩
  | slice width value offset source =>
    simp only [lowerExpr?] at h
    obtain ⟨y, hy, -⟩ := bind_eq_ok h
    exact List.mem_singleton.1 hc ▸ ⟨y, hy⟩
  | zeroExtend width value source =>
    simp only [lowerExpr?] at h
    obtain ⟨y, hy, -⟩ := bind_eq_ok h
    exact List.mem_singleton.1 hc ▸ ⟨y, hy⟩
  | signExtend width value source =>
    simp only [lowerExpr?] at h
    obtain ⟨y, hy, -⟩ := bind_eq_ok h
    exact List.mem_singleton.1 hc ▸ ⟨y, hy⟩
  | concat width high low source =>
    simp only [lowerExpr?] at h
    obtain ⟨a, ha, h⟩ := bind_eq_ok h
    obtain ⟨b, hb, -⟩ := bind_eq_ok h
    rcases List.mem_cons.1 hc with rfl | hc
    · exact ⟨a, ha⟩
    · exact List.mem_singleton.1 hc ▸ ⟨b, hb⟩
  | memoryRead width memory address source =>
    simp only [lowerExpr?] at h
    obtain ⟨y, hy, -⟩ := bind_eq_ok h
    exact List.mem_singleton.1 hc ▸ ⟨y, hy⟩

/-- An expression is part of another. -/
inductive Within (c : Expr) : Expr → Prop
  | refl : Within c c
  | child {d e : Expr} : Within c d → d ∈ e.children → Within c e

/-- The parts of an expression that lowers lower. -/
theorem Lowers.within {c e : Expr} (h : Lowers e) (hc : Within c e) : Lowers c := by
  induction hc with
  | refl => exact h
  | child _ hmem ih => exact ih (h.child hmem)

theorem Within.trans {b c d : Expr} (h : Within b c) (h' : Within c d) : Within b d := by
  induction h' with
  | refl => exact h
  | child _ hmem ih => exact ih.child hmem

/-- A slice that lowers is not empty and lies inside its operand. -/
theorem Lowers.slice_fits {value : Expr} {offset width : Nat} {source : SourceLocation}
    (h : Lowers (.slice width value offset source)) : 0 < width ∧ offset + width ≤ value.width := by
  obtain ⟨x, hl⟩ := h
  simp only [lowerExpr?] at hl
  obtain ⟨y, hy, hl⟩ := bind_eq_ok hl
  have hwidth := lowerExpr?_width hy
  split at hl
  · cases hl
  · rename_i hno
    omega

end ImportIR

/-! ## The builders contain their operands -/

namespace LoweringAux

variable {c e l r : Expr} {src : SourceLocation} {sh : Shape}

theorem within_sliceExpr (h : Within c e) (offset width : Nat) : Within c (sliceExpr e offset width src) := by
  unfold sliceExpr
  split
  · exact h
  · exact h.child List.mem_cons_self

theorem within_resize (h : Within c e) (width : Nat) (signed : Bool) : Within c (resize e width signed src) := by
  unfold resize
  split
  · exact h
  · split
    · split
      · exact h.child List.mem_cons_self
      · exact h.child List.mem_cons_self
    · exact within_sliceExpr h 0 width

/-- The operand of a unary node. -/
theorem within_unary {w : Nat} {op : UnaryOp} (h : Within c e) : Within c (.unary w op e src) := h.child List.mem_cons_self

theorem within_unaryCell (kind : UnaryKind) : Within e (unaryCell kind sh src e) := by
  have width : ∀ op, Within e (widthUnary op sh src e) :=
    fun op => within_unary (within_resize Within.refl sh.width sh.aSigned)
  have reduced : ∀ op, Within e (reduction op sh src e) :=
    fun op => within_resize (within_unary Within.refl) sh.width false
  cases kind with
  | not => exact width .bitNot
  | neg => exact width .negate
  | logicNot => exact reduced .logicalNot
  | reduceAnd => exact reduced .reduceAnd
  | reduceOr => exact reduced .reduceBool
  | reduceBool => exact reduced .reduceBool

/-- The operands of a binary node. -/
theorem within_binary {w : Nat} {op : BinaryOp} (h : Within c l ∨ Within c r) : Within c (.binary w op l r src) := by
  rcases h with h | h
  · exact h.child List.mem_cons_self
  · exact h.child (List.mem_cons_of_mem _ List.mem_cons_self)

theorem within_comparisonCell {compared : Expr → Expr → Expr}
    (hc : ∀ {c x y}, Within c x ∨ Within c y → Within c (compared x y)) (h : c = l ∨ c = r) :
    Within c (comparisonCell compared sh src l r) := by
  refine within_resize (hc ?_) sh.width false
  rcases h with rfl | rfl
  · exact Or.inl (within_resize Within.refl _ _)
  · exact Or.inr (within_resize Within.refl _ _)

/-- Every binary cell that is neither a shift nor a division contains its operands. -/
theorem within_binaryCell {kind : BinaryKind} (hk : kind.isPlain = true) (h : c = l ∨ c = r) :
    Within c (binaryCell kind sh src l r) := by
  have width : ∀ op, Within c (widthBinary op sh src l r) := by
    intro op
    rcases h with rfl | rfl
    · exact within_binary (Or.inl (within_resize Within.refl _ _))
    · exact within_binary (Or.inr (within_resize Within.refl _ _))
  have logic : ∀ op, Within c (logicCell op sh src l r) := by
    intro op
    refine within_resize ?_ sh.width false
    rcases h with rfl | rfl
    · exact within_binary (Or.inl (within_unary Within.refl))
    · exact within_binary (Or.inr (within_unary Within.refl))
  cases kind with
  | logicAnd => exact logic .bitAnd
  | logicOr => exact logic .bitOr
  | eq => exact within_comparisonCell (fun h => within_binary h) h
  | ne => exact within_comparisonCell (fun h => within_unary (within_binary h)) h
  | lt => exact within_comparisonCell (fun h => within_binary h) h
  | gt => exact within_comparisonCell (fun h => within_binary h.symm) h
  | ge => exact within_comparisonCell (fun h => within_unary (within_binary h)) h
  | le => exact within_comparisonCell (fun h => within_unary (within_binary h.symm)) h
  | and => exact width .bitAnd
  | or => exact width .bitOr
  | xor => exact width .bitXor
  | add => exact width .add
  | sub => exact width .sub
  | mul => exact width .mul
  | sshr => cases hk
  | shift => cases hk
  | shl => cases hk
  | shr => cases hk
  | div => cases hk
  | mod => cases hk

theorem within_muxCell (w : Nat) (src : SourceLocation) (yes no condition : Expr) :
    Within yes (muxCell w src yes no condition) ∧ Within no (muxCell w src yes no condition) ∧
      Within condition (muxCell w src yes no condition) := by
  refine ⟨?_, ?_, ?_⟩
  · exact (within_resize Within.refl w false).child (List.mem_cons_of_mem _ List.mem_cons_self)
  · exact (within_resize Within.refl w false).child (List.mem_cons_of_mem _ (List.mem_cons_of_mem _ List.mem_cons_self))
  · exact Within.refl.child List.mem_cons_self

/-- A concatenation of parts contains what it starts from and every part. -/
theorem within_concatParts {rest : List Expr} :
    ∀ {first : Expr}, (Within c first ∨ c ∈ rest) → Within c (concatParts src first rest) := by
  induction rest with
  | nil =>
    intro first h
    exact h.resolve_right List.not_mem_nil
  | cons part rest ih =>
    intro first h
    refine ih ?_
    rcases h with h | h
    · exact Or.inl (h.child List.mem_cons_self)
    · rcases List.mem_cons.1 h with rfl | h
      · exact Or.inl (Within.refl.child (List.mem_cons_of_mem _ List.mem_cons_self))
      · exact Or.inr h

end LoweringAux

end LoomImport
