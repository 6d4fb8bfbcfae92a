import LoomImport.Termination
import LoomImport.Shifts
import LoomImport.Division

/-!
# Runs that translate a cell

A run of the translator that comes to the output of a cell and translates its operands A and B, as a value: the state it starts from
is one a translation goes through, and the runs of the operands are part of it. What the run returns is a conclusion. What is said of
a cell type and a shape is said of all such runs. For every type and shape there is one: the output of a module with that cell only,
between two input ports and an output port.
-/

namespace LoomImport

open ImportIR StateOption

/-- The states a translation goes through: before a request, between two, and while the operands of a cell output are
translated. -/
inductive Setting.Visited (Γ : Setting) : State → Prop
  | start : Visited Γ Γ.start
  | record {s : State} (r : UnsupportedRecord) : Visited Γ s → Visited Γ (s.record r)
  | expr {s s' : State} {fuel : Nat} {bits : List Bit} {src : SourceLocation} {e : Expr} :
    Visited Γ s → LoomImport.expr Γ.ctx fuel bits src s = some (e, s') → Visited Γ s'
  | enter {s : State} {key : String × String} : Visited Γ s → key ∉ s.inProgress → Visited Γ (s.enter key)

/-- A run that comes to the output Y of a cell of this type and shape: from a state in which the output is neither kept nor in
progress, through the translations of A and of B. -/
structure CellRun (type : String) (sh : Shape) where
  Γ : Setting
  cellName : String
  cell : Cell
  cell_eq : Γ.ctx.module.cells.get? cellName = some cell
  type_eq : cell.type = type
  -- the type is not the name of a module of the netlist
  primitive : type ∉ Γ.ctx.modules
  output_ne : cell.connection "Y" ≠ []
  shape_eq : cell.shape (cell.connection "Y").length = sh
  fuel : Nat
  before : State
  visited : Γ.Visited before
  fresh : before.cache.get? (cellName, "Y") = none
  idle : (cellName, "Y") ∉ before.inProgress
  left : Expr
  afterLeft : State
  left_eq : expr Γ.ctx fuel (cell.connection "A") (Γ.ctx.sourceOf cell.src) (before.enter (cellName, "Y")) =
    some (left, afterLeft)
  right : Expr
  afterRight : State
  right_eq : expr Γ.ctx fuel (cell.connection "B") (Γ.ctx.sourceOf cell.src) afterLeft = some (right, afterRight)

namespace CellRun

/-- The cell output is translated to an expression, and leaves a state. -/
def Returns {type : String} {sh : Shape} (run : CellRun type sh) (result : Expr) (after : State) : Prop :=
  cellExpr run.Γ.ctx run.fuel run.cellName "Y" run.before = some (result, after)

/-- No blocker is recorded by the run. -/
def Unblocked {type : String} {sh : Shape} (run : CellRun type sh) : Prop :=
  ∀ result after, run.Returns result after → after.unsupported = run.before.unsupported

/-- The amount is unsigned, and one rule of the policy fills what is outside the value with zeros. -/
def Accepted {type : String} {sh : Shape} (run : CellRun type sh) : Prop :=
  run.cell.flag "B_SIGNED" = false ∧ ∃ rule, rule.fill = .zero ∧
    run.Γ.ctx.policyMatches (run.Γ.ctx.shiftxSite run.cellName (run.Γ.ctx.sourceOf run.cell.src))
      (run.Γ.ctx.sourceOf run.cell.src) = [rule]

end CellRun

/-- An operand or a result of no bits: an operand of no bits is blocked, and a result of no bits is not asked for. -/
def Shape.Empty (sh : Shape) : Prop := sh.aWidth = 0 ∨ sh.bWidth = 0 ∨ sh.width = 0

/-- Every run of a kind that comes to a cell of this type and shape returns, and what it returns has the simlib value of the operands,
for operands of a kind. -/
def Shape.Exact (sh : Shape) (type : String) (runs : CellRun type sh → Prop)
    (operands : BitVec sh.aWidth → BitVec sh.bWidth → Prop)
    (value : BitVec sh.aWidth → BitVec sh.bWidth → BitVec sh.width) : Prop :=
  ∀ run : CellRun type sh, runs run → ∃ result after, run.Returns result after ∧
    ∀ (σ : Hw.St) (a : BitVec sh.aWidth) (b : BitVec sh.bWidth),
      Denotes σ run.left a → Denotes σ run.right b → operands a b → Denotes σ result (value a b)

namespace CellRunsAux

/-- No other branch takes a combinational cell. -/
theorem cellSource_comb {Γ : Ctx} {cellName : String} {cell : Cell} {port : String} {kind : CombKind}
    (h : supportedComb? cell.type = some kind) (hm : cell.type ∉ Γ.modules) : Γ.cellSource cellName cell port = .comb kind := by
  obtain ⟨hs, hi, ht⟩ := supportedComb?_other h
  unfold Ctx.cellSource Ctx.memoryOutput?
  simp [hs, hm, ht, hi, h]

/-- A cell output that is neither kept nor in progress is translated from its operands and kept. -/
theorem cellExpr_comb {Γ : Ctx} (key : String × String) {cell : Cell} {kind : CombKind}
    (hcell : Γ.module.cells.get? key.1 = some cell) (hsource : Γ.cellSource key.1 cell key.2 = .comb kind) {s : State}
    (hfresh : s.cache.get? key = none) (hidle : key ∉ s.inProgress) {fuel : Nat} {e : Expr} {s' : State}
    (h : combResult Γ.toSetting (expr Γ fuel) key.1 cell kind (cell.connection key.2).length (Γ.sourceOf cell.src)
      (s.enter key) = some (e, s')) :
    cellExpr Γ fuel key.1 key.2 s = some (e, s'.leave key e) := by
  have hget : (get : M State) s = some (s, s) := rfl
  unfold cellExpr cellExprBody cellResult
  rw [bind_apply, hget, Option.bind_some]
  simp only [hfresh, hcell, if_neg hidle, hsource]
  show Option.bind (combResult _ _ _ _ _ _ _ (s.enter key)) _ = _
  rw [h]
  rfl

/-- A binary cell, over the translations of its operands. -/
theorem combResult_binary {Γ : Setting} {f : List Bit → SourceLocation → M Expr} {cellName : String} {cell : Cell}
    {width : Nat} {src : SourceLocation} (kind : BinaryKind) {s s₁ s₂ : State} {l r : Expr}
    (hl : f (cell.connection "A") src s = some (l, s₁)) (hr : f (cell.connection "B") src s₁ = some (r, s₂)) :
    combResult Γ f cellName cell (.binary kind) width src s = some (binaryCell kind (cell.shape width) src l r, s₂) := by
  simp only [combResult, bind_apply, hl, hr, Option.bind_some]
  rfl

/-- An accepted variable part-select, over the translations of its operands. -/
theorem combResult_shiftx {Γ : Setting} {f : List Bit → SourceLocation → M Expr} {cellName : String} {cell : Cell}
    {width : Nat} {src : SourceLocation} {s s₁ s₂ : State} {l r : Expr} {rule : PolicyRule}
    (hl : f (cell.connection "A") src s = some (l, s₁)) (hr : f (cell.connection "B") src s₁ = some (r, s₂))
    (hsigned : cell.flag "B_SIGNED" = false) (hfill : rule.fill = .zero)
    (hmatch : Γ.policyMatches (Γ.shiftxSite cellName src) src = [rule]) :
    combResult Γ f cellName cell .shiftx width src s =
      some (partSelect l r (.partialLiteral width (partialUnknown (Γ.shiftxSite cellName src) rule width) src) width src, s₂) := by
  simp only [combResult, bind_apply, hl, hr, Option.bind_some, Setting.shiftxResult, hsigned, hmatch, hfill]
  rfl

end CellRunsAux

open CellRunsAux

namespace CellRun

variable {type : String} {sh : Shape}

theorem width_pos (run : CellRun type sh) : 0 < sh.width := by
  rw [← run.shape_eq]
  exact List.length_pos_iff.2 run.output_ne

/-- The combinational branch translates the cell. -/
theorem source_eq (run : CellRun type sh) {kind : CombKind} (h : supportedComb? type = some kind) :
    run.Γ.ctx.cellSource run.cellName run.cell "Y" = .comb kind :=
  cellSource_comb (by rw [run.type_eq]; exact h) (by rw [run.type_eq]; exact run.primitive)

/-- A run returns the result of the combinational branch. -/
theorem returns_comb (run : CellRun type sh) {kind : CombKind} (h : supportedComb? type = some kind) {e : Expr} {s : State}
    (he : combResult run.Γ.ctx.toSetting (expr run.Γ.ctx run.fuel) run.cellName run.cell kind (run.cell.connection "Y").length
      (run.Γ.ctx.sourceOf run.cell.src) (run.before.enter (run.cellName, "Y")) = some (e, s)) :
    run.Returns e (s.leave (run.cellName, "Y") e) :=
  cellExpr_comb (run.cellName, "Y") run.cell_eq (run.source_eq h) run.fresh run.idle he

theorem Returns.unique {run : CellRun type sh} {result result' : Expr} {after after' : State} (h : run.Returns result after)
    (h' : run.Returns result' after') : result = result' ∧ after = after' := by
  have heq := Option.some.inj (Eq.trans (Eq.symm h) h')
  exact ⟨congrArg Prod.fst heq, congrArg Prod.snd heq⟩

/-- A run of a binary cell returns the expression of the cell over those of its operands. -/
theorem returns_binary (run : CellRun type sh) {kind : BinaryKind} (h : supportedComb? type = some (.binary kind)) :
    run.Returns (binaryCell kind sh (run.Γ.ctx.sourceOf run.cell.src) run.left run.right)
      (run.afterRight.leave (run.cellName, "Y") (binaryCell kind sh (run.Γ.ctx.sourceOf run.cell.src) run.left run.right)) := by
  have hrun := run.returns_comb h (combResult_binary kind run.left_eq run.right_eq)
  rwa [run.shape_eq] at hrun

/-- A run of an accepted variable part-select returns. -/
theorem returns_shiftx (run : CellRun "$shiftx" sh) (h : run.Accepted) : ∃ rule after, rule.fill = .zero ∧
    run.Returns (partSelect run.left run.right (.partialLiteral sh.width
      (partialUnknown (run.Γ.ctx.shiftxSite run.cellName (run.Γ.ctx.sourceOf run.cell.src)) rule sh.width)
      (run.Γ.ctx.sourceOf run.cell.src)) sh.width (run.Γ.ctx.sourceOf run.cell.src)) after := by
  obtain ⟨hsigned, rule, hfill, hmatch⟩ := h
  have hwidth : (run.cell.connection "Y").length = sh.width := congrArg Shape.width run.shape_eq
  have hrun := run.returns_comb rfl (combResult_shiftx run.left_eq run.right_eq hsigned hfill hmatch)
  rw [hwidth] at hrun
  exact ⟨rule, _, hfill, hrun⟩

end CellRun

end LoomImport
