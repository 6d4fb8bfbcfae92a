import Mathlib.Data.Set.Finite.Basic
import Mathlib.Logic.Relation

/-!
# Equations along an acyclic relation

A system of equations, one for each node of a graph, in which the equation of a node only looks at its predecessors. When the
predecessors are finitely many and none precedes itself, the system has a solution.
-/

namespace Equations

variable {α β : Type} {r : α → α → Prop}

/-- A relation with finitely many predecessors and no cycle is well-founded. -/
theorem wellFounded (l : List α) (hl : ∀ x y, r x y → x ∈ l) (h : ∀ x, ¬Relation.TransGen r x x) : WellFounded r := by
  let before : {x // x ∈ l} → {x // x ∈ l} → Prop := fun x y => Relation.TransGen r x.1 y.1
  have : Finite {x // x ∈ l} := (List.finite_toSet l).to_subtype
  have : IsTrans {x // x ∈ l} before := ⟨fun _ _ _ hxy hyz => hxy.trans hyz⟩
  have : Std.Irrefl before := ⟨fun x hx => h x.1 hx⟩
  have hwf : WellFounded before := Finite.wellFounded_of_trans_of_irrefl before
  have hinside : ∀ x : {x // x ∈ l}, Acc r x.1 := by
    intro x
    induction x using hwf.induction with
    | _ x ih => exact Acc.intro x.1 fun y hy => ih ⟨y, hl y x.1 hy⟩ (Relation.TransGen.single hy)
  exact ⟨fun x => Acc.intro x fun y hy => hinside ⟨y, hl y x hy⟩⟩

/-- The equation of a node only looks at the predecessors of the node. -/
def LooksBack (r : α → α → Prop) (step : α → (α → β) → β) : Prop :=
  ∀ x f g, (∀ y, r y x → f y = g y) → step x f = step x g

open Classical in
/-- The system has a solution. -/
theorem exists_solution (hwf : WellFounded r) [Inhabited β] {step : α → (α → β) → β} (hstep : LooksBack r step) :
    ∃ f, ∀ x, f x = step x f := by
  let extend : (x : α) → ((y : α) → r y x → β) → α → β := fun x rest y => if h : r y x then rest y h else default
  let solution : α → β := hwf.fix fun x rest => step x (extend x rest)
  refine ⟨solution, fun x => ?_⟩
  have hfix : solution x = step x (extend x fun y _ => solution y) := hwf.fix_eq _ x
  rw [hfix]
  refine hstep x _ _ fun y hy => ?_
  show (if h : r y x then solution y else default) = solution y
  rw [dif_pos hy]

end Equations
