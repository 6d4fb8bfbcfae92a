import LoomImport.Lib.Equations
import Mathlib.Data.List.Nodup
import Mathlib.Data.List.Infix

/-!
# Finite directed graphs

A graph is a list of edges. It is acyclic exactly when its nodes can be listed without repetitions so that every edge points forward,
and a set of nodes that no edge leaves has everything that is reached from it.
-/

namespace Graphs

variable {α : Type} {edges : List (α × α)}

/-- There is an edge from the one node to the other. -/
def Edge (edges : List (α × α)) (a b : α) : Prop := (a, b) ∈ edges

/-- The one node is reached from the other. -/
abbrev Reaches (edges : List (α × α)) : α → α → Prop := Relation.ReflTransGen (Edge edges)

/-- No node is reached from itself along some edges. -/
def Acyclic (edges : List (α × α)) : Prop := ∀ a, ¬Relation.TransGen (Edge edges) a a

/-- A set that no edge leaves has what is reached from it. -/
theorem Reaches.of_closed {S : α → Prop} (hS : ∀ edge ∈ edges, S edge.1 → S edge.2) {a b : α} (h : Reaches edges a b) (ha : S a) :
    S b := by
  induction h with
  | refl => exact ha
  | tail _ hstep ih => exact hS _ hstep ih

/-- A graph whose edges go up is acyclic. -/
theorem acyclic_of_rank (rank : α → Nat) (h : ∀ edge ∈ edges, rank edge.1 < rank edge.2) : Acyclic edges := by
  have hlt : ∀ {a b}, Relation.TransGen (Edge edges) a b → rank a < rank b := by
    intro a b hab
    induction hab with
    | single hstep => exact h _ hstep
    | tail _ hstep ih => exact ih.trans (h _ hstep)
  exact fun a ha => Nat.lt_irrefl _ (hlt ha)

theorem Acyclic.wellFounded (h : Acyclic edges) : WellFounded (Edge edges) :=
  Equations.wellFounded (edges.map Prod.fst) (fun _ _ hedge => List.mem_map.2 ⟨_, hedge, rfl⟩) h

/-! ## Edges turned around -/

@[simp] theorem edge_swap {a b : α} : Edge (edges.map Prod.swap) a b ↔ Edge edges b a := by
  simp [Edge]

theorem acyclic_swap : Acyclic (edges.map Prod.swap) ↔ Acyclic edges := by
  have hedge : Edge (edges.map Prod.swap) = Function.swap (Edge edges) := funext₂ fun _ _ => propext edge_swap
  unfold Acyclic
  rw [hedge]
  exact forall_congr' fun a => not_congr Relation.transGen_swap

/-! ## Orders of the nodes -/

/-- In a list of nodes, what an edge into a node comes from stands before the node. -/
def Ordered (edges : List (α × α)) (order : List α) : Prop :=
  ∀ before node after, order = before ++ node :: after → ∀ edge ∈ edges, edge.2 = node → edge.1 ∈ before

theorem ordered_nil : Ordered edges [] := by
  intro before node after h
  cases before <;> cases h

/-- One node more, when everything that an edge into it comes from is there. -/
theorem Ordered.concat {order : List α} (h : Ordered edges order) {node : α} (hnode : ∀ edge ∈ edges, edge.2 = node → edge.1 ∈ order) :
    Ordered edges (order ++ [node]) := by
  intro before other after heq
  rcases List.eq_nil_or_concat after with rfl | ⟨rest, last, rfl⟩
  · obtain ⟨rfl, hsame⟩ := List.append_inj' heq rfl
    cases hsame
    exact hnode
  · have heq' : order ++ [node] = (before ++ other :: rest) ++ [last] := by simpa using heq
    obtain ⟨rfl, -⟩ := List.append_inj' heq' rfl
    exact h before other rest rfl

/-- In an order without repetitions that has every node an edge goes to, edges point forward. -/
theorem Ordered.forward [DecidableEq α] {order : List α} (h : Ordered edges order) (hnodup : order.Nodup) {edge : α × α}
    (hedge : edge ∈ edges) (hmem : edge.2 ∈ order) : edge.1 ∈ order ∧ order.idxOf edge.1 < order.idxOf edge.2 := by
  obtain ⟨before, after, rfl⟩ := List.append_of_mem hmem
  have hbefore := h before edge.2 after rfl edge hedge rfl
  have hnot : edge.2 ∉ before := fun hin => (List.nodup_append.1 hnodup).2.2 _ hin _ List.mem_cons_self rfl
  refine ⟨List.mem_append_left _ hbefore, ?_⟩
  rw [List.idxOf_append_of_mem hbefore, List.idxOf_append_of_notMem hnot, List.idxOf_cons_self, Nat.add_zero]
  exact List.idxOf_lt_length_of_mem hbefore

end Graphs
