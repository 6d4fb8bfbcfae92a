import Mathlib.Logic.Relation

/-!
# Paths that avoid labels

A graph whose edges may carry a label, and the nodes from which no bad node is reached along edges that avoid some labels. A
depth-first search keeps the labels it is inside of; leaving one gives back what the search found while avoiding it.
-/

namespace Avoiding

variable {ν κ : Type} {edge : ν → Option κ → ν → Prop} {bad : ν → Prop}

/-- An edge whose label, if any, is not to be avoided. -/
def Step (edge : ν → Option κ → ν → Prop) (avoid : List κ) (x y : ν) : Prop :=
  ∃ label, edge x label y ∧ ∀ k, label = some k → k ∉ avoid

/-- No bad node is reached from this one. -/
def Clear (edge : ν → Option κ → ν → Prop) (bad : ν → Prop) (avoid : List κ) (x : ν) : Prop :=
  ∀ y, Relation.ReflTransGen (Step edge avoid) x y → ¬bad y

/-- A node is clear when it is not bad and its successors are clear. -/
theorem clear_intro {avoid : List κ} {x : ν} (hx : ¬bad x)
    (h : ∀ y, Step edge avoid x y → Clear edge bad avoid y) : Clear edge bad avoid x := by
  intro y hy
  rcases hy.cases_head with rfl | ⟨z, hz, hzy⟩
  · exact hx
  · exact h z hz y hzy

/-- The nodes of a set that is left by no edge and has no bad node are clear. -/
theorem clear_of_closed {avoid : List κ} {p : ν → Prop} (hp : ∀ x, p x → ¬bad x)
    (hstep : ∀ x y, p x → Step edge avoid x y → p y) {x : ν} (hx : p x) : Clear edge bad avoid x := by
  intro y hy
  refine hp y ?_
  induction hy with
  | refl => exact hx
  | tail _ hyz ih => exact hstep _ _ ih hyz

theorem Clear.not_bad {avoid : List κ} {x : ν} (h : Clear edge bad avoid x) : ¬bad x := h x Relation.ReflTransGen.refl

/-- The successors of a clear node are clear. -/
theorem Clear.step {avoid : List κ} {x y : ν} (h : Clear edge bad avoid x) (hxy : Step edge avoid x y) :
    Clear edge bad avoid y :=
  fun z hz => h z (Relation.ReflTransGen.head hxy hz)

/-- Avoiding more reaches less. -/
theorem Clear.mono {avoid avoid' : List κ} (hsub : avoid ⊆ avoid') {x : ν} (h : Clear edge bad avoid x) :
    Clear edge bad avoid' x := by
  intro y hy
  refine h y (Relation.ReflTransGen.mono ?_ _ _ hy)
  rintro u v ⟨label, he, ha⟩
  exact ⟨label, he, fun k hk hm => ha k hk (hsub hm)⟩

/-- A path that need not avoid a label avoids it, or ends with a path that does and starts where the label leads. -/
theorem path_split {key : κ} {rest : List κ} {x y : ν} (h : Relation.ReflTransGen (Step edge rest) x y) :
    Relation.ReflTransGen (Step edge (key :: rest)) x y ∨
      ∃ u v, edge u (some key) v ∧ Relation.ReflTransGen (Step edge (key :: rest)) v y := by
  induction h using Relation.ReflTransGen.head_induction_on with
  | refl => exact Or.inl Relation.ReflTransGen.refl
  | head hxz hzy ih =>
    rename_i u v
    rcases ih with hpath | hlast
    · obtain ⟨label, he, ha⟩ := hxz
      by_cases hk : label = some key
      · subst hk
        exact Or.inr ⟨u, v, he, hpath⟩
      · refine Or.inl (Relation.ReflTransGen.head ⟨label, he, ?_⟩ hpath)
        intro k hkl hm
        rcases List.mem_cons.1 hm with rfl | hm
        · exact hk hkl
        · exact ha k hkl hm
    · exact Or.inr hlast

/-- Leaving a label: where it leads is clear while it is avoided, so what is clear while it is avoided is clear. -/
theorem Clear.leave {key : κ} {rest : List κ} (hkey : ∀ u v, edge u (some key) v → Clear edge bad (key :: rest) v) {x : ν}
    (h : Clear edge bad (key :: rest) x) : Clear edge bad rest x := by
  intro y hy
  rcases (path_split hy : Relation.ReflTransGen (Step edge (key :: rest)) x y ∨ _) with hpath | ⟨u, v, he, hpath⟩
  · exact h y hpath
  · exact hkey u v he y hpath

end Avoiding
