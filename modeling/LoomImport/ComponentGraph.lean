import LoomImport.Designs
import LoomImport.Lib.Graphs

/-!
# Checked topological orders

An order of the nodes of a dependency graph is proposed by repeatedly taking a node no remaining edge goes to, and is checked on its
own. The proposal passes the check exactly when the graph is acyclic.
-/

namespace LoomImport

namespace Hw

namespace ComponentGraph

/-! ## The check -/

/-- Every edge is covered and points strictly forward. -/
def edgesForwardB (order : List String) : List (String × String) → Bool
  | [] => true
  | edge :: rest =>
    order.contains edge.1 && order.contains edge.2 && decide (order.idxOf edge.1 < order.idxOf edge.2) && edgesForwardB order rest

def topologicalOrderCheckB (edges : List (String × String)) (order : List String) : Bool :=
  Inventory.uniqueB order && edgesForwardB order edges

theorem edgesForwardB_iff {order : List String} {edges : List (String × String)} : edgesForwardB order edges = true ↔
    ∀ edge ∈ edges, edge.1 ∈ order ∧ edge.2 ∈ order ∧ order.idxOf edge.1 < order.idxOf edge.2 := by
  induction edges with
  | nil => simp [edgesForwardB]
  | cons edge edges ih => simp [edgesForwardB, ih, and_assoc]

/-- What passes the check is acyclic, whatever proposed the order. -/
theorem topologicalOrderCheckB_sound {edges : List (String × String)} {order : List String}
    (h : topologicalOrderCheckB edges order = true) : Graphs.Acyclic edges := by
  rw [topologicalOrderCheckB, Bool.and_eq_true, edgesForwardB_iff] at h
  exact Graphs.acyclic_of_rank order.idxOf fun edge hedge => (h.2 edge hedge).2.2

/-! ## The proposal -/

/-- A node that is listed once. -/
def addNode (nodes : List String) (node : String) : List String := if nodes.contains node then nodes else nodes ++ [node]

/-- The ends of the edges, in the order they are met. -/
def topologicalNodes (edges : List (String × String)) : List String :=
  edges.foldl (fun nodes edge => addNode (addNode nodes edge.1) edge.2) []

def topologicalIndegree (edges : List (String × String)) (node : String) : Nat := (edges.filter fun edge => edge.2 == node).length

/-- The nodes the edges from a node go to, the last one first. -/
def topologicalOutgoing (edges : List (String × String)) (node : String) : List String :=
  edges.foldl (fun sinks edge => if edge.1 == node then edge.2 :: sinks else sinks) []

/-- The nodes that no remaining edge goes to are ready. -/
def pushReady (remaining : List (String × String)) (order ready : List String) (sink : String) : List String :=
  if topologicalIndegree remaining sink == 0 && !ready.contains sink && !order.contains sink then sink :: ready else ready

def topologicalLoop : Nat → List (String × String) → List String → List String → List String
  | 0, _, _, order => order
  | _ + 1, _, [], order => order
  | fuel + 1, edges, node :: ready, order =>
    let outgoing := topologicalOutgoing edges node
    let remaining := edges.filter fun edge => edge.1 != node
    topologicalLoop fuel remaining (outgoing.foldl (pushReady remaining order) ready) (order ++ [node])

def proposeTopologicalOrder (edges : List (String × String)) : List String :=
  let nodes := topologicalNodes edges
  let ready := nodes.foldl (fun ready node => if topologicalIndegree edges node == 0 then node :: ready else ready) []
  topologicalLoop nodes.length edges ready []

/-! ## Nodes and edges -/

section

variable {edges : List (String × String)}

@[simp] theorem topologicalIndegree_eq_zero {node : String} :
    topologicalIndegree edges node = 0 ↔ ∀ edge ∈ edges, edge.2 ≠ node := by
  simp [topologicalIndegree, List.length_eq_zero_iff, List.filter_eq_nil_iff]

@[simp] theorem mem_addNode {nodes : List String} {node other : String} : other ∈ addNode nodes node ↔ other ∈ nodes ∨ other = node := by
  unfold addNode
  by_cases h : node ∈ nodes
  · simp only [List.contains_iff_mem, if_pos h]
    exact ⟨Or.inl, fun h' => h'.elim id fun heq => heq ▸ h⟩
  · simp [h]

theorem nodup_addNode {nodes : List String} (h : nodes.Nodup) (node : String) : (addNode nodes node).Nodup := by
  unfold addNode
  by_cases hmem : node ∈ nodes
  · simpa [List.contains_iff_mem, hmem] using h
  · simp only [List.contains_iff_mem, if_neg hmem]
    exact List.nodup_append.2 ⟨h, by simp, by grind⟩

/-- The nodes are the ends of the edges, each once. -/
theorem topologicalNodes_spec (edges : List (String × String)) : (topologicalNodes edges).Nodup ∧
    ∀ node, node ∈ topologicalNodes edges ↔ ∃ edge ∈ edges, edge.1 = node ∨ edge.2 = node := by
  have hfold : ∀ (l : List (String × String)) (nodes : List String), nodes.Nodup →
      (l.foldl (fun nodes edge => addNode (addNode nodes edge.1) edge.2) nodes).Nodup ∧
        ∀ node, node ∈ l.foldl (fun nodes edge => addNode (addNode nodes edge.1) edge.2) nodes ↔
          node ∈ nodes ∨ ∃ edge ∈ l, edge.1 = node ∨ edge.2 = node := by
    intro l
    induction l with
    | nil => exact fun nodes hnodes => ⟨hnodes, fun node => by simp⟩
    | cons edge l ih =>
      intro nodes hnodes
      obtain ⟨hnodup, hmem⟩ := ih _ (nodup_addNode (nodup_addNode hnodes edge.1) edge.2)
      refine ⟨hnodup, fun node => (hmem node).trans ?_⟩
      rw [mem_addNode, mem_addNode, List.exists_mem_cons_iff]
      grind
  obtain ⟨hnodup, hmem⟩ := hfold edges [] List.nodup_nil
  exact ⟨hnodup, fun node => (hmem node).trans (by simp)⟩

@[simp] theorem mem_topologicalOutgoing {node sink : String} : sink ∈ topologicalOutgoing edges node ↔ (node, sink) ∈ edges := by
  have hfold : ∀ (l : List (String × String)) (sinks : List String),
      sink ∈ l.foldl (fun sinks edge => if edge.1 == node then edge.2 :: sinks else sinks) sinks ↔ (node, sink) ∈ l ∨ sink ∈ sinks := by
    intro l
    induction l with
    | nil => simp
    | cons edge l ih =>
      intro sinks
      obtain ⟨source, target⟩ := edge
      rw [List.foldl_cons, ih]
      by_cases h : source = node
      · subst h
        grind
      · grind
  exact (hfold edges []).trans (by simp)

/-- What is ready after some nodes have been looked at. -/
theorem mem_foldl_pushReady {remaining : List (String × String)} {order sinks ready : List String} {node : String} :
    node ∈ sinks.foldl (pushReady remaining order) ready ↔
      node ∈ ready ∨ node ∈ sinks ∧ (∀ edge ∈ remaining, edge.2 ≠ node) ∧ node ∉ order := by
  induction sinks generalizing ready with
  | nil => simp
  | cons sink sinks ih =>
    rw [List.foldl_cons, ih, List.mem_cons]
    unfold pushReady
    by_cases hready : topologicalIndegree remaining sink = 0 ∧ sink ∉ ready ∧ sink ∉ order
    · have hcond : (topologicalIndegree remaining sink == 0 && !ready.contains sink && !order.contains sink) = true := by
        simp [hready]
      rw [if_pos hcond, List.mem_cons]
      rw [topologicalIndegree_eq_zero] at hready
      grind
    · have hcond : ¬(topologicalIndegree remaining sink == 0 && !ready.contains sink && !order.contains sink) = true := by
        simpa [and_assoc] using hready
      rw [if_neg hcond]
      rw [topologicalIndegree_eq_zero] at hready
      grind

theorem nodup_foldl_pushReady {remaining : List (String × String)} {order sinks ready : List String} (h : ready.Nodup) :
    (sinks.foldl (pushReady remaining order) ready).Nodup := by
  induction sinks generalizing ready with
  | nil => exact h
  | cons sink sinks ih =>
    refine ih ?_
    unfold pushReady
    split
    · rename_i hcond
      simp only [Bool.and_eq_true, Bool.not_eq_true', List.contains_eq_mem, decide_eq_false_iff_not] at hcond
      exact List.nodup_cons.2 ⟨hcond.1.2, h⟩
    · exact h

/-! ## Taking ready nodes -/

/-- What holds while nodes are taken: the remaining edges are those of the nodes that are left, what is ready is exactly what no
remaining edge goes to, and the nodes that were taken are in order. -/
structure Taking (edges : List (String × String)) (nodes : List String) (remaining : List (String × String))
    (ready order : List String) : Prop where
  remaining_eq : remaining = edges.filter fun edge => edge.1 ∉ order
  ready_nodup : ready.Nodup
  order_nodup : order.Nodup
  apart : ∀ node ∈ ready, node ∉ order
  ready_iff : ∀ node ∈ nodes, node ∉ order → (node ∈ ready ↔ ∀ edge ∈ remaining, edge.2 ≠ node)
  ready_sub : ready ⊆ nodes
  order_sub : order ⊆ nodes
  ordered : Graphs.Ordered edges order

variable {remaining : List (String × String)} {nodes ready order : List String}

theorem Taking.start (edges : List (String × String)) : Taking edges (topologicalNodes edges) edges
    ((topologicalNodes edges).foldl (fun ready node => if topologicalIndegree edges node == 0 then node :: ready else ready) []) [] := by
  obtain ⟨hnodup, hmem⟩ := topologicalNodes_spec edges
  have hfold : ∀ (l ready : List String), (l ++ ready).Nodup →
      (l.foldl (fun ready node => if topologicalIndegree edges node == 0 then node :: ready else ready) ready).Nodup ∧
        ∀ node, node ∈ l.foldl (fun ready node => if topologicalIndegree edges node == 0 then node :: ready else ready) ready ↔
          node ∈ ready ∨ node ∈ l ∧ ∀ edge ∈ edges, edge.2 ≠ node := by
    intro l
    induction l with
    | nil => exact fun ready hready => ⟨hready, fun node => by simp⟩
    | cons other l ih =>
      intro ready hready
      by_cases hzero : topologicalIndegree edges other = 0
      · have hnext : (l ++ other :: ready).Nodup := (List.perm_middle.nodup_iff).2 hready
        obtain ⟨hnodup, hmem⟩ := ih _ hnext
        simp only [List.foldl_cons, hzero, beq_self_eq_true, if_true]
        rw [topologicalIndegree_eq_zero] at hzero
        exact ⟨hnodup, fun node => (hmem node).trans (by grind)⟩
      · obtain ⟨hnodup, hmem⟩ := ih ready (List.nodup_cons.1 hready).2
        simp only [List.foldl_cons, beq_iff_eq, if_neg hzero]
        rw [topologicalIndegree_eq_zero] at hzero
        simp only [beq_iff_eq] at hnodup hmem
        exact ⟨hnodup, fun node => (hmem node).trans (by grind)⟩
  obtain ⟨hready, hiff⟩ := hfold (topologicalNodes edges) [] (by simpa using hnodup)
  refine ⟨by simp, hready, List.nodup_nil, by simp, fun node hnode _ => (hiff node).trans (by simp [hnode]), fun node hnode => ?_, by simp,
    Graphs.ordered_nil⟩
  exact ((hiff node).1 hnode).elim (fun h => by simp at h) And.left

/-- A ready node is taken. -/
theorem Taking.step {node : String} (hnodes : ∀ edge ∈ edges, edge.2 ∈ nodes) (h : Taking edges nodes remaining (node :: ready) order) :
    Taking edges nodes (remaining.filter fun edge => edge.1 != node)
      ((topologicalOutgoing remaining node).foldl (pushReady (remaining.filter fun edge => edge.1 != node) order) ready)
      (order ++ [node]) := by
  have hnode := h.apart node List.mem_cons_self
  have hnone := (h.ready_iff node (h.ready_sub List.mem_cons_self) hnode).1 List.mem_cons_self
  obtain ⟨hnotready, hnodup⟩ := List.nodup_cons.1 h.ready_nodup
  have hsub : ∀ edge ∈ remaining, edge ∈ edges := by
    rw [h.remaining_eq]
    exact fun edge hedge => (List.mem_filter.1 hedge).1
  refine ⟨?_, nodup_foldl_pushReady hnodup, ?_, fun other hother => ?_, fun other hother hnot => ?_, fun other hother => ?_, ?_,
    h.ordered.concat fun edge hedge hto => ?_⟩
  · rw [h.remaining_eq, List.filter_filter]
    refine List.filter_congr fun edge _ => ?_
    by_cases hfrom : edge.1 = node <;> simp [hfrom]
  · exact List.nodup_append.2 ⟨h.order_nodup, by simp, by grind⟩
  · rw [List.mem_append, List.mem_singleton, not_or]
    rcases mem_foldl_pushReady.1 hother with hready | ⟨hout, -, hnot⟩
    · exact ⟨h.apart other (List.mem_cons_of_mem node hready), fun heq => hnotready (heq ▸ hready)⟩
    · refine ⟨hnot, ?_⟩
      rintro rfl
      exact hnone _ (mem_topologicalOutgoing.1 hout) rfl
  · rw [List.mem_append, List.mem_singleton, not_or] at hnot
    have hiff := h.ready_iff other hother hnot.1
    rw [mem_foldl_pushReady]
    constructor
    · rintro (hready | ⟨-, hnone', -⟩)
      · exact fun edge hedge => hiff.1 (List.mem_cons_of_mem node hready) edge (List.mem_filter.1 hedge).1
      · exact hnone'
    · intro hnone'
      by_cases hall : ∀ edge ∈ remaining, edge.2 ≠ other
      · exact Or.inl ((List.mem_cons.1 (hiff.2 hall)).resolve_left hnot.2)
      · -- the last edges into it come from the node that is taken
        push Not at hall
        obtain ⟨edge, hedge, rfl⟩ := hall
        have hfrom : edge.1 = node := by
          by_contra hne
          exact hnone' edge (List.mem_filter.2 ⟨hedge, by simpa using hne⟩) rfl
        refine Or.inr ⟨mem_topologicalOutgoing.2 ?_, hnone', hnot.1⟩
        rw [← hfrom]
        exact hedge
  · rcases mem_foldl_pushReady.1 hother with hready | ⟨hout, -, -⟩
    · exact h.ready_sub (List.mem_cons_of_mem node hready)
    · exact hnodes _ (hsub _ (mem_topologicalOutgoing.1 hout))
  · intro other hother
    rcases List.mem_append.1 hother with hother | hother
    · exact h.order_sub hother
    · exact List.mem_singleton.1 hother ▸ h.ready_sub List.mem_cons_self
  · by_contra hnot
    refine hnone edge ?_ hto
    rw [h.remaining_eq]
    exact List.mem_filter.2 ⟨hedge, decide_eq_true hnot⟩

/-- When nothing is ready, every node of an acyclic graph has been taken. -/
theorem Taking.all_taken (hacyclic : Graphs.Acyclic edges) (hnodes : ∀ edge ∈ edges, edge.1 ∈ nodes)
    (h : Taking edges nodes remaining [] order) : ∀ node ∈ nodes, node ∈ order := by
  intro node
  induction node using hacyclic.wellFounded.induction with
  | _ node ih =>
    intro hnode
    by_contra hnot
    have hnone := (h.ready_iff node hnode hnot).not.1 List.not_mem_nil
    push Not at hnone
    obtain ⟨edge, hedge, rfl⟩ := hnone
    rw [h.remaining_eq, List.mem_filter, decide_eq_true_eq] at hedge
    exact hedge.2 (ih edge.1 hedge.1 (hnodes edge hedge.1))

/-- In an acyclic graph the loop takes every node, in order. -/
theorem topologicalLoop_spec (hacyclic : Graphs.Acyclic edges) (hnodes : ∀ edge ∈ edges, edge.1 ∈ nodes ∧ edge.2 ∈ nodes) (fuel : Nat)
    (h : Taking edges nodes remaining ready order) (hfuel : nodes.length ≤ order.length + fuel) :
    (topologicalLoop fuel remaining ready order).Nodup ∧ Graphs.Ordered edges (topologicalLoop fuel remaining ready order) ∧
      ∀ node ∈ nodes, node ∈ topologicalLoop fuel remaining ready order := by
  induction fuel generalizing remaining ready order with
  | zero =>
    refine ⟨h.order_nodup, h.ordered, fun node hnode => ?_⟩
    exact ((h.order_nodup.subperm h.order_sub).perm_of_length_le hfuel).mem_iff.2 hnode
  | succ fuel ih =>
    cases ready with
    | nil => exact ⟨h.order_nodup, h.ordered, h.all_taken hacyclic fun edge hedge => (hnodes edge hedge).1⟩
    | cons node ready =>
      refine ih (h.step fun edge hedge => (hnodes edge hedge).2) ?_
      rw [List.length_append, List.length_singleton]
      omega

end

/-- The proposed order passes the check exactly when the graph is acyclic. -/
theorem topologicalOrderCheckB_propose (edges : List (String × String)) :
    topologicalOrderCheckB edges (proposeTopologicalOrder edges) = true ↔ Graphs.Acyclic edges := by
  refine ⟨topologicalOrderCheckB_sound, fun hacyclic => ?_⟩
  obtain ⟨-, hmem⟩ := topologicalNodes_spec edges
  have hnodes : ∀ edge ∈ edges, edge.1 ∈ topologicalNodes edges ∧ edge.2 ∈ topologicalNodes edges :=
    fun edge hedge => ⟨(hmem _).2 ⟨edge, hedge, Or.inl rfl⟩, (hmem _).2 ⟨edge, hedge, Or.inr rfl⟩⟩
  obtain ⟨hnodup, hordered, hall⟩ :=
    topologicalLoop_spec hacyclic hnodes (topologicalNodes edges).length (Taking.start edges) (by simp)
  rw [topologicalOrderCheckB, Bool.and_eq_true, Inventory.uniqueB_iff, edgesForwardB_iff]
  refine ⟨hnodup, fun edge hedge => ?_⟩
  have hto := hall edge.2 (hnodes edge hedge).2
  obtain ⟨hfrom, hlt⟩ := hordered.forward hnodup hedge hto
  exact ⟨hfrom, hto, hlt⟩

end ComponentGraph

end Hw

end LoomImport
