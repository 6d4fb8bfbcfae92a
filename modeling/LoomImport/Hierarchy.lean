import LoomImport.Packages
import Mathlib.Order.WellFounded

/-!
# The check of a hierarchy is exact

The summary of a module gives exactly the dependencies of its outputs on its inputs in the flattened hierarchy, so that a path below a
module is a path along the edges the module is checked by, and back. A package is accepted exactly when its inventory is in order,
no module contains itself, and no net of the flattened hierarchy depends on itself.
-/

namespace LoomImport

namespace ImportIR

open Relation Graphs

namespace PackagesAux

/-! ## Reachability -/

section

variable {edges : List (String × String)} {source : String} {reached : List String}

@[simp] theorem mem_nextNodes {node : String} :
    node ∈ Package.nextNodes edges reached ↔ node ∈ reached ∨ ∃ edge ∈ edges, edge.1 ∈ reached ∧ edge.2 = node := by
  simp [Package.nextNodes]

theorem nodup_nextNodes : (Package.nextNodes edges reached).Nodup := Uniqueness.nodup_eraseDups _

/-- What is collected is reached. -/
theorem reaches_of_mem {fuel : Nat} (h : ∀ node ∈ reached, Reaches edges source node) :
    ∀ node ∈ Package.reachableNodes fuel edges reached, Reaches edges source node := by
  induction fuel generalizing reached with
  | zero => exact h
  | succ fuel ih =>
    unfold Package.reachableNodes
    split
    · exact h
    · refine ih fun node hnode => ?_
      rcases mem_nextNodes.1 hnode with hold | ⟨edge, hedge, hfrom, rfl⟩
      · exact h node hold
      · exact (h _ hfrom).tail hedge

/-- What is collected is closed: a round that adds nothing is reached, since every other round adds one of the ends of the edges. -/
theorem reachableNodes_closed {fuel : Nat} (hnodup : reached.Nodup) (hsource : source ∈ reached)
    (hsub : reached ⊆ source :: edges.map Prod.snd) (hfuel : edges.length + 1 < reached.length + fuel) :
    source ∈ Package.reachableNodes fuel edges reached ∧
      ∀ edge ∈ edges, edge.1 ∈ Package.reachableNodes fuel edges reached → edge.2 ∈ Package.reachableNodes fuel edges reached := by
  have hbound := (hnodup.subperm hsub).length_le
  rw [List.length_cons, List.length_map] at hbound
  induction fuel generalizing reached with
  | zero => omega
  | succ fuel ih =>
    have hgrows : reached ⊆ Package.nextNodes edges reached := fun node hnode => mem_nextNodes.2 (Or.inl hnode)
    have hnext : Package.nextNodes edges reached ⊆ source :: edges.map Prod.snd := by
      intro node hnode
      rcases mem_nextNodes.1 hnode with hold | ⟨edge, hedge, -, rfl⟩
      · exact hsub hold
      · exact List.mem_cons_of_mem _ (List.mem_map.2 ⟨edge, hedge, rfl⟩)
    have hle := (hnodup.subperm hgrows).length_le
    unfold Package.reachableNodes
    split
    · rename_i hlength
      rw [beq_iff_eq] at hlength
      have hsame := (hnodup.subperm hgrows).perm_of_length_le (Nat.le_of_eq hlength)
      refine ⟨hsource, fun edge hedge hfrom => ?_⟩
      exact hsame.mem_iff.2 (mem_nextNodes.2 (Or.inr ⟨edge, hedge, hfrom, rfl⟩))
    · rename_i hlength
      rw [beq_iff_eq] at hlength
      have hbound' := (nodup_nextNodes.subperm hnext).length_le
      rw [List.length_cons, List.length_map] at hbound'
      exact ih nodup_nextNodes (hgrows hsource) hnext (by omega) hbound'

/-- The nodes that are found from a source are those that are reached from it. -/
theorem reachableB_iff {sink : String} : Package.reachableB edges source sink = true ↔ Reaches edges source sink := by
  unfold Package.reachableB
  rw [List.contains_iff_mem]
  constructor
  · refine fun h => reaches_of_mem (fun node hnode => ?_) sink h
    rw [List.mem_singleton.1 hnode]
  · intro h
    have hstart : edges.length + 1 < [source].length + (edges.length + 1) := by simp
    obtain ⟨hsource, hclosed⟩ := reachableNodes_closed (List.nodup_singleton source) List.mem_cons_self (by simp) hstart
    exact h.of_closed hclosed hsource

end

/-! ## Finding -/

variable {package : Package} {summaries : List Package.BoundarySummary} {module child : Module} {inst : Instance}

theorem findModule?_some {name : String} (h : package.findModule? name = some module) : module ∈ package.modules ∧ module.name = name :=
  ⟨List.mem_of_find?_eq_some h, by simpa using List.find?_some h⟩

theorem findModule?_name (hnames : (package.modules.map Module.name).Nodup) (h : module ∈ package.modules) :
    package.findModule? module.name = some module := by
  cases hfind : package.findModule? module.name with
  | none => exact absurd (List.find?_eq_none.1 hfind module h) (by simp)
  | some other =>
    obtain ⟨hother, hname⟩ := findModule?_some hfind
    rw [List.inj_on_of_nodup_map hnames hother h hname]

/-- With distinct ports, a connection is found by its port and its direction. -/
theorem findConnection?_eq_some (hports : (inst.connections.map InstanceConnection.port).Nodup) {port : String} {direction : PortDirection}
    {connection : InstanceConnection} : Package.findConnection? inst port direction = some connection ↔
      connection ∈ inst.connections ∧ connection.port = port ∧ connection.direction = direction := by
  constructor
  · intro h
    exact ⟨List.mem_of_find?_eq_some h, by simpa using List.find?_some h⟩
  · rintro ⟨hmem, rfl, rfl⟩
    cases hfind : Package.findConnection? inst connection.port connection.direction with
    | none => exact absurd (List.find?_eq_none.1 hfind connection hmem) (by simp)
    | some other =>
      have hother : other.port = connection.port ∧ other.direction = connection.direction := by simpa using List.find?_some hfind
      rw [List.inj_on_of_nodup_map hports (List.mem_of_find?_eq_some hfind) hmem hother.1]

/-! ## Edges of a module -/

/-- An edge between the nets of a module: a child's input is bound to a value that reads the one net and stands for the other, or the
nets stand for an input and an output of a child of which the second depends on the first. -/
inductive Linked (summaries : List Package.BoundarySummary) (inst : Instance) : String → String → Prop where
  | bound {connection : InstanceConnection} {value : Expr} {signal : String} : connection ∈ inst.connections →
    connection.direction = .input → connection.value = some value → signal ∈ value.signals → Linked summaries inst signal connection.signal
  | through {dependencies : List (String × String)} {input output : InstanceConnection} :
    Package.findSummary? summaries inst.moduleName = some dependencies → (input.port, output.port) ∈ dependencies →
    input ∈ inst.connections → input.direction = .input → output ∈ inst.connections → output.direction = .output →
    Linked summaries inst input.signal output.signal

theorem mem_parentEdges {x y : String} : (x, y) ∈ Package.parentEdges inst ↔ ∃ connection ∈ inst.connections,
    connection.direction = .input ∧ ∃ value, connection.value = some value ∧ x ∈ value.signals ∧ connection.signal = y := by
  unfold Package.parentEdges
  rw [List.mem_flatMap]
  refine exists_congr fun connection => and_congr_right fun _ => ?_
  cases hdirection : connection.direction <;> cases hvalue : connection.value <;> simp

theorem mem_childEdges (hports : (inst.connections.map InstanceConnection.port).Nodup) {x y : String} :
    (x, y) ∈ Package.childEdges summaries inst ↔ ∃ dependencies, Package.findSummary? summaries inst.moduleName = some dependencies ∧
      ∃ input ∈ inst.connections, input.direction = .input ∧ ∃ output ∈ inst.connections, output.direction = .output ∧
        (input.port, output.port) ∈ dependencies ∧ input.signal = x ∧ output.signal = y := by
  unfold Package.childEdges
  cases hsummary : Package.findSummary? summaries inst.moduleName with
  | none => simp
  | some dependencies =>
    simp only [List.mem_filterMap, Option.some.injEq, exists_eq_left']
    constructor
    · rintro ⟨dependency, hmem, hedge⟩
      unfold Package.childEdge? at hedge
      split at hedge
      · rename_i input output hinput houtput
        cases hedge
        obtain ⟨hin, hport, hdirection⟩ := (findConnection?_eq_some hports).1 hinput
        obtain ⟨hout, hport', hdirection'⟩ := (findConnection?_eq_some hports).1 houtput
        exact ⟨input, hin, hdirection, output, hout, hdirection', by rw [hport, hport']; exact hmem, rfl, rfl⟩
      · cases hedge
    · rintro ⟨input, hin, hdirection, output, hout, hdirection', hmem, rfl, rfl⟩
      refine ⟨_, hmem, ?_⟩
      unfold Package.childEdge?
      rw [(findConnection?_eq_some hports).2 ⟨hin, rfl, hdirection⟩, (findConnection?_eq_some hports).2 ⟨hout, rfl, hdirection'⟩]

/-- The edges a module is checked by. -/
theorem edge_iff (hports : ∀ inst ∈ module.instances, (inst.connections.map InstanceConnection.port).Nodup) {x y : String} :
    Edge (Package.moduleDependencyEdges summaries module) x y ↔ ∃ inst ∈ module.instances, Linked summaries inst x y := by
  unfold Edge Package.moduleDependencyEdges
  rw [List.mem_flatMap]
  refine exists_congr fun inst => and_congr_right fun hinst => ?_
  rw [List.mem_append, mem_parentEdges, mem_childEdges (hports inst hinst)]
  constructor
  · rintro (⟨connection, hmem, hdirection, value, hvalue, hsignal, rfl⟩ |
      ⟨dependencies, hsummary, input, hin, hdirection, output, hout, hdirection', hdependency, rfl, rfl⟩)
    · exact .bound hmem hdirection hvalue hsignal
    · exact .through hsummary hdependency hin hdirection hout hdirection'
  · rintro (⟨hmem, hdirection, hvalue, hsignal⟩ | ⟨hsummary, hdependency, hin, hdirection, hout, hdirection'⟩)
    · exact Or.inl ⟨_, hmem, hdirection, _, hvalue, hsignal, rfl⟩
    · exact Or.inr ⟨_, hsummary, _, hin, hdirection, _, hout, hdirection', hdependency, rfl, rfl⟩

end PackagesAux

/-! ## Dependencies of a module -/

/-- An output of a module depends on an input of it: in the flattened hierarchy, a signal it is computed from is reached from the
input. -/
def Package.Depends (package : Package) (module : Module) (input output : String) : Prop :=
  (∃ port ∈ module.ports, port.direction = .input ∧ port.name = input) ∧
    ∃ driver ∈ module.outputs, driver.name = output ∧
      ∃ signal ∈ driver.value.signals, ReflTransGen (Flat package module) ([], input) ([], signal)

namespace PackagesAux

/-- What a module is checked against: its instances are told apart by their names, their connections by their ports, and each of
their modules is there, with a summary that has its dependencies. -/
structure Bound (package : Package) (summaries : List Package.BoundarySummary) (module : Module) : Prop where
  instances : (module.instances.map Instance.name).Nodup
  ports : ∀ inst ∈ module.instances, (inst.connections.map InstanceConnection.port).Nodup
  child : ∀ inst ∈ module.instances, ∃ child dependencies, package.findModule? inst.moduleName = some child ∧
    Package.findSummary? summaries inst.moduleName = some dependencies ∧
    (∀ input output, (input, output) ∈ dependencies ↔ package.Depends child input output) ∧
    ∀ connection ∈ inst.connections, connection.direction = .input →
      ∃ port ∈ child.ports, port.direction = .input ∧ port.name = connection.port

/-! ## Paths below a module -/

/-- A path inside of a child is one below the module. -/
theorem inside_path (hinst : inst ∈ module.instances) (hchild : package.findModule? inst.moduleName = some child)
    {a b : List String × String} (h : ReflTransGen (Flat package child) a b) :
    ReflTransGen (Flat package module) (inst.name :: a.1, a.2) (inst.name :: b.1, b.2) := by
  induction h with
  | refl => exact .refl
  | tail _ hstep ih => exact ih.tail (.inside hinst hchild hstep)

section

variable (bound : Bound package summaries module)
include bound

theorem Bound.inst_eq {other : Instance} (hinst : inst ∈ module.instances) (hother : other ∈ module.instances)
    (hname : inst.name = other.name) : inst = other :=
  List.inj_on_of_nodup_map bound.instances hinst hother hname

/-- An edge a module is checked by is a path below it. -/
theorem path_of_linked {x y : String} (hinst : inst ∈ module.instances) (h : Linked summaries inst x y) :
    TransGen (Flat package module) ([], x) ([], y) := by
  obtain ⟨child, dependencies, hchild, hsummary, hexact, -⟩ := bound.child inst hinst
  cases h with
  | bound hmem hdirection hvalue hsignal => exact .single (.bind hinst hmem hdirection hvalue hsignal)
  | through hsummary' hdependency hin hdirection hout hdirection' =>
    rw [hsummary] at hsummary'
    cases hsummary'
    obtain ⟨-, driver, hdriver, hname, signal, hsignal, hpath⟩ := (hexact _ _).1 hdependency
    have hbelow := (inside_path hinst hchild hpath).head (.enter hinst hin hdirection)
    exact .tail' hbelow (.leave hinst hchild hout hdirection' hdriver hname hsignal)

end

/-- What is reached from a net of a module: a net along its edges, or a net inside of a child, from one of the child's inputs. -/
def Found (package : Package) (summaries : List Package.BoundarySummary) (module : Module) (x : String) : List String × String → Prop
  | ([], y) => Reaches (Package.moduleDependencyEdges summaries module) x y
  | (name :: path, y) => ∃ inst ∈ module.instances, inst.name = name ∧ ∃ child, package.findModule? inst.moduleName = some child ∧
      ∃ connection ∈ inst.connections, connection.direction = .input ∧
        Reaches (Package.moduleDependencyEdges summaries module) x connection.signal ∧
        ReflTransGen (Flat package child) ([], connection.port) (path, y)

section

variable (bound : Bound package summaries module)
include bound

/-- A step to a net of the module is the end of a path along its edges. -/
theorem Found.last {x y : String} {node : List String × String} (h : Found package summaries module x node)
    (hstep : Flat package module node ([], y)) : TransGen (Edge (Package.moduleDependencyEdges summaries module)) x y := by
  cases hstep with
  | bind hinst hmem hdirection hvalue hsignal =>
    exact .tail' h ((edge_iff bound.ports).2 ⟨_, hinst, .bound hmem hdirection hvalue hsignal⟩)
  | @leave _ child inst _ driver _ hinst hchild hmem hdirection hdriver hname hsignal =>
    obtain ⟨other, hother, hsame, child', hchild', input, hin, hdirection', hreaches, hpath⟩ := h
    cases bound.inst_eq hother hinst hsame
    rw [hchild] at hchild'
    cases hchild'
    obtain ⟨found, dependencies, hfound, hsummary, hexact, hports⟩ := bound.child inst hinst
    rw [hchild] at hfound
    cases hfound
    have hdepends : package.Depends child input.port _ := ⟨hports input hin hdirection', driver, hdriver, hname, _, hsignal, hpath⟩
    exact .tail' hreaches
      ((edge_iff bound.ports).2 ⟨inst, hinst, .through hsummary ((hexact _ _).2 hdepends) hin hdirection' hmem hdirection⟩)

theorem Found.step {x : String} {node next : List String × String} (h : Found package summaries module x node)
    (hstep : Flat package module node next) : Found package summaries module x next := by
  obtain ⟨path, y⟩ := next
  cases path with
  | nil => exact (Found.last bound h hstep).to_reflTransGen
  | cons name path =>
    cases hstep with
    | enter hinst hmem hdirection =>
      obtain ⟨child, -, hchild, -⟩ := bound.child _ hinst
      exact ⟨_, hinst, rfl, child, hchild, _, hmem, hdirection, h, .refl⟩
    | inside hinst hchild hstep =>
      obtain ⟨other, hother, hsame, child', hchild', input, hin, hdirection, hreaches, hpath⟩ := h
      cases bound.inst_eq hother hinst hsame
      rw [hchild] at hchild'
      cases hchild'
      exact ⟨_, hinst, rfl, _, hchild, input, hin, hdirection, hreaches, hpath.tail hstep⟩

/-- Everything that is reached from a net of the module is found. -/
theorem found_of_path {x : String} {node : List String × String} (h : ReflTransGen (Flat package module) ([], x) node) :
    Found package summaries module x node := by
  induction h with
  | refl => exact .refl
  | tail _ hstep ih => exact ih.step bound hstep

/-- The nets of a module are reached from each other along the edges it is checked by exactly as below it. -/
theorem reaches_iff {x y : String} : Reaches (Package.moduleDependencyEdges summaries module) x y ↔
    ReflTransGen (Flat package module) ([], x) ([], y) := by
  refine ⟨fun h => ?_, found_of_path bound⟩
  induction h with
  | refl => exact .refl
  | tail _ hedge ih =>
    obtain ⟨inst, hinst, hlinked⟩ := (edge_iff bound.ports).1 hedge
    exact ih.trans (path_of_linked bound hinst hlinked).to_reflTransGen

theorem cycle_iff {x : String} : TransGen (Edge (Package.moduleDependencyEdges summaries module)) x x ↔
    TransGen (Flat package module) ([], x) ([], x) := by
  constructor
  · intro h
    obtain ⟨y, hreaches, hedge⟩ := TransGen.tail'_iff.1 h
    obtain ⟨inst, hinst, hlinked⟩ := (edge_iff bound.ports).1 hedge
    exact (path_of_linked bound hinst hlinked).trans_right ((reaches_iff bound).1 hreaches)
  · intro h
    obtain ⟨node, hpath, hstep⟩ := TransGen.tail'_iff.1 h
    exact (found_of_path bound hpath).last bound hstep

/-! ## Cycles below a module -/

/-- A path from inside of a child stays in the child or passes a net of the module. -/
theorem stays_or_leaves (hinst : inst ∈ module.instances) (hchild : package.findModule? inst.moduleName = some child)
    {path : List String} {a : String} {node : List String × String} (h : TransGen (Flat package module) (inst.name :: path, a) node) :
    (∃ y, TransGen (Flat package module) (inst.name :: path, a) ([], y) ∧ ReflTransGen (Flat package module) ([], y) node) ∨
      ∃ path' b, node = (inst.name :: path', b) ∧ TransGen (Flat package child) (path, a) (path', b) := by
  have hinside : ∀ {path b next}, Flat package module (inst.name :: path, b) next →
      (∃ y, next = ([], y)) ∨ ∃ path' c, next = (inst.name :: path', c) ∧ Flat package child (path, b) (path', c) := by
    intro path b next hstep
    generalize hnode : (inst.name :: path, b) = node at hstep
    cases hstep with
    | bind => cases hnode
    | enter => cases hnode
    | leave => exact Or.inl ⟨_, rfl⟩
    | inside hother hchild' hstep =>
      obtain ⟨hnames, rfl⟩ := Prod.mk.inj hnode
      obtain ⟨hname, rfl⟩ := List.cons.inj hnames
      cases bound.inst_eq hinst hother hname
      rw [hchild] at hchild'
      cases hchild'
      exact Or.inr ⟨_, _, rfl, hstep⟩
  induction h with
  | single hstep =>
    rcases hinside hstep with ⟨y, rfl⟩ | ⟨path', c, rfl, hstep'⟩
    · exact Or.inl ⟨y, .single hstep, .refl⟩
    · exact Or.inr ⟨path', c, rfl, .single hstep'⟩
  | tail hpath hstep ih =>
    rcases ih with ⟨y, hto, hfrom⟩ | ⟨path', b, rfl, hwithin⟩
    · exact Or.inl ⟨y, hto, hfrom.tail hstep⟩
    · rcases hinside hstep with ⟨y, rfl⟩ | ⟨path'', c, rfl, hstep'⟩
      · exact Or.inl ⟨y, hpath.tail hstep, .refl⟩
      · exact Or.inr ⟨path'', c, rfl, hwithin.tail hstep'⟩

/-- Below a module without cycles among its own nets and inside of its children, there is no cycle. -/
theorem no_cycle (hlocal : Acyclic (Package.moduleDependencyEdges summaries module))
    (hchildren : ∀ inst ∈ module.instances, ∀ child, package.findModule? inst.moduleName = some child →
      ∀ node, ¬TransGen (Flat package child) node node) (node : List String × String) : ¬TransGen (Flat package module) node node := by
  obtain ⟨path, a⟩ := node
  cases path with
  | nil => exact fun h => hlocal a ((cycle_iff bound).2 h)
  | cons name path =>
    intro h
    have hname : ∃ inst ∈ module.instances, inst.name = name := by
      obtain ⟨next, hstep, -⟩ := TransGen.head'_iff.1 h
      cases hstep with
      | leave hinst => exact ⟨_, hinst, rfl⟩
      | inside hinst => exact ⟨_, hinst, rfl⟩
    obtain ⟨inst, hinst, rfl⟩ := hname
    obtain ⟨child, -, hchild, -⟩ := bound.child inst hinst
    rcases stays_or_leaves bound hinst hchild h with ⟨y, hto, hfrom⟩ | ⟨path', b, hnode, hwithin⟩
    · exact hlocal y ((cycle_iff bound).2 (hto.trans_right hfrom))
    · cases hnode
      exact hchildren inst hinst child hchild _ hwithin

/-- The summary of a module has its dependencies. -/
theorem mem_summarizeModule {input output : String} :
    (input, output) ∈ (Package.summarizeModule summaries module).2 ↔ package.Depends module input output := by
  simp only [Package.summarizeModule, List.mem_eraseDups, List.mem_flatMap, List.mem_filterMap, List.mem_filter, beq_iff_eq, List.any_eq_true,
    reachableB_iff, Option.ite_none_right_eq_some, Option.some.injEq, Prod.mk.injEq, reaches_iff bound]
  constructor
  · rintro ⟨driver, hdriver, port, ⟨hport, hdirection⟩, ⟨signal, hsignal, hpath⟩, rfl, rfl⟩
    exact ⟨⟨port, hport, hdirection, rfl⟩, driver, hdriver, rfl, signal, hsignal, hpath⟩
  · rintro ⟨⟨port, hport, hdirection, rfl⟩, driver, hdriver, rfl, signal, hsignal, hpath⟩
    exact ⟨driver, hdriver, port, ⟨hport, hdirection⟩, ⟨signal, hsignal, hpath⟩, rfl, rfl⟩

end

end PackagesAux

/-! ## The inventory -/

/-- A module is in order: it is named, its instances and the nets they are connected to are told apart, and every instance is one of a
module of the package and connects its ports in the right directions and widths. -/
structure Package.InOrder (package : Package) (module : Module) : Prop where
  no_inout : ∀ port ∈ module.ports, port.direction ≠ .inout
  source : module.source.validB = true
  name : module.name.isEmpty = false
  instances : (module.instances.map Instance.name).Nodup
  nets : (module.instances.flatMap fun inst => inst.connections.map InstanceConnection.signal).Nodup
  valid : ∀ inst ∈ module.instances, package.instanceValidB inst = true

/-- The inventory of a package is in order: what is checked of it besides cycles. -/
structure Package.Inventoried (package : Package) : Prop where
  source : package.source.validB = true
  top : package.top.isEmpty = false
  names : (package.modules.map Module.name).Nodup
  top_mem : ∃ module ∈ package.modules, module.name = package.top
  modules : ∀ module ∈ package.modules, package.InOrder module

namespace PackagesAux

variable {package : Package} {summaries : List Package.BoundarySummary} {remaining : List Module} {module child : Module}
  {inst : Instance}

/-- What the check of an instance gives. -/
theorem instanceValidB_spec (h : package.instanceValidB inst = true) : (inst.connections.map InstanceConnection.port).Nodup ∧
    ∃ child, package.findModule? inst.moduleName = some child ∧ ∀ connection ∈ inst.connections,
      ∃ port ∈ child.ports, port.direction = connection.direction ∧ port.name = connection.port := by
  unfold Package.instanceValidB at h
  cases hchild : package.findModule? inst.moduleName with
  | none => simp [hchild] at h
  | some child =>
    simp only [hchild, Bool.and_eq_true, Hw.Inventory.uniqueB_iff, List.all_eq_true] at h
    obtain ⟨⟨⟨⟨-, hports⟩, -⟩, hconnections⟩, -⟩ := h
    refine ⟨hports, child, rfl, fun connection hmem => ?_⟩
    obtain ⟨-, hshape⟩ := hconnections connection hmem
    obtain ⟨port, hport, hsame⟩ := List.any_eq_true.1 hshape
    simp only [Bool.and_eq_true, beq_iff_eq] at hsame
    exact ⟨port, hport, hsame.1.1.2, hsame.1.1.1⟩

theorem findSummary?_isSome {name : String} :
    (Package.findSummary? summaries name).isSome = true ↔ name ∈ summaries.map Prod.fst := by
  simp [Package.findSummary?]

theorem findSummary?_concat {summary : Package.BoundarySummary} {name : String} {dependencies : List (String × String)}
    (h : Package.findSummary? (summaries ++ [summary]) name = some dependencies) :
    Package.findSummary? summaries name = some dependencies ∨ summary = (name, dependencies) := by
  unfold Package.findSummary? at h ⊢
  rw [List.find?_append] at h
  cases hold : summaries.find? fun summary => summary.1 == name with
  | some old => exact Or.inl (by simpa [hold] using h)
  | none =>
    rw [hold, Option.none_or] at h
    by_cases hname : summary.1 = name
    · simp only [List.find?_cons, hname, beq_self_eq_true, Option.map_some, Option.some.injEq] at h
      exact Or.inr (Prod.ext hname h)
    · simp [hname] at h

/-- The modules that contain others, from the inner ones to the outer ones. -/
theorem mem_hierarchyEdges {parent child : String} : (parent, child) ∈ package.hierarchyEdges ↔
    ∃ module ∈ package.modules, module.name = parent ∧ ∃ inst ∈ module.instances, inst.moduleName = child := by
  unfold Package.hierarchyEdges
  grind

/-! ## Summaries -/

/-- What holds while modules are summarized: the summaries have the dependencies, the modules that have none are left, and every
module is summarized after those it contains. -/
structure Summarized (package : Package) (remaining : List Module) (summaries : List Package.BoundarySummary) : Prop where
  exact : ∀ name dependencies, Package.findSummary? summaries name = some dependencies →
    ∃ module, package.findModule? name = some module ∧ ∀ input output, (input, output) ∈ dependencies ↔ package.Depends module input output
  covered : ∀ module ∈ package.modules, module ∈ remaining ∨ module.name ∈ summaries.map Prod.fst
  remaining_sub : remaining ⊆ package.modules
  apart : ∀ module ∈ remaining, module.name ∉ summaries.map Prod.fst
  nodup : (summaries.map Prod.fst).Nodup
  ordered : Ordered (package.hierarchyEdges.map Prod.swap) (summaries.map Prod.fst)

theorem Summarized.start (package : Package) : Summarized package package.modules [] := by
  refine ⟨fun _ _ h => ?_, fun _ h => Or.inl h, fun _ h => h, by simp, List.nodup_nil, ordered_nil⟩
  cases h

/-- When every module is summarized, the hierarchy has an order. -/
theorem Summarized.acyclic (h : Summarized package [] summaries) : Acyclic package.hierarchyEdges := by
  refine acyclic_swap.1 (acyclic_of_rank (summaries.map Prod.fst).idxOf fun edge hedge => (h.ordered.forward h.nodup hedge ?_).2)
  obtain ⟨module, hmodule, hname, -⟩ := mem_hierarchyEdges.1 (edge_swap.1 hedge)
  exact hname ▸ (h.covered module hmodule).resolve_left List.not_mem_nil

section

variable (inventory : package.Inventoried)
include inventory

/-- A module whose children are summarized can be checked against the summaries. -/
theorem Summarized.bound (h : Summarized package remaining summaries) (hmodule : module ∈ package.modules)
    (hchildren : ∀ inst ∈ module.instances, inst.moduleName ∈ summaries.map Prod.fst) : Bound package summaries module := by
  have hin := inventory.modules module hmodule
  refine ⟨hin.instances, fun inst hinst => (instanceValidB_spec (hin.valid inst hinst)).1, fun inst hinst => ?_⟩
  obtain ⟨-, child, hchild, hports⟩ := instanceValidB_spec (hin.valid inst hinst)
  obtain ⟨dependencies, hsummary⟩ := Option.isSome_iff_exists.1 (findSummary?_isSome.2 (hchildren inst hinst))
  obtain ⟨found, hfound, hexact⟩ := h.exact _ _ hsummary
  rw [hchild] at hfound
  cases hfound
  refine ⟨child, dependencies, hchild, hsummary, hexact, fun connection hmem hdirection => ?_⟩
  obtain ⟨port, hport, hsame, hname⟩ := hports connection hmem
  exact ⟨port, hport, hsame.trans hdirection, hname⟩

/-- A module whose children are summarized is summarized. -/
theorem Summarized.step (h : Summarized package remaining summaries) (hmodule : module ∈ remaining)
    (hready : Package.readyB summaries module = true) :
    Summarized package (remaining.filter fun other => other.name != module.name) (summaries ++ [Package.summarizeModule summaries module]) := by
  have hmem := h.remaining_sub hmodule
  have hchildren : ∀ inst ∈ module.instances, inst.moduleName ∈ summaries.map Prod.fst := by
    intro inst hinst
    exact findSummary?_isSome.1 (List.all_eq_true.1 hready inst hinst)
  have hbound := h.bound inventory hmem hchildren
  have hnames : (summaries ++ [Package.summarizeModule summaries module]).map Prod.fst = summaries.map Prod.fst ++ [module.name] := by
    simp [Package.summarizeModule]
  refine ⟨fun name dependencies hfind => ?_, fun other hother => ?_, fun other hother => ?_, fun other hother => ?_, ?_, ?_⟩
  · rcases findSummary?_concat hfind with hold | hnew
    · exact h.exact name dependencies hold
    · obtain rfl : module.name = name := congrArg Prod.fst hnew
      refine ⟨module, findModule?_name inventory.names hmem, fun input output => ?_⟩
      obtain rfl : (Package.summarizeModule summaries module).2 = dependencies := congrArg Prod.snd hnew
      exact mem_summarizeModule hbound
  · rw [hnames, List.mem_append, List.mem_singleton, List.mem_filter, bne_iff_ne]
    by_cases hname : other.name = module.name
    · exact Or.inr (Or.inr hname)
    · exact (h.covered other hother).imp (fun hleft => ⟨hleft, hname⟩) Or.inl
  · exact h.remaining_sub (List.mem_filter.1 hother).1
  · rw [List.mem_filter, bne_iff_ne] at hother
    rw [hnames, List.mem_append, List.mem_singleton, not_or]
    exact ⟨h.apart other hother.1, hother.2⟩
  · rw [hnames]
    exact List.nodup_append.2 ⟨h.nodup, by simp, by grind [h.apart module hmodule]⟩
  · rw [hnames]
    refine h.ordered.concat fun edge hedge hto => ?_
    obtain ⟨other, hother, hname, inst, hinst, hchild⟩ := mem_hierarchyEdges.1 (edge_swap.1 hedge)
    obtain rfl := List.inj_on_of_nodup_map inventory.names hother hmem (hname.trans hto)
    exact hchild ▸ hchildren inst hinst

theorem summarizeLoop_summarized {fuel : Nat} {result : List Package.BoundarySummary} (h : Summarized package remaining summaries)
    (hloop : Package.summarizeLoop fuel remaining summaries = some result) : Summarized package [] result := by
  induction fuel generalizing remaining summaries with
  | zero =>
    unfold Package.summarizeLoop at hloop
    split at hloop
    · rename_i hempty
      cases hloop
      rw [List.isEmpty_iff] at hempty
      exact hempty ▸ h
    · cases hloop
  | succ fuel ih =>
    unfold Package.summarizeLoop at hloop
    split at hloop
    · rename_i hempty
      cases hloop
      rw [List.isEmpty_iff] at hempty
      exact hempty ▸ h
    · split at hloop
      · cases hloop
      · rename_i module hfind
        exact ih (h.step inventory (List.mem_of_find?_eq_some hfind) (List.find?_some hfind)) hloop

/-- As long as modules are left, one of them contains none of the others. -/
theorem Summarized.ready (hacyclic : Acyclic package.hierarchyEdges) (h : Summarized package remaining summaries) (hne : remaining ≠ []) :
    ∃ module, remaining.find? (Package.readyB summaries) = some module := by
  rw [← Option.isSome_iff_exists, List.find?_isSome]
  obtain ⟨first, hfirst⟩ := List.exists_mem_of_ne_nil remaining hne
  obtain ⟨-, ⟨module, hmodule, rfl⟩, hmin⟩ :=
    (acyclic_swap.2 hacyclic).wellFounded.has_min {name | ∃ module ∈ remaining, module.name = name} ⟨_, first, hfirst, rfl⟩
  refine ⟨module, hmodule, List.all_eq_true.2 fun inst hinst => findSummary?_isSome.2 ?_⟩
  have hmem := h.remaining_sub hmodule
  obtain ⟨-, child, hchild, -⟩ := instanceValidB_spec ((inventory.modules module hmem).valid inst hinst)
  obtain ⟨hchild, hname⟩ := findModule?_some hchild
  rcases h.covered child hchild with hleft | hsummary
  · exact absurd (edge_swap.2 (mem_hierarchyEdges.2 ⟨module, hmem, rfl, inst, hinst, rfl⟩)) (hmin _ ⟨child, hleft, hname⟩)
  · exact hname ▸ hsummary

theorem summarizeLoop_isSome (hacyclic : Acyclic package.hierarchyEdges) {fuel : Nat} (h : Summarized package remaining summaries)
    (hfuel : remaining.length ≤ fuel) : (Package.summarizeLoop fuel remaining summaries).isSome = true := by
  induction fuel generalizing remaining summaries with
  | zero =>
    obtain rfl := List.length_eq_zero_iff.1 (Nat.le_zero.1 hfuel)
    rfl
  | succ fuel ih =>
    unfold Package.summarizeLoop
    split
    · rfl
    · rename_i hne
      rw [List.isEmpty_iff] at hne
      obtain ⟨module, hfind⟩ := h.ready inventory hacyclic hne
      have hmodule := List.mem_of_find?_eq_some hfind
      have hshorter : (remaining.filter fun other => other.name != module.name).length < remaining.length :=
        List.length_filter_lt_length_iff_exists.2 ⟨module, hmodule, by simp⟩
      rw [hfind]
      exact ih (h.step inventory hmodule (List.find?_some hfind)) (by omega)

/-- When every module is summarized, each can be checked against the summaries. -/
theorem Summarized.bound_all (h : Summarized package [] summaries) (hmodule : module ∈ package.modules) :
    Bound package summaries module := by
  refine h.bound inventory hmodule fun inst hinst => ?_
  obtain ⟨-, child, hchild, -⟩ := instanceValidB_spec ((inventory.modules module hmodule).valid inst hinst)
  obtain ⟨hchild, hname⟩ := findModule?_some hchild
  exact hname ▸ (h.covered child hchild).resolve_left List.not_mem_nil

/-- Without cycles among the nets of any module, there is none in the flattened hierarchy. -/
theorem Summarized.flat_acyclic (h : Summarized package [] summaries)
    (hlocal : ∀ module ∈ package.modules, Acyclic (Package.moduleDependencyEdges summaries module)) :
    ∀ module ∈ package.modules, ∀ node, ¬TransGen (Flat package module) node node := by
  have hbelow : ∀ name, ∀ module ∈ package.modules, module.name = name → ∀ node, ¬TransGen (Flat package module) node node := by
    intro name
    induction name using (acyclic_swap.2 h.acyclic).wellFounded.induction with
    | _ name ih =>
      rintro module hmodule rfl
      refine no_cycle (h.bound_all inventory hmodule) (hlocal module hmodule) fun inst hinst child hchild => ?_
      obtain ⟨hchild, hname⟩ := findModule?_some hchild
      exact ih inst.moduleName (edge_swap.2 (mem_hierarchyEdges.2 ⟨module, hmodule, rfl, inst, hinst, rfl⟩)) child hchild hname
  exact fun module hmodule => hbelow module.name module hmodule rfl

end

theorem boundarySummaries?_summarized (inventory : package.Inventoried) (h : package.boundarySummaries? = some summaries) :
    Summarized package [] summaries :=
  summarizeLoop_summarized inventory (Summarized.start package) h

/-- What the check of a module asks for: that it is in order, and that its nets have no cycle along its edges. -/
theorem moduleValidB_iff : (module.ports.any fun port => port.direction == .inout) = false ∧ package.moduleValidB summaries module = true ↔
    package.InOrder module ∧ Acyclic (Package.moduleDependencyEdges summaries module) := by
  unfold Package.moduleValidB
  simp only [Bool.and_eq_true, Bool.not_eq_true', List.any_eq_false, beq_iff_eq, List.all_eq_true, Hw.Inventory.uniqueB_iff,
    Hw.ComponentGraph.topologicalOrderCheckB_propose]
  constructor
  · rintro ⟨hinout, ⟨⟨⟨⟨hsource, hname⟩, hinstances⟩, hnets⟩, hvalid⟩, hacyclic⟩
    exact ⟨⟨hinout, hsource, hname, hinstances, hnets, hvalid⟩, hacyclic⟩
  · rintro ⟨⟨hinout, hsource, hname, hinstances, hnets, hvalid⟩, hacyclic⟩
    exact ⟨hinout, ⟨⟨⟨⟨hsource, hname⟩, hinstances⟩, hnets⟩, hvalid⟩, hacyclic⟩

end PackagesAux

open PackagesAux

/-- The modules of a package in order are summarized exactly when none of them contains itself, and then the summary of each module has
the pairs of an input and an output of which the second depends on the first in the flattened hierarchy. -/
theorem boundarySummaries?_exact (package : Package) (inventory : package.Inventoried) :
    (package.boundarySummaries?.isSome = true ↔ Acyclic package.hierarchyEdges) ∧
      ∀ summaries, package.boundarySummaries? = some summaries → ∀ module ∈ package.modules,
        ∃ dependencies, Package.findSummary? summaries module.name = some dependencies ∧
          ∀ input output, (input, output) ∈ dependencies ↔ package.Depends module input output := by
  refine ⟨⟨fun h => ?_, fun hacyclic => ?_⟩, fun summaries hsummaries module hmodule => ?_⟩
  · obtain ⟨summaries, hsummaries⟩ := Option.isSome_iff_exists.1 h
    exact (boundarySummaries?_summarized inventory hsummaries).acyclic
  · exact summarizeLoop_isSome inventory hacyclic (Summarized.start package) (Nat.le_succ _)
  · have hall := boundarySummaries?_summarized inventory hsummaries
    have hnamed := (hall.covered module hmodule).resolve_left List.not_mem_nil
    obtain ⟨dependencies, hfind⟩ := Option.isSome_iff_exists.1 (findSummary?_isSome.2 hnamed)
    obtain ⟨found, hfound, hexact⟩ := hall.exact _ _ hfind
    rw [findModule?_name inventory.names hmodule] at hfound
    cases hfound
    exact ⟨dependencies, hfind, hexact⟩

/-- An inverter. -/
def inverter : Module where
  name := "inverter"
  ports := [⟨"a", .input, 1, "logic", ⟨"twice.v", 1, 1, 1, 9⟩⟩, ⟨"y", .output, 1, "logic", ⟨"twice.v", 1, 1, 1, 9⟩⟩]
  domains := []
  registers := []
  memories := []
  outputs := [⟨"y", 1, .unary 1 .bitNot (.signal 1 "a" ⟨"twice.v", 2, 1, 2, 9⟩) ⟨"twice.v", 2, 1, 2, 9⟩, ⟨"twice.v", 2, 1, 2, 9⟩⟩]
  instances := []
  unsupported := []
  source := ⟨"twice.v", 1, 1, 3, 9⟩

/-- An instance of the inverter, between a net that is read and one that is driven. -/
def inverterAt (name read driven : String) : Instance where
  name := name
  moduleName := "inverter"
  parameters := []
  connections := [⟨"a", .input, name ++ ".a", 1, some (.signal 1 read ⟨"twice.v", 6, 1, 6, 9⟩), ⟨"twice.v", 6, 1, 6, 9⟩⟩,
    ⟨"y", .output, driven, 1, none, ⟨"twice.v", 6, 1, 6, 9⟩⟩]
  source := ⟨"twice.v", 6, 1, 6, 9⟩

/-- Two inverters, one after the other. -/
def twice : Package where
  top := "twice"
  modules := [{
    name := "twice"
    ports := [⟨"x", .input, 1, "logic", ⟨"twice.v", 4, 1, 4, 9⟩⟩, ⟨"z", .output, 1, "logic", ⟨"twice.v", 4, 1, 4, 9⟩⟩]
    domains := []
    registers := []
    memories := []
    outputs := [⟨"z", 1, .signal 1 "last" ⟨"twice.v", 8, 1, 8, 9⟩, ⟨"twice.v", 8, 1, 8, 9⟩⟩]
    instances := [inverterAt "first" "x" "mid", inverterAt "second" "mid" "last"]
    unsupported := []
    source := ⟨"twice.v", 4, 1, 9, 9⟩ }, inverter]
  source := ⟨"twice.v", 1, 1, 9, 9⟩

theorem twice_inventoried : twice.Inventoried := by
  refine ⟨by decide +kernel, by decide +kernel, by decide +kernel, by decide +kernel, fun module hmodule => ?_⟩
  rcases List.mem_cons.1 hmodule with rfl | hmodule
  · exact ⟨by decide +kernel, by decide +kernel, by decide +kernel, by decide +kernel, by decide +kernel, by decide +kernel⟩
  · obtain rfl := List.mem_singleton.1 hmodule
    exact ⟨by decide +kernel, by decide +kernel, by decide +kernel, by decide +kernel, by decide +kernel, by decide +kernel⟩

/-- The output of the two inverters depends on the input. -/
theorem boundarySummaries?_exact_twice : ∃ module ∈ twice.modules, twice.Depends module "x" "z" := by
  have hsome : twice.boundarySummaries? = some [("inverter", [("a", "y")]), ("twice", [("x", "z")])] := by decide +kernel
  refine ⟨_, List.mem_cons_self, ?_⟩
  obtain ⟨dependencies, hfind, hexact⟩ := (boundarySummaries?_exact twice twice_inventoried).2 _ hsome _ List.mem_cons_self
  obtain rfl : [("x", "z")] = dependencies := by simpa [Package.findSummary?] using hfind
  exact (hexact "x" "z").1 List.mem_cons_self

/-- A package is accepted exactly when its inventory is in order, no module contains itself, and below no module a net depends on
itself within a cycle, however many levels of the hierarchy the dependency goes through. -/
theorem validB_iff_flat_acyclic (package : Package) : package.validB = true ↔
    package.Inventoried ∧ Acyclic package.hierarchyEdges ∧
      ∀ module ∈ package.modules, ∀ node, ¬TransGen (Flat package module) node node := by
  unfold Package.validB
  constructor
  · intro h
    cases hsummaries : package.boundarySummaries? with
    | none => simp [hsummaries] at h
    | some summaries =>
      simp only [hsummaries, Bool.and_eq_true, Bool.not_eq_true', List.any_eq_true, beq_iff_eq, List.all_eq_true, Hw.Inventory.uniqueB_iff,
        Hw.ComponentGraph.topologicalOrderCheckB_propose] at h
      obtain ⟨⟨⟨⟨⟨⟨hsource, htop⟩, -⟩, hnames⟩, htop_mem⟩, hhierarchy⟩, hmodules⟩ := h
      have hvalid := fun module hmodule => moduleValidB_iff.1 (hmodules module hmodule)
      have inventory : package.Inventoried := ⟨hsource, htop, hnames, htop_mem, fun module hmodule => (hvalid module hmodule).1⟩
      have hall := boundarySummaries?_summarized inventory hsummaries
      exact ⟨inventory, hhierarchy, hall.flat_acyclic inventory fun module hmodule => (hvalid module hmodule).2⟩
  · rintro ⟨inventory, hhierarchy, hflat⟩
    have hsome : package.boundarySummaries?.isSome = true :=
      summarizeLoop_isSome inventory hhierarchy (Summarized.start package) (Nat.le_succ _)
    obtain ⟨summaries, hsummaries⟩ := Option.isSome_iff_exists.1 hsome
    have hall := boundarySummaries?_summarized inventory hsummaries
    obtain ⟨top, htop, htop_name⟩ := inventory.top_mem
    have hne : package.modules.isEmpty = false := List.isEmpty_eq_false_iff.2 (List.ne_nil_of_mem htop)
    simp only [hsummaries, Bool.and_eq_true, Bool.not_eq_true', List.any_eq_true, beq_iff_eq, List.all_eq_true, Hw.Inventory.uniqueB_iff,
      Hw.ComponentGraph.topologicalOrderCheckB_propose]
    refine ⟨⟨⟨⟨⟨⟨inventory.source, inventory.top⟩, hne⟩, inventory.names⟩, ⟨top, htop, htop_name⟩⟩, hhierarchy⟩, fun module hmodule => ?_⟩
    refine moduleValidB_iff.2 ⟨inventory.modules module hmodule, fun net hcycle => ?_⟩
    exact hflat module hmodule ([], net) ((cycle_iff (hall.bound_all inventory hmodule)).1 hcycle)

end ImportIR

end LoomImport
