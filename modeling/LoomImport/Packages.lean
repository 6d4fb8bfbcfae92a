import LoomImport.ComponentGraph
import LoomImport.ModuleLowering

/-!
# Packages of modules

A package is an inventory of modules that instantiate each other. It is accepted when its inventory is closed and well-formed and no
value depends on itself within a cycle. That is decided module by module: a child stands for the pairs of its inputs and outputs of
which the second depends on the first.
-/

namespace LoomImport

namespace ImportIR

/-- The signals an expression reads, apart from memories. -/
def Expr.signals : Expr → List String
  | .literal .. | .partialLiteral .. => []
  | .signal _ name _ => [name]
  | .unary _ _ value _ | .slice _ value _ _ | .zeroExtend _ value _ | .signExtend _ value _ => value.signals
  | .binary _ _ left right _ | .concat _ left right _ => (left.signals ++ right.signals).eraseDups
  | .mux _ condition yes no _ => (condition.signals ++ yes.signals ++ no.signals).eraseDups
  | .memoryRead _ _ address _ => address.signals

/-- A closed inventory of modules. -/
structure Package where
  top : String
  modules : List Module
  source : SourceLocation

namespace Package

variable (package : Package)

/-! ## Instances -/

def findModule? (name : String) : Option Module := package.modules.find? fun module => module.name == name

/-- A connection is one of a port of the child: an input with a value of its width, or an output without one. -/
def connectionShapeOk (child : Module) (connection : InstanceConnection) : Bool :=
  child.ports.any fun port =>
    port.name == connection.port && port.direction == connection.direction && port.width == connection.width &&
      match connection.direction, connection.value with
      | .input, some value => value.width == connection.width
      | .output, none => true
      | _, _ => false

def instanceValidB (inst : Instance) : Bool :=
  match package.findModule? inst.moduleName with
  | none => false
  | some child =>
    !inst.name.isEmpty && inst.source.validB && inst.parameters.isEmpty &&
      Hw.Inventory.uniqueB (inst.connections.map InstanceConnection.port) &&
      Hw.Inventory.uniqueB (inst.connections.map InstanceConnection.signal) &&
      (inst.connections.all fun connection => !connection.signal.isEmpty && connection.width > 0 && connection.source.validB &&
        connectionShapeOk child connection) &&
      (child.ports.filter fun port => port.direction == .input).all fun port =>
        inst.connections.any fun connection =>
          connection.port == port.name && connection.direction == port.direction && connection.width == port.width

/-! ## Summaries -/

/-- A module, with the pairs of its inputs and outputs of which the second depends on the first. -/
abbrev BoundarySummary := String × List (String × String)

def findSummary? (summaries : List BoundarySummary) (name : String) : Option (List (String × String)) :=
  (summaries.find? fun summary => summary.1 == name).map Prod.snd

/-- The nodes reached so far and those one edge further. -/
def nextNodes (edges : List (String × String)) (reached : List String) : List String :=
  (reached ++ edges.filterMap fun edge => if reached.contains edge.1 then some edge.2 else none).eraseDups

def reachableNodes : Nat → List (String × String) → List String → List String
  | 0, _, reached => reached
  | fuel + 1, edges, reached =>
    if (nextNodes edges reached).length == reached.length then reached else reachableNodes fuel edges (nextNodes edges reached)

def reachableB (edges : List (String × String)) (source sink : String) : Bool :=
  (reachableNodes (edges.length + 1) edges [source]).contains sink

/-- The signals a value is bound from, to the net of the child's input. -/
def parentEdges (inst : Instance) : List (String × String) :=
  inst.connections.flatMap fun connection =>
    match connection.direction, connection.value with
    | .input, some value => value.signals.map fun signal => (signal, connection.signal)
    | _, _ => []

/-- The connection of a port in a direction. -/
def findConnection? (inst : Instance) (port : String) (direction : PortDirection) : Option InstanceConnection :=
  inst.connections.find? fun connection => connection.port == port && connection.direction == direction

/-- A dependency of the child, from the net of its input to that of its output. -/
def childEdge? (inst : Instance) (dependency : String × String) : Option (String × String) :=
  match findConnection? inst dependency.1 .input, findConnection? inst dependency.2 .output with
  | some input, some output => some (input.signal, output.signal)
  | _, _ => none

def childEdges (summaries : List BoundarySummary) (inst : Instance) : List (String × String) :=
  match findSummary? summaries inst.moduleName with
  | none => []
  | some dependencies => dependencies.filterMap (childEdge? inst)

def moduleDependencyEdges (summaries : List BoundarySummary) (module : Module) : List (String × String) :=
  module.instances.flatMap fun inst => parentEdges inst ++ childEdges summaries inst

def summarizeModule (summaries : List BoundarySummary) (module : Module) : BoundarySummary :=
  let edges := moduleDependencyEdges summaries module
  let inputs := module.ports.filter fun port => port.direction == .input
  let dependencies := module.outputs.flatMap fun output =>
    inputs.filterMap fun input =>
      if output.value.signals.any fun signal => reachableB edges input.name signal then some (input.name, output.name) else none
  (module.name, dependencies.eraseDups)

/-- The children of a module are summarized. -/
def readyB (summaries : List BoundarySummary) (module : Module) : Bool :=
  module.instances.all fun inst => (findSummary? summaries inst.moduleName).isSome

/-- Summarize the modules, each after its children. -/
def summarizeLoop : Nat → List Module → List BoundarySummary → Option (List BoundarySummary)
  | 0, remaining, summaries => if remaining.isEmpty then some summaries else none
  | fuel + 1, remaining, summaries =>
    if remaining.isEmpty then some summaries
    else match remaining.find? (readyB summaries) with
      | none => none
      | some module =>
        summarizeLoop fuel (remaining.filter fun other => other.name != module.name) (summaries ++ [summarizeModule summaries module])

def boundarySummaries? : Option (List BoundarySummary) := summarizeLoop (package.modules.length + 1) package.modules []

/-! ## Acceptance -/

def moduleValidB (summaries : List BoundarySummary) (module : Module) : Bool :=
  module.source.validB && !module.name.isEmpty && Hw.Inventory.uniqueB (module.instances.map Instance.name) &&
    Hw.Inventory.uniqueB (module.instances.flatMap fun inst => inst.connections.map InstanceConnection.signal) &&
    module.instances.all package.instanceValidB &&
    let edges := moduleDependencyEdges summaries module
    Hw.ComponentGraph.topologicalOrderCheckB edges (Hw.ComponentGraph.proposeTopologicalOrder edges)

/-- The modules that are instantiated by others. -/
def hierarchyEdges : List (String × String) :=
  package.modules.flatMap fun module => module.instances.map fun inst => (module.name, inst.moduleName)

def validB : Bool :=
  package.source.validB && !package.top.isEmpty && !package.modules.isEmpty &&
    Hw.Inventory.uniqueB (package.modules.map Module.name) && (package.modules.any fun module => module.name == package.top) &&
    Hw.ComponentGraph.topologicalOrderCheckB package.hierarchyEdges
      (Hw.ComponentGraph.proposeTopologicalOrder package.hierarchyEdges) &&
    match package.boundarySummaries? with
    | none => false
    | some summaries => package.modules.all fun module =>
        !(module.ports.any fun port => port.direction == .inout) && package.moduleValidB summaries module

def check? : Except String Package := do
  Hw.require package.validB
    s!"{package.source.render}: invalid hierarchy: missing child/top, duplicate inventory/net/port, direction/width/value mismatch, inout, or combinational cycle"
  return package

end Package

/-! ## The flattened hierarchy -/

/-- A dependency within a cycle between two nets below a module. A net is named by the instances it is inside of and its own name:
the inputs of a child depend on what is bound to them, and its outputs on what they are computed from. -/
inductive Flat (package : Package) : Module → List String × String → List String × String → Prop where
  | bind {module : Module} {inst : Instance} {connection : InstanceConnection} {value : Expr} {signal : String} :
    inst ∈ module.instances → connection ∈ inst.connections → connection.direction = .input → connection.value = some value →
    signal ∈ value.signals → Flat package module ([], signal) ([], connection.signal)
  | enter {module : Module} {inst : Instance} {connection : InstanceConnection} :
    inst ∈ module.instances → connection ∈ inst.connections → connection.direction = .input →
    Flat package module ([], connection.signal) ([inst.name], connection.port)
  | leave {module child : Module} {inst : Instance} {connection : InstanceConnection} {output : Output} {signal : String} :
    inst ∈ module.instances → package.findModule? inst.moduleName = some child → connection ∈ inst.connections →
    connection.direction = .output → output ∈ child.outputs → output.name = connection.port → signal ∈ output.value.signals →
    Flat package module ([inst.name], signal) ([], connection.signal)
  | inside {module child : Module} {inst : Instance} {path path' : List String} {signal signal' : String} :
    inst ∈ module.instances → package.findModule? inst.moduleName = some child → Flat package child (path, signal) (path', signal') →
    Flat package module (inst.name :: path, signal) (inst.name :: path', signal')

end ImportIR

end LoomImport
