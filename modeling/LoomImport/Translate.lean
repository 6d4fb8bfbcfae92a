import LoomImport.ImportJson
import LoomImport.Registers
import LoomImport.Writes
import Mathlib.Data.List.Sort

/-!
# The translation of a module

The memories with write ports, the registers, the child instances and the outputs of a module are translated in this order over one
cache, and what has no translation is blocked. The result is the module that is parsed from the document that is written: there is
none when the parser refuses it, for a direction it does not know or a negative reset value.
-/

namespace LoomImport

open ImportIR

/-- `sorted(entries.items())`: the names are distinct. -/
def sortedEntries {α : Type} (entries : List (String × α)) : List (String × α) := entries.insertionSort fun a b => a.1 ≤ b.1

/-- `str(value)`. -/
def Param.text : Param → String
  | .int n => toString n
  | .str text => text

/-- What is written of a blocker. -/
def UnsupportedRecord.construct (r : UnsupportedRecord) : UnsupportedConstruct := ⟨r.kind, r.detail, r.source⟩

/-- The direction of a port, as the document is parsed. -/
def portDirection? (direction : String) : Option PortDirection := (ImportJson.parsePortDirection direction).toOption

/-! ## Ports and clock domains -/

namespace Setting

variable (Γ : Setting)

/-- The input port that supplies a vector, or a public name of it. -/
def inputPortName (bits : List Bit) (fallback : String) : String :=
  let names := (Γ.module.ports.entries.filter fun entry => entry.2.direction = "input" && entry.2.bits = bits).map Prod.fst
  (firstName names).getD (Γ.publicName bits fallback)

def importPort (entry : String × ModulePort) : Option Port :=
  (portDirection? entry.2.direction).map fun direction => {
    name := entry.1
    direction := direction
    width := entry.2.bits.length
    semanticType := "bits"
    source := Γ.sourceForBits entry.2.bits }

end Setting

namespace Ctx

variable (Γ : Ctx)

/-- A clock domain. The resets of the source are part of the next values of its registers. -/
def importDomain (domain : List Bit × Bool) : ClockDomain where
  name := Γ.domainName domain
  clockPort := Γ.inputPortName domain.1 "clk"
  edge := if domain.2 then .rising else .falling
  reset := { kind := .resetless, port := none, activeHigh := true, source := none }
  source := Γ.sourceForBits domain.1

end Ctx

/-! ## Child instances -/

/-- A connection of a child: the expression of an input, and the net of an output. -/
def instanceConnection (expr : List Bit → SourceLocation → M Expr) (cellName : String) (cell : Cell) (src : SourceLocation)
    (connection : String × List Bit) : M (Option InstanceConnection) := do
  let direction := cell.portDirections.getD connection.1 "unknown"
  let value ← translateIf (direction = "input") (expr connection.2 src)
  pure ((portDirection? direction).map fun direction => {
    port := connection.1
    direction := direction
    signal := instanceNet cellName connection.1
    width := connection.2.length
    value := value
    source := src })

namespace Cell

/-- The connections of a child that are written: an output without bits is not. -/
def writtenConnections (cell : Cell) : List (String × List Bit) :=
  (sortedEntries cell.connections.entries).filter fun connection =>
    !connection.2.isEmpty || cell.portDirections.get? connection.1 ≠ some "output"

end Cell

namespace Ctx

variable (Γ : Ctx)

/-- A child instance. Parameters and inputs without bits are blocked. -/
def importInstance (expr : List Bit → SourceLocation → M Expr) (entry : String × Cell) : M (Option Instance) := do
  let cell := entry.2
  let src := Γ.sourceOf cell.src
  blockIf (!cell.parameters.entries.isEmpty) "unelaborated_instance_parameter"
    ("child instance " ++ entry.1 ++ " retains parameter overrides") src
  cell.connections.entries.forM fun connection =>
    blockIf (cell.portDirections.get? connection.1 = some "input" && connection.2.isEmpty) "unconnected_instance_input"
      ("child input " ++ entry.1 ++ "." ++ connection.1 ++ " is unconnected") src
  let connections ← cell.writtenConnections.mapM (instanceConnection expr entry.1 cell src)
  pure ((connections.mapM id).map fun connections => {
    name := entry.1
    moduleName := cell.type
    parameters := (sortedEntries cell.parameters.entries).map fun parameter => (parameter.1, parameter.2.text)
    connections := connections
    source := src })

/-! ## Cells without a translation -/

/-- A primitive cell of a type that is not translated. -/
def unsupportedCell (cell : Cell) : Bool :=
  "$".toList.isPrefixOf cell.type.toList && cell.type ∉ Γ.modules && (sequentialKind? cell.type).isNone &&
    (supportedComb? cell.type).isNone && !isMemoryType cell.type

def blockUnsupported (entry : String × Cell) : M Unit :=
  blockIf (Γ.unsupportedCell entry.2) "yosys_cell" ("unsupported cell type " ++ entry.2.type) (Γ.sourceOf entry.2.src)

/-! ## The module -/

/-- The output of a port, if the port is one; a port that is neither an input nor an output is blocked. -/
def importOutput (expr : List Bit → SourceLocation → M Expr) (entry : String × ModulePort) : M (Option Output) :=
  let src := Γ.sourceForBits entry.2.bits
  if entry.2.direction = "output" then do
    let value ← expr entry.2.bits src
    pure (some ⟨entry.1, entry.2.bits.length, value, src⟩)
  else do
    blockIf (entry.2.direction ≠ "input") "port_direction" ("unsupported direction on port " ++ entry.1) src
    pure none

/-- The memories with write ports. -/
def writableMemories : List MemoryInfo := Γ.memoryCells.values.filter fun info => info.writePorts ≠ 0

/-- The cells that are instances of a module of the netlist. -/
def childCells : List (String × Cell) := Γ.module.cells.entries.filter fun entry => entry.2.type ∈ Γ.modules

/-- The module, from its translated parts and the blockers in the end. -/
def importModule (memories : List Memory) (registers : List Register) (instances : List Instance) (outputs : List Output)
    (ports : List Port) (unsupported : List UnsupportedRecord) : Module where
  name := Γ.name
  ports := ports
  domains := Γ.orderedDomains.map Γ.importDomain
  registers := registers
  memories := memories
  outputs := outputs
  instances := instances
  unsupported := unsupported.map UnsupportedRecord.construct
  source := Γ.moduleSource

/-- `translate()`, after what is prepared. -/
def translate (fuel : Nat) : M (Option Module) := do
  let expr := LoomImport.expr Γ fuel
  let memories ← Γ.writableMemories.mapM (writableMemory expr)
  let registers ← Γ.sequentialCells.mapM fun entry => Γ.register expr entry.1 entry.2.1 entry.2.2
  let instances ← Γ.childCells.mapM (Γ.importInstance expr)
  Γ.module.cells.entries.forM Γ.blockUnsupported
  let outputs ← Γ.module.ports.entries.mapM (Γ.importOutput expr)
  let s ← get
  pure do
    let registers ← registers.mapM id
    let instances ← instances.mapM id
    let ports ← Γ.module.ports.entries.mapM Γ.importPort
    return Γ.importModule memories registers instances outputs.reduceOption ports s.unsupported

end Ctx

/-- The module is translated, with enough nested calls. -/
def Setting.Translates (Γ : Setting) (m : Module) : Prop := ∃ fuel s', Γ.ctx.translate fuel Γ.start = some (some m, s')

end LoomImport
