import LoomImport.Translator
import LoomImport.Prepare

/-!
# Registers

Every sequential cell becomes a register with the cell's output as its name. Its next value is the data input, under the enable and
the synchronous reset in the order the kind of cell gives them. The module's clock domains are named when there are several.
-/

namespace LoomImport

open ImportIR

/-! ## Clock domains -/

namespace Bit

/-- `repr(bit)`. -/
def repr : Bit → String
  | .net id => toString id
  | .const c => "'" ++ String.singleton c ++ "'"

end Bit

/-- `str((bits, rising))`. -/
def domainKey (domain : List Bit × Bool) : String :=
  let bits := match domain.1 with
    | [bit] => "(" ++ bit.repr ++ ",)"
    | bits => "(" ++ String.intercalate ", " (bits.map Bit.repr) ++ ")"
  "(" ++ bits ++ ", " ++ (if domain.2 then "True" else "False") ++ ")"

/-- Insertion into a list in the order of the keys. -/
def insertDomain (domain : List Bit × Bool) : List (List Bit × Bool) → List (List Bit × Bool)
  | [] => [domain]
  | other :: rest =>
    if domainKey domain < domainKey other then domain :: other :: rest else other :: insertDomain domain rest

namespace Cell

/-- `bool(decode_parameter(params.get(name), 1))`. -/
def activeHigh (cell : Cell) (name : String) : Bool := cell.parameter name 1 ≠ 0

/-- The clock of a sequential cell, and whether its rising edge counts. -/
def clockDomain (cell : Cell) : List Bit × Bool := (cell.connection "CLK", cell.activeHigh "CLK_POLARITY")

end Cell

namespace Ctx

variable (Γ : Ctx)

/-- The clock domains of the sequential cells and of the write ports of the accepted memories. -/
def clockDomains : List (List Bit × Bool) :=
  (Γ.sequentialCells.map (fun entry => entry.2.1.clockDomain) ++
    Γ.memoryCells.values.flatMap fun info => (info.cell.connection "WR_CLK").map fun bit => ([bit], true)).dedup

/-- `sorted(clock_domains, key=str)`. -/
def orderedDomains : List (List Bit × Bool) := Γ.clockDomains.foldr insertDomain []

/-- The name of a clock domain. -/
def domainName (domain : List Bit × Bool) : String :=
  if Γ.orderedDomains.length = 1 then Γ.name ++ "_clock"
  else Γ.name ++ "_clock_" ++ toString (Γ.orderedDomains.idxOf domain)

/-- The domain of a register, named when the module has several. -/
def registerDomain (cell : Cell) : Option String :=
  if 1 < Γ.orderedDomains.length then some (Γ.domainName cell.clockDomain) else none

end Ctx

/-! ## The next value -/

/-- The expressions of the inputs of a sequential cell: its data, and its enable and synchronous reset when it has them. -/
structure RegisterOperands where
  data : Expr
  enable : Option Expr
  reset : Option Expr

/-- A translation that some kinds of cells need. -/
def translateIf (condition : Bool) (translation : M Expr) : M (Option Expr) :=
  if condition then some <$> translation else pure none

/-- The expressions of the inputs of a sequential cell. -/
def registerOperands (expr : List Bit → SourceLocation → M Expr) (cell : Cell) (kind : SequentialKind) (src : SourceLocation) :
    M RegisterOperands := do
  let data ← expr (cell.connection "D") src
  let enable ← translateIf kind.hasEnable (expr (cell.connection "EN") src)
  let reset ← translateIf kind.hasSyncReset (expr (cell.connection "SRST") src)
  pure ⟨data, enable, reset⟩

/-- A control input as an active-high one. -/
def withPolarity (activeHigh : Bool) (value : Expr) (src : SourceLocation) : Expr :=
  if activeHigh then value else .unary 1 .bitNot value src

/-- The literal of a decoded parameter. The parser of the document refuses a negative one. -/
def integerLiteral? (width : Nat) (value : Int) (src : SourceLocation) : Option Expr :=
  if 0 ≤ value then some (.literal width value.toNat src) else none

/-- The next value of a register, over the expressions of its inputs. -/
def nextExpr (kind : SequentialKind) (cell : Cell) (name : String) (src : SourceLocation) (operands : RegisterOperands) :
    Option Expr :=
  let width := (cell.connection "Q").length
  let hold := Expr.signal width name src
  let enable := operands.enable.map fun enable => withPolarity (cell.activeHigh "EN_POLARITY") enable src
  match operands.reset with
  | none =>
    match enable with
    | none => some operands.data
    | some enable => some (.mux width enable operands.data hold src)
  | some reset => do
    let reset := withPolarity (cell.activeHigh "SRST_POLARITY") reset src
    let resetValue ← integerLiteral? width (cell.parameter "SRST_VALUE" 0) src
    match kind, enable with
    -- the enable of this kind also gates its reset
    | .sdffce, some enable => some (.mux width enable (.mux width reset resetValue operands.data src) hold src)
    | _, some enable => some (.mux width reset resetValue (.mux width enable operands.data hold src) src)
    | _, none => some (.mux width reset resetValue operands.data src)

namespace Ctx

variable (Γ : Ctx)

/-- The name of the register of a sequential cell. -/
def registerOf (cellName : String) (cell : Cell) : String :=
  Γ.registers.getD (cell.connection "Q") (Setting.registerName cellName)

/-- The register of a sequential cell, over the expressions of its inputs. -/
def registerOver (cellName : String) (cell : Cell) (kind : SequentialKind) (operands : RegisterOperands) : Option Register := do
  let src := Γ.sourceOf cell.src
  let next ← nextExpr kind cell (Γ.registerOf cellName cell) src operands
  some {
    name := Γ.registerOf cellName cell
    width := (cell.connection "Q").length
    init := 0
    next := next
    domain := Γ.registerDomain cell
    source := src }

/-- The register of a sequential cell; none when its reset value is a negative number. -/
def register (expr : List Bit → SourceLocation → M Expr) (cellName : String) (cell : Cell) (kind : SequentialKind) :
    M (Option Register) := do
  let operands ← registerOperands expr cell kind (Γ.sourceOf cell.src)
  pure (Γ.registerOver cellName cell kind operands)

end Ctx

end LoomImport
