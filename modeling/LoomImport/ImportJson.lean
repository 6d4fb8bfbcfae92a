import LoomImport.ImportIR
import LoomImport.Json
import LoomImport.Lib.Tables

/-!
# JSON boundary for the neutral import IR

A document is parsed field by field, and refused when a field is missing or malformed. Expressions are trees in one schema, and
references into a table of nodes in the other; everything else is parsed alike.
-/

namespace LoomImport

open ImportIR

namespace ImportJson

/-! ## Fields -/

def field (json : Json) (name : String) : Except String Json := json.getObjVal? name

def stringField (json : Json) (name : String) : Except String String := do
  let value ← field json name
  value.getStr?

def natField (json : Json) (name : String) : Except String Nat := do
  let value ← field json name
  value.getNat?

def boolField (json : Json) (name : String) : Except String Bool := do
  let value ← field json name
  value.getBool?

def arrayField (json : Json) (name : String) : Except String (List Json) := do
  let value ← field json name
  value.getArr?

def optionalStringField (json : Json) (name : String) : Except String (Option String) := do
  let value ← field json name
  if value.isNull then return none
  return some (← value.getStr?)

def parseList {α : Type} (parser : Json → Except String α) (values : List Json) : Except String (List α) := values.mapM parser

def parseLocation (json : Json) : Except String SourceLocation := do
  let file ← stringField json "file"
  let startLine ← natField json "start_line"
  let startColumn ← natField json "start_column"
  let endLine ← natField json "end_line"
  let endColumn ← natField json "end_column"
  return { file, startLine, startColumn, endLine, endColumn }

def sourceField (json : Json) : Except String SourceLocation := do
  let value ← field json "source"
  parseLocation value

def optionalLocationField (json : Json) (name : String) : Except String (Option SourceLocation) := do
  let value ← field json name
  if value.isNull then return none
  return some (← parseLocation value)

/-! ## Enumerations -/

def parsePortDirection (value : String) : Except String PortDirection :=
  match value with
  | "input" => .ok .input
  | "output" => .ok .output
  | "inout" => .ok .inout
  | other => .error s!"unknown import port direction '{other}'"

def parseClockEdge (value : String) : Except String ClockEdge :=
  match value with
  | "rising" => .ok .rising
  | "falling" => .ok .falling
  | other => .error s!"unknown clock edge '{other}'"

def parseResetKind (value : String) : Except String ResetKind :=
  match value with
  | "resetless" => .ok .resetless
  | "synchronous" => .ok .synchronous
  | "asynchronous" => .ok .asynchronous
  | "asynchronous_assert_synchronous_release" => .ok .asynchronousAssertSynchronousRelease
  | other => .error s!"unknown reset kind '{other}'"

def parseUnaryOp (value : String) : Except String UnaryOp :=
  match value with
  | "bit_not" => .ok .bitNot
  | "negate" => .ok .negate
  | "reduce_bool" => .ok .reduceBool
  | "reduce_and" => .ok .reduceAnd
  | "logical_not" => .ok .logicalNot
  | other => .error s!"unknown unary operation '{other}'"

def parseBinaryOp (value : String) : Except String BinaryOp :=
  match value with
  | "bit_and" => .ok .bitAnd
  | "bit_or" => .ok .bitOr
  | "bit_xor" => .ok .bitXor
  | "add" => .ok .add
  | "sub" => .ok .sub
  | "mul" => .ok .mul
  | "unsigned_div" => .ok .unsignedDiv
  | "unsigned_rem" => .ok .unsignedRem
  | "shift_left" => .ok .shiftLeft
  | "logical_shift_right" => .ok .logicalShiftRight
  | "equal" => .ok .equal
  | "unsigned_less_than" => .ok .unsignedLessThan
  | "signed_less_than" => .ok .signedLessThan
  | other => .error s!"unknown binary operation '{other}'"

def parsePartialValueClass (value : String) : Except String PartialValueClass :=
  match value with
  | "synthesis_dont_care" => .ok .synthesisDontCare
  | "unreachable_decode" => .ok .unreachableDecode
  | "undriven_behavior" => .ok .undrivenBehavior
  | "uninitialized_state_or_memory" => .ok .uninitializedStateOrMemory
  | other => .error s!"unknown partial-value classification '{other}'"

def parsePartialValue (json : Json) : Except String PartialValue := do
  let site ← stringField json "site"
  let valueClass ← stringField json "classification" >>= parsePartialValueClass
  let knownMask ← natField json "known_mask"
  let knownValue ← natField json "known_value"
  let implementationValue ← natField json "implementation_value"
  let rationale ← stringField json "rationale"
  return PartialValue.mk site valueClass knownMask knownValue implementationValue rationale

def optionalPartialValueField (json : Json) (name : String) : Except String (Option PartialValue) :=
  match json.getObjVal? name with
  | .error _ => .ok none
  | .ok value => if value.isNull then .ok none else some <$> parsePartialValue value

/-! ## Expressions -/

/-- One node of an expression, over the way its operands are parsed. -/
def parseNode (operand : String → Except String Expr) (json : Json) : Except String Expr := do
  let kind ← stringField json "kind"
  let width ← natField json "width"
  let source ← sourceField json
  match kind with
  | "literal" => do
    let value ← natField json "value"
    return .literal width value source
  | "partial_literal" => do
    let choice ← field json "partial" >>= parsePartialValue
    return .partialLiteral width choice source
  | "signal" => do
    let name ← stringField json "name"
    return .signal width name source
  | "unary" => do
    let op ← stringField json "op" >>= parseUnaryOp
    let value ← operand "value"
    return .unary width op value source
  | "binary" => do
    let op ← stringField json "op" >>= parseBinaryOp
    let left ← operand "left"
    let right ← operand "right"
    return .binary width op left right source
  | "mux" => do
    let condition ← operand "condition"
    let yes ← operand "yes"
    let no ← operand "no"
    return .mux width condition yes no source
  | "slice" => do
    let value ← operand "value"
    let offset ← natField json "offset"
    return .slice width value offset source
  | "zero_extend" => do
    let value ← operand "value"
    return .zeroExtend width value source
  | "sign_extend" => do
    let value ← operand "value"
    return .signExtend width value source
  | "concat" => do
    let high ← operand "high"
    let low ← operand "low"
    return .concat width high low source
  | "memory_read" => do
    let memory ← stringField json "memory"
    let address ← operand "address"
    return .memoryRead width memory address source
  | other => .error s!"unknown import expression kind '{other}'"

/-- A field of an object, which is smaller than the object. -/
def child (json : Json) (name : String) : Except String { value : Json // sizeOf value < sizeOf json } :=
  match h : json.getObjVal? name with
  | .ok value => .ok ⟨value, Json.sizeOf_getObjVal? h⟩
  | .error message => .error message

/-- A tree of nodes. -/
def parseExpr (json : Json) : Except String Expr :=
  parseNode (fun name => do
    let value ← child json name
    parseExpr value.1) json
termination_by sizeOf json
decreasing_by exact value.2

/-- A tree under a name. -/
def exprField (json : Json) (name : String) : Except String Expr := field json name >>= parseExpr

/-- A reference to a node of the table that is known so far. -/
def expressionRef (known : List Expr) (json : Json) (name : String) : Except String Expr := do
  let reference ← natField json name
  match known[reference]? with
  | some expression => return expression
  | none => .error s!"expression reference {reference} is forward or outside the module table"

def parseExprNode (known : List Expr) (json : Json) : Except String Expr := parseNode (expressionRef known json) json

def parseExprTable (values : List Json) : Except String (List Expr) := Tables.build parseExprNode [] values

/-! ## Modules

The parts of a module with expressions in them are parsed over the way an expression under a name is. -/

def parsePort (json : Json) : Except String Port := do
  let name ← stringField json "name"
  let direction ← stringField json "direction" >>= parsePortDirection
  let width ← natField json "width"
  let semanticType ← stringField json "semantic_type"
  let source ← sourceField json
  return { name, direction, width, semanticType, source }

def parseReset (json : Json) : Except String Reset := do
  let kind ← stringField json "kind" >>= parseResetKind
  let port ← optionalStringField json "port"
  let activeHigh ← boolField json "active_high"
  let source ← optionalLocationField json "source"
  return { kind, port, activeHigh, source }

def parseDomain (json : Json) : Except String ClockDomain := do
  let name ← stringField json "name"
  let clockPort ← stringField json "clock_port"
  let edge ← stringField json "edge" >>= parseClockEdge
  let reset ← field json "reset" >>= parseReset
  let source ← sourceField json
  return { name, clockPort, edge, reset, source }

/-- The domain a register names, if it names one. -/
def domainField (json : Json) : Except String (Option String) :=
  match json.getObjVal? "domain" with
  | .error _ => .ok none
  | .ok value => if value.isNull then .ok none else some <$> value.getStr?

def parseRegisterWith (expression : Json → String → Except String Expr) (json : Json) : Except String Register := do
  let name ← stringField json "name"
  let width ← natField json "width"
  let init ← natField json "init"
  let next ← expression json "next"
  let domain ← domainField json
  let source ← sourceField json
  return { name, width, init, next, domain, source }

def parseMemoryWriteWith (expression : Json → String → Except String Expr) (json : Json) : Except String MemoryWrite := do
  let port ← natField json "port"
  let enable ← expression json "enable"
  let address ← expression json "address"
  let data ← expression json "data"
  let source ← sourceField json
  return { port, enable, address, data, source }

def parseMemoryWith (expression : Json → String → Except String Expr) (json : Json) : Except String Memory := do
  let name ← stringField json "name"
  let addressWidth ← natField json "address_width"
  let dataWidth ← natField json "data_width"
  let init ← arrayField json "init" >>= parseList Json.getNat?
  let initRefinement ← optionalPartialValueField json "init_refinement"
  let writes ← arrayField json "writes" >>= parseList (parseMemoryWriteWith expression)
  let source ← sourceField json
  return { name, addressWidth, dataWidth, init, initRefinement, writes, source }

def parseOutputWith (expression : Json → String → Except String Expr) (json : Json) : Except String Output := do
  let name ← stringField json "name"
  let width ← natField json "width"
  let value ← expression json "value"
  let source ← sourceField json
  return { name, width, value, source }

def parseParameter (json : Json) : Except String (String × String) := do
  let name ← stringField json "name"
  let value ← stringField json "value"
  return (name, value)

/-- The expression of a connection, if it has one. -/
def connectionValue (expression : Json → String → Except String Expr) (json : Json) : Except String (Option Expr) := do
  let valueJson ← field json "value"
  if valueJson.isNull then .ok none else some <$> expression json "value"

def parseInstanceConnectionWith (expression : Json → String → Except String Expr) (json : Json) :
    Except String InstanceConnection := do
  let port ← stringField json "port"
  let direction ← stringField json "direction" >>= parsePortDirection
  let signal ← stringField json "signal"
  let width ← natField json "width"
  let value ← connectionValue expression json
  let source ← sourceField json
  return { port, direction, signal, width, value, source }

def parseInstanceWith (expression : Json → String → Except String Expr) (json : Json) : Except String Instance := do
  let name ← stringField json "name"
  let moduleName ← stringField json "module_name"
  let parameters ← arrayField json "parameters" >>= parseList parseParameter
  let connections ← arrayField json "connections" >>= parseList (parseInstanceConnectionWith expression)
  let source ← sourceField json
  return { name, moduleName, parameters, connections, source }

def parseUnsupported (json : Json) : Except String UnsupportedConstruct := do
  let kind ← stringField json "kind"
  let detail ← stringField json "detail"
  let source ← sourceField json
  return { kind, detail, source }

def parseModuleWith (expression : Json → String → Except String Expr) (json : Json) : Except String Module := do
  let name ← stringField json "name"
  let ports ← arrayField json "ports" >>= parseList parsePort
  let domains ← arrayField json "domains" >>= parseList parseDomain
  let registers ← arrayField json "registers" >>= parseList (parseRegisterWith expression)
  let memories ← arrayField json "memories" >>= parseList (parseMemoryWith expression)
  let outputs ← arrayField json "outputs" >>= parseList (parseOutputWith expression)
  let instances ← arrayField json "instances" >>= parseList (parseInstanceWith expression)
  let unsupported ← arrayField json "unsupported" >>= parseList parseUnsupported
  let source ← sourceField json
  return { name, ports, domains, registers, memories, outputs, instances, unsupported, source }

def parseRegister := parseRegisterWith exprField

def parseMemoryWrite := parseMemoryWriteWith exprField

def parseMemory := parseMemoryWith exprField

def parseOutput := parseOutputWith exprField

def parseInstanceConnection := parseInstanceConnectionWith exprField

def parseInstance := parseInstanceWith exprField

def parseModuleJson := parseModuleWith exprField

def parseRegisterRef (known : List Expr) := parseRegisterWith (expressionRef known)

def parseMemoryWriteRef (known : List Expr) := parseMemoryWriteWith (expressionRef known)

def parseMemoryRef (known : List Expr) := parseMemoryWith (expressionRef known)

def parseOutputRef (known : List Expr) := parseOutputWith (expressionRef known)

def parseInstanceConnectionRef (known : List Expr) := parseInstanceConnectionWith (expressionRef known)

def parseInstanceRef (known : List Expr) := parseInstanceWith (expressionRef known)

def parseModuleDagJson (json : Json) : Except String Module := do
  let known ← arrayField json "expressions" >>= parseExprTable
  parseModuleWith (expressionRef known) json

end ImportJson

end LoomImport
