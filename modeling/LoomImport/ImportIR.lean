import LoomImport.Hw
import Mathlib.Data.List.Basic

/-!
# The neutral import IR and its lowering

The first-order expressions the adapter emits, with their widths spelled out, and the checked lowering to width-indexed
hardware expressions. Lowering fails closed: a node whose widths do not fit, or whose name or width is empty, has no lowering.
-/

namespace LoomImport

/-- A position in the source text. -/
structure SourceLocation where
  file : String
  startLine : Nat
  startColumn : Nat
  endLine : Nat
  endColumn : Nat
  deriving Repr, DecidableEq

namespace SourceLocation

def render (location : SourceLocation) : String :=
  s!"{location.file}:{location.startLine}:{location.startColumn}-{location.endLine}:{location.endColumn}"

end SourceLocation

inductive PortDirection where
  | input
  | output
  | inout
  deriving Repr, DecidableEq

inductive ClockEdge where
  | rising
  | falling
  deriving Repr, DecidableEq

inductive ResetKind where
  | resetless
  | synchronous
  | asynchronous
  | asynchronousAssertSynchronousRelease
  deriving Repr, DecidableEq

inductive UnaryOp where
  | bitNot
  | negate
  | reduceBool
  | reduceAnd
  | logicalNot
  deriving Repr, DecidableEq

inductive BinaryOp where
  | bitAnd
  | bitOr
  | bitXor
  | add
  | sub
  | mul
  | unsignedDiv
  | unsignedRem
  | shiftLeft
  | logicalShiftRight
  | equal
  | unsignedLessThan
  | signedLessThan
  deriving Repr, DecidableEq

/-- Why an unknown bit of the source may be given a concrete value. -/
inductive PartialValueClass where
  | synthesisDontCare
  | unreachableDecode
  | undrivenBehavior
  | uninitializedStateOrMemory
  deriving Repr, DecidableEq

/-- The value chosen for a partially specified constant. `knownMask` selects the bits the source fixes. -/
structure PartialValue where
  site : String
  classification : PartialValueClass
  knownMask : Nat
  knownValue : Nat
  implementationValue : Nat
  rationale : String
  deriving Repr, DecidableEq

namespace PartialValue

/-- A candidate fits the width and keeps the bits the source fixes. -/
def allowedB (choice : PartialValue) (width candidate : Nat) : Bool :=
  candidate < 2 ^ width && (candidate &&& choice.knownMask) == (choice.knownValue &&& choice.knownMask)

def validB (choice : PartialValue) (width : Nat) : Bool :=
  (!choice.site.isEmpty && !choice.rationale.isEmpty && width > 0 && choice.knownMask < 2 ^ width &&
    choice.knownValue < 2 ^ width) && choice.allowedB width choice.implementationValue

end PartialValue

namespace ImportIR

/-- Import expressions. Every node carries its width and its source position. -/
inductive Expr where
  | literal (width value : Nat) (source : SourceLocation)
  | partialLiteral (width : Nat) (choice : PartialValue) (source : SourceLocation)
  | signal (width : Nat) (name : String) (source : SourceLocation)
  | unary (width : Nat) (op : UnaryOp) (value : Expr) (source : SourceLocation)
  | binary (width : Nat) (op : BinaryOp) (left right : Expr) (source : SourceLocation)
  | mux (width : Nat) (condition yes no : Expr) (source : SourceLocation)
  | slice (width : Nat) (value : Expr) (offset : Nat) (source : SourceLocation)
  | zeroExtend (width : Nat) (value : Expr) (source : SourceLocation)
  | signExtend (width : Nat) (value : Expr) (source : SourceLocation)
  | concat (width : Nat) (high low : Expr) (source : SourceLocation)
  | memoryRead (width : Nat) (memory : String) (address : Expr) (source : SourceLocation)
  deriving Repr, DecidableEq

/-- The width a node declares. -/
def Expr.width : Expr → Nat
  | .literal width .. | .partialLiteral width .. | .signal width .. | .unary width .. | .binary width ..
  | .mux width .. | .slice width .. | .zeroExtend width .. | .signExtend width .. | .concat width ..
  | .memoryRead width .. => width

structure Port where
  name : String
  direction : PortDirection
  width : Nat
  semanticType : String
  source : SourceLocation
  deriving Repr, DecidableEq

structure Reset where
  kind : ResetKind
  port : Option String
  activeHigh : Bool
  source : Option SourceLocation
  deriving Repr, DecidableEq

structure ClockDomain where
  name : String
  clockPort : String
  edge : ClockEdge
  reset : Reset
  source : SourceLocation
  deriving Repr, DecidableEq

structure Register where
  name : String
  width : Nat
  init : Nat
  next : Expr
  /-- Named only when the module has several clock domains. -/
  domain : Option String
  source : SourceLocation
  deriving Repr, DecidableEq

structure MemoryWrite where
  port : Nat
  enable : Expr
  address : Expr
  data : Expr
  source : SourceLocation
  deriving Repr, DecidableEq

structure Memory where
  name : String
  addressWidth : Nat
  dataWidth : Nat
  init : List Nat
  /-- The choice made for a packed image with unknown bits; address zero is the least significant word. -/
  initRefinement : Option PartialValue
  writes : List MemoryWrite
  source : SourceLocation
  deriving Repr, DecidableEq

structure Output where
  name : String
  width : Nat
  value : Expr
  source : SourceLocation
  deriving Repr, DecidableEq

structure InstanceConnection where
  port : String
  direction : PortDirection
  signal : String
  width : Nat
  /-- A child input is driven by this expression; a child output has none. -/
  value : Option Expr
  source : SourceLocation
  deriving Repr, DecidableEq

structure Instance where
  name : String
  moduleName : String
  parameters : List (String × String)
  connections : List InstanceConnection
  source : SourceLocation
  deriving Repr, DecidableEq

structure UnsupportedConstruct where
  kind : String
  detail : String
  source : SourceLocation
  deriving Repr, DecidableEq

/-- One source module. -/
structure Module where
  name : String
  ports : List Port
  domains : List ClockDomain
  registers : List Register
  memories : List Memory
  outputs : List Output
  instances : List Instance
  unsupported : List UnsupportedConstruct
  source : SourceLocation
  deriving Repr, DecidableEq

/-! ## Lowering -/

/-- A lowered expression with the width it was found to have. -/
structure LoweredExpr where
  width : Nat
  value : Hw.Expr width

/-- Refuse, at a source position. -/
def failAt {α : Type} (source : SourceLocation) (message : String) : Except String α :=
  throw s!"{source.render}: {message}"

/-- A lowered expression at the width it is expected to have. -/
def expectWidth (expected : Nat) (expression : LoweredExpr) (source : SourceLocation) :
    Except String (Hw.Expr expected) :=
  if equal : expression.width = expected then .ok (equal ▸ expression.value)
  else failAt source s!"expression width {expression.width} does not match expected width {expected}"

/-- The lowering of a unary node over its lowered operand. -/
def lowerUnary? (width : Nat) (op : UnaryOp) (lowered : LoweredExpr) (source : SourceLocation) :
    Except String LoweredExpr :=
  match op with
  | .bitNot => do
    let value ← expectWidth width lowered source
    return ⟨width, .not value⟩
  | .negate => do
    let value ← expectWidth width lowered source
    return ⟨width, .sub (.lit (BitVec.ofNat width 0)) value⟩
  | .reduceBool =>
    if width ≠ 1 then failAt source "logical/reduction result width must be one"
    else return ⟨1, .not (.eq lowered.value (.lit 0))⟩
  | .reduceAnd =>
    if width ≠ 1 then failAt source "logical/reduction result width must be one"
    else return ⟨1, .eq lowered.value (.lit (BitVec.allOnes lowered.width))⟩
  | .logicalNot =>
    if width ≠ 1 then failAt source "logical/reduction result width must be one"
    else return ⟨1, .eq lowered.value (.lit 0)⟩

/-- A comparison node: both operands at the left one's width, a one-bit result. -/
def lowerComparison? (width : Nat) (make : {w : Nat} → Hw.Expr w → Hw.Expr w → Hw.Expr 1) (left right : LoweredExpr)
    (source : SourceLocation) : Except String LoweredExpr :=
  if width ≠ 1 then failAt source "comparison result width must be one"
  else do
    let rightValue ← expectWidth left.width right source
    return ⟨1, make left.value rightValue⟩

/-- A node whose operands and result share one width. -/
def lowerUniform? (width : Nat) (make : Hw.Expr width → Hw.Expr width → Hw.Expr width) (left right : LoweredExpr)
    (source : SourceLocation) : Except String LoweredExpr := do
  let leftValue ← expectWidth width left source
  let rightValue ← expectWidth width right source
  return ⟨width, make leftValue rightValue⟩

/-- The lowering of a binary node over its lowered operands. -/
def lowerBinary? (width : Nat) (op : BinaryOp) (left right : LoweredExpr) (source : SourceLocation) :
    Except String LoweredExpr :=
  match op with
  | .equal => lowerComparison? width .eq left right source
  | .unsignedLessThan => lowerComparison? width .ult left right source
  | .signedLessThan => lowerComparison? width .slt left right source
  | .bitAnd => lowerUniform? width .and left right source
  | .bitOr => lowerUniform? width .or left right source
  | .bitXor => lowerUniform? width .xor left right source
  | .add => lowerUniform? width .add left right source
  | .sub => lowerUniform? width .sub left right source
  | .mul => lowerUniform? width .mul left right source
  | .unsignedDiv => lowerUniform? width .udiv left right source
  | .unsignedRem => lowerUniform? width .urem left right source
  | .shiftLeft => lowerUniform? width .shl left right source
  | .logicalShiftRight => lowerUniform? width .shr left right source

/-- The checked lowering of an import expression. -/
def lowerExpr? : Expr → Except String LoweredExpr
  | .literal width value source =>
    if width = 0 then failAt source "zero-width literal"
    else return ⟨width, .lit (BitVec.ofNat width value)⟩
  | .partialLiteral width choice source =>
    if choice.validB width then return ⟨width, .lit (BitVec.ofNat width choice.implementationValue)⟩
    else failAt source s!"partial value site '{choice.site}' has an invalid or non-refining implementation choice"
  | .signal width name source =>
    if width = 0 ∨ name.isEmpty then failAt source "invalid signal reference"
    else return ⟨width, .reg width name⟩
  | .unary width op value source => do
    let lowered ← lowerExpr? value
    lowerUnary? width op lowered source
  | .binary width op left right source => do
    let left ← lowerExpr? left
    let right ← lowerExpr? right
    lowerBinary? width op left right source
  | .mux width condition yes no source => do
    let condition ← lowerExpr? condition >>= fun value => expectWidth 1 value source
    let yes ← lowerExpr? yes >>= fun value => expectWidth width value source
    let no ← lowerExpr? no >>= fun value => expectWidth width value source
    return ⟨width, .mux condition yes no⟩
  | .slice width value offset source => do
    let value ← lowerExpr? value
    if width = 0 ∨ offset + width > value.width then failAt source "slice is empty or outside its operand"
    else return ⟨width, .slice value.value offset width⟩
  | .zeroExtend width value source => do
    let value ← lowerExpr? value
    if width < value.width then failAt source "zero extension narrows its operand"
    else return ⟨width, .zext value.value width⟩
  | .signExtend width value source => do
    let value ← lowerExpr? value
    if width < value.width then failAt source "sign extension narrows its operand"
    else return ⟨width, .sext value.value width⟩
  | .concat width high low source => do
    let high ← lowerExpr? high
    let low ← lowerExpr? low
    if equal : high.width + low.width = width then
      return ⟨width, equal ▸ Hw.Expr.concat high.value low.value⟩
    else failAt source "concatenation result width is inconsistent"
  | .memoryRead width memory address source => do
    let address ← lowerExpr? address
    if width = 0 ∨ memory.isEmpty then failAt source "invalid memory read"
    else return ⟨width, .memRead width memory address.value⟩

/-- The declaration a register lowers to. -/
def Register.decl (register : Register) : Hw.RegDecl where
  name := register.name
  width := register.width
  init := BitVec.ofNat register.width register.init

/-- One register: its declaration, and the write of its next value. -/
def lowerRegister? (register : Register) : Except String (Hw.RegDecl × Hw.Act) := do
  if register.width = 0 ∨ register.name.isEmpty then failAt register.source "invalid register declaration"
  let next ← lowerExpr? register.next >>= fun value => expectWidth register.width value register.source
  return (register.decl, .write register.width register.name next)

/-- One memory write: a guarded whole-word write on its port. -/
def lowerWrite? (memory : Memory) (write : MemoryWrite) : Except String Hw.Act := do
  let enable ← lowerExpr? write.enable >>= fun value => expectWidth 1 value write.source
  let address ← lowerExpr? write.address >>= fun value => expectWidth memory.addressWidth value write.source
  let data ← lowerExpr? write.data >>= fun value => expectWidth memory.dataWidth value write.source
  return .ite enable (.memWrite memory.addressWidth memory.dataWidth memory.name write.port address data) .skip

/-- The checks on a memory declaration: its name and widths, its image and the choice made for an unknown image. -/
def checkMemory? (memory : Memory) : Except String Unit :=
  if memory.name.isEmpty ∨ memory.addressWidth = 0 ∨ memory.dataWidth = 0 then
    failAt memory.source "invalid memory declaration"
  else if memory.init.length ≠ 2 ^ memory.addressWidth then
    failAt memory.source
      s!"memory initialization has {memory.init.length} cells, expected {2 ^ memory.addressWidth}"
  else if ¬memory.init.all (· < 2 ^ memory.dataWidth) then
    failAt memory.source "memory initialization value exceeds its data width"
  else match memory.initRefinement with
    | none => return ()
    | some choice =>
      if ¬choice.validB (2 ^ memory.addressWidth * memory.dataWidth) then
        failAt memory.source "invalid partial memory-initialization refinement"
      else if choice.implementationValue ≠
          memory.init.foldr (fun value rest => value + 2 ^ memory.dataWidth * rest) 0 then
        failAt memory.source "partial memory-initialization refinement disagrees with concrete image"
      else return ()

/-- The write actions of a memory, in port order, once its declaration is accepted. -/
def lowerMemory? (memory : Memory) : Except String (List Hw.Act) := do
  checkMemory? memory
  memory.writes.mapM (lowerWrite? memory)

end ImportIR

end LoomImport
