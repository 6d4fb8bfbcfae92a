import LoomImport.Builders
import LoomImport.Policy
import LoomImport.Lib.StateOption
import Mathlib.Data.List.Dedup

/-!
# The expression translator

The recursive translation of bit vectors and cell outputs into import expressions, with its cache, its set of cell outputs in
progress and its list of blockers. A run may have no result: the recursion of the source is not bounded, and the fuel of `expr` is
the number of nested calls a run may make.
-/

namespace LoomImport

open ImportIR

/-- The cell output that drives a net, and the position of the net in it. -/
structure Driver where
  cellName : String
  port : String
  offset : Nat
  deriving Repr, DecidableEq

/-- The parameters of an accepted memory cell. The checks they passed are fields. -/
structure MemoryShape (cell : Cell) where
  size : Nat
  width : Nat
  abits : Nat
  readPorts : Nat
  writePorts : Nat
  size_pos : 0 < size
  size_pow : size &&& (size - 1) = 0
  width_pos : 0 < width
  abits_pos : 0 < abits
  readPorts_pos : 0 < readPorts
  readAddr_length : (cell.connection "RD_ADDR").length = readPorts * abits
  readData_length : (cell.connection "RD_DATA").length = readPorts * width
  writeAddr_length : (cell.connection "WR_ADDR").length = writePorts * abits
  writeData_length : (cell.connection "WR_DATA").length = writePorts * width
  writeEn_length : (cell.connection "WR_EN").length = writePorts * width
  writeClk_length : (cell.connection "WR_CLK").length = writePorts

/-- What is known of an accepted memory cell. -/
structure MemoryInfo where
  cellName : String
  source : SourceLocation
  cell : Cell
  shape : MemoryShape cell
  /-- The image, least significant word first, each word least significant bit first. -/
  initBits : List Bit
  initExpr : Expr
  initBits_length : initBits.length = shape.size * shape.width

/-- `n.bit_length()`. -/
def bitLength (n : Nat) : Nat := if n = 0 then 0 else Nat.log2 n + 1

/-- Injective encoding of any name as an identifier. -/
def legalIdentifier (name : String) : String :=
  "_h" ++ String.ofList ((name.toList.flatMap String.utf8EncodeChar).flatMap fun byte =>
    [hexDigit (byte.toNat / 16), hexDigit (byte.toNat % 16)])

namespace MemoryInfo

abbrev size (info : MemoryInfo) : Nat := info.shape.size

abbrev width (info : MemoryInfo) : Nat := info.shape.width

abbrev abits (info : MemoryInfo) : Nat := info.shape.abits

abbrev readPorts (info : MemoryInfo) : Nat := info.shape.readPorts

abbrev writePorts (info : MemoryInfo) : Nat := info.shape.writePorts

def addressWidth (info : MemoryInfo) : Nat := bitLength (info.size - 1)

def loomName (info : MemoryInfo) : String := "__loom_mem_" ++ legalIdentifier info.cellName

end MemoryInfo

/-- What a module is translated in. -/
structure Setting where
  name : String
  module : YosysModule
  /-- The names of the modules of the netlist: a cell of such a type is a child instance. -/
  modules : List String
  policy : Option FourStatePolicy
  sha256 : String → String

/-- What the translator has indexed before it translates an expression. -/
structure Ctx extends Setting where
  inputs : Dict (List Bit) String
  drivers : Dict Nat Driver
  registers : Dict (List Bit) String
  memoryCells : Dict String MemoryInfo

/-- What changes while expressions are translated. -/
structure State where
  cache : Dict (String × String) Expr
  inProgress : List (String × String)
  unsupported : List UnsupportedRecord

/-- A run of the translator: no result stands for a recursion that does not end. -/
abbrev M := StateT State Option

/-! ## Names and positions -/

namespace Setting

def moduleSource (Γ : Setting) : SourceLocation := location Γ.module.src "<yosys>"

/-- A position of the module, from a `src` attribute. -/
def sourceOf (Γ : Setting) (src : String) : SourceLocation := location src Γ.moduleSource.file

/-- The position of the first net with these bits that has one. -/
def sourceForBits (Γ : Setting) (bits : List Bit) : SourceLocation :=
  let choices := (Γ.module.netnames.values.filter fun net => net.bits = bits).map Net.src
  Γ.sourceOf ((choices.find? fun src => src ≠ "").getD "")

/-- Shorter names first, then by code points. -/
def nameBefore (a b : String) : Bool := a.length < b.length || (a.length = b.length && decide (a < b))

/-- The first of some names in that order. -/
def firstName : List String → Option String
  | [] => none
  | name :: names => some (names.foldl (fun best other => if nameBefore other best then other else best) name)

/-- The public name of a net, or a fallback. -/
def publicName (Γ : Setting) (bits : List Bit) (fallback : String) : String :=
  let names := (Γ.module.netnames.entries.filter fun entry =>
    entry.2.bits = bits && !("$".toList.isPrefixOf entry.1.toList)).map Prod.fst
  (firstName names).getD fallback

end Setting

/-- `name.strip("\\$")`. -/
def stripName (name : String) : String :=
  let isSigil := fun c => c = '\\' || c = '$'
  String.ofList ((name.toList.dropWhile isSigil).reverse.dropWhile isSigil).reverse

def instanceNet (cellName port : String) : String :=
  "__loom_child_" ++ legalIdentifier cellName ++ "__" ++ legalIdentifier port

/-! ## Blocking -/

/-- Add a record, once. -/
def State.record (s : State) (r : UnsupportedRecord) : State :=
  if r ∈ s.unsupported then s else { s with unsupported := s.unsupported ++ [r] }

def block (kind detail : String) (source : SourceLocation) (metadata : Option RecordMetadata) : M Unit :=
  modify fun s => s.record { kind := kind, detail := detail, source := source, metadata := metadata }

namespace Setting

/-- The rules of the policy that claim a site; none without a policy. -/
def policyMatches (Γ : Setting) (site : String) (source : SourceLocation) : List PolicyRule :=
  match Γ.policy with
  | none => []
  | some policy => policy.matching site Γ.name source

/-- The kind of the record for a site that is not claimed exactly once. -/
def unmatchedKind (Γ : Setting) (unclassified : String) (found : List PolicyRule) : String :=
  match Γ.policy with
  | none => unclassified
  | some _ => if found.isEmpty then "four_state_policy_missing" else "four_state_policy_ambiguous"

/-! ## Constants -/

def constantSite (Γ : Setting) (bits : List Bit) (src : SourceLocation) : String :=
  siteOf Γ.sha256 (.constant Γ.name bits src)

def constantMetadata (Γ : Setting) (bits : List Bit) (src : SourceLocation) : RecordMetadata :=
  { site := Γ.constantSite bits src, pattern := partialPattern Γ.sha256 bits, width := bits.length,
    unknownBits := bits.countP Bit.isUnknown }

/-- What blocks a constant whose site is not claimed exactly once. -/
def constantRecord (Γ : Setting) (bits : List Bit) (src : SourceLocation) : UnsupportedRecord :=
  let site := Γ.constantSite bits src
  let found := Γ.policyMatches site src
  { kind := Γ.unmatchedKind "four_state_constant" found
    detail := match Γ.policy with
      | none => "unclassified partial value " ++ site ++ " " ++ partialPattern Γ.sha256 bits
      | some _ => "partial value " ++ site ++ " matched " ++ toString found.length ++ " policy rules"
    source := src
    metadata := some (Γ.constantMetadata bits src) }

/-- A vector of constants: a literal, or the choice of the one rule that claims its site. -/
def constant (Γ : Setting) (bits : List Bit) (src : SourceLocation) : M (Option Expr) :=
  if bits.all Bit.isConst then
    if bits.any Bit.isUnknown then
      let site := Γ.constantSite bits src
      match Γ.policyMatches site src with
      | [rule] => pure (some (.partialLiteral bits.length (partialConstant site rule bits) src))
      | _ => do
        modify fun s => s.record (Γ.constantRecord bits src)
        pure (some (.literal bits.length 0 src))
    else pure (some (.literal bits.length (natOfBits (bits.map Bit.isOne)) src))
  else pure none

end Setting

/-- A slice of a literal; a partial literal keeps its choice. -/
def partialSlice (expression : Expr) (offset width : Nat) (src : SourceLocation) : Expr :=
  match expression with
  | .literal _ value _ => .literal width ((value >>> offset) &&& (2 ^ width - 1)) src
  | .partialLiteral _ choice _ => .partialLiteral width (choice.slice offset width) src
  | other => other

/-! ## Where a vector comes from -/

/-- A vector that is a named one, or a single net that occurs in a named one. -/
def vectorAlias (bits : List Bit) (aliases : Dict (List Bit) String) (src : SourceLocation) : Option Expr :=
  match aliases.get? bits with
  | some name => some (.signal bits.length name src)
  | none =>
    match bits with
    | [.net id] => aliases.entries.findSome? fun entry =>
        if .net id ∈ entry.1 then
          some (sliceExpr (.signal entry.1.length entry.2 src) (entry.1.idxOf (.net id)) 1 src)
        else none
    | _ => none

namespace Ctx

/-- The first cell output with exactly these bits. -/
def exactDriver (Γ : Ctx) (bits : List Bit) : Option (String × String) :=
  Γ.module.cells.entries.findSome? fun entry =>
    entry.2.portDirections.entries.findSome? fun direction =>
      if direction.2 = "output" ∧ entry.2.connection direction.1 = bits then some (entry.1, direction.1) else none

/-- The driver of a vector of one net. -/
def bitDriver (Γ : Ctx) : List Bit → Option Driver
  | [.net id] => Γ.drivers.get? id
  | _ => none

end Ctx

/-- The bits of one port in a packed connection. -/
def portBits (packed : List Bit) (port width : Nat) : List Bit := (packed.drop (port * width)).take width

/-! ## Memory reads -/

/-- The address of a memory port, and whether it is in range. -/
def memoryAddress (expr : List Bit → SourceLocation → M Expr) (info : MemoryInfo) (port : Nat) (write : Bool) :
    M (Expr × Expr) := do
  let packed := info.cell.connection (if write then "WR_ADDR" else "RD_ADDR")
  let full ← expr (portBits packed port info.abits) info.source
  let address := sliceExpr full 0 info.addressWidth info.source
  if info.abits = info.addressWidth then pure (address, .literal 1 1 info.source)
  else pure (address, .binary 1 .unsignedLessThan full (.literal info.abits info.size info.source) info.source)

namespace Setting

def memorySite (Γ : Setting) (info : MemoryInfo) : String :=
  siteOf Γ.sha256 (.cell Γ.name info.cellName "$mem_v2_out_of_range_read" info.source)

/-- What blocks a read outside a memory when its site is not claimed exactly once. -/
def memoryRecord (Γ : Setting) (info : MemoryInfo) : UnsupportedRecord :=
  let site := Γ.memorySite info
  let found := Γ.policyMatches site info.source
  { kind := Γ.unmatchedKind "four_state_memory_out_of_range" found
    detail := "out-of-range memory read " ++ site ++ " matched " ++ toString found.length ++ " policy rules"
    source := info.source
    metadata := some
      { site := site, pattern := toString info.width ++ "'dynamic-x", width := info.width, unknownBits := info.width } }

/-- What a read outside a memory gives. -/
def memoryOobFill (Γ : Setting) (info : MemoryInfo) : M Expr :=
  let site := Γ.memorySite info
  match Γ.policyMatches site info.source with
  | [rule] => pure (.partialLiteral info.width (partialUnknown site rule info.width) info.source)
  | _ => do
    modify fun s => s.record (Γ.memoryRecord info)
    pure (.literal info.width 0 info.source)

end Setting

/-- A word of the image of a memory. -/
def MemoryInfo.word (info : MemoryInfo) (index : Nat) : Expr :=
  partialSlice info.initExpr (index * info.width) info.width info.source

/-- A read of a memory that is never written: a selection among its words. -/
def MemoryInfo.romRead (info : MemoryInfo) (address : Expr) : Expr :=
  (List.range' 1 (info.size - 1)).foldl (fun result index =>
    .mux info.width (.binary 1 .equal address (.literal info.addressWidth index info.source) info.source)
      (info.word index) result info.source) (info.word 0)

/-- A read of a memory, for an address in range. -/
def MemoryInfo.readWord (info : MemoryInfo) (address : Expr) : Expr :=
  if info.writePorts = 0 then info.romRead address
  else .memoryRead info.width info.loomName address info.source

/-- A read port of a memory. -/
def memoryRead (Γ : Setting) (expr : List Bit → SourceLocation → M Expr) (info : MemoryInfo) (port : Nat) : M Expr := do
  let (address, inRange) ← memoryAddress expr info port false
  let result := info.readWord address
  if info.abits = info.addressWidth then pure result
  else do
    let fill ← Γ.memoryOobFill info
    pure (.mux info.width inRange result fill info.source)

/-! ## Cell outputs -/

/-- What a cell output is translated to. -/
inductive CellSource where
  | register
  | child
  | memory (info : MemoryInfo)
  | blocked (kind detail : String)
  | comb (kind : CombKind)

namespace Ctx

/-- The memory a cell output reads. -/
def memoryOutput? (Γ : Ctx) (cellName : String) (cell : Cell) (port : String) : Option MemoryInfo :=
  if cell.type = "$mem_v2" ∧ port = "RD_DATA" then Γ.memoryCells.get? cellName else none

/-- The branches of the translation of a cell output, in their order. -/
def cellSource (Γ : Ctx) (cellName : String) (cell : Cell) (port : String) : CellSource :=
  if (sequentialKind? cell.type).isSome then .register
  else if cell.type ∈ Γ.modules then .child
  else match Γ.memoryOutput? cellName cell port with
    | some info => .memory info
    | none =>
      if isMemoryType cell.type then .blocked "memory_cell" ("unsupported memory output " ++ cell.type ++ "." ++ port)
      else match supportedComb? cell.type with
        | none => .blocked "yosys_cell" ("unsupported cell type " ++ cell.type)
        | some kind => .comb kind

end Ctx

/-- The shape of a combinational cell for one of its outputs. -/
def Cell.shape (cell : Cell) (width : Nat) : Shape where
  aSigned := cell.flag "A_SIGNED"
  bSigned := cell.flag "B_SIGNED"
  aWidth := (cell.connection "A").length
  bWidth := (cell.connection "B").length
  width := width

namespace Setting

def shiftxSite (Γ : Setting) (cellName : String) (src : SourceLocation) : String :=
  siteOf Γ.sha256 (.cell Γ.name cellName "$shiftx" src)

def shiftxMetadata (Γ : Setting) (cellName : String) (width : Nat) (src : SourceLocation) : RecordMetadata :=
  { site := Γ.shiftxSite cellName src, pattern := toString width ++ "'dynamic-x", width := width, unknownBits := width }

/-- `$shiftx` over its translated operands. -/
def shiftxResult (Γ : Setting) (cellName : String) (amountSigned : Bool) (width : Nat) (src : SourceLocation)
    (value amount : Expr) : M Expr :=
  if amountSigned then do
    block "signed_shiftx" "signed variable part-select requires negative-index refinement" src none
    pure (.literal (max width 1) 0 src)
  else
    let site := Γ.shiftxSite cellName src
    match Γ.policyMatches site src with
    | [rule] => do
      let fill := Expr.partialLiteral width (partialUnknown site rule width) src
      if rule.fill = .zero then pure (partSelect value amount fill width src)
      else do
        block "four_state_shiftx_fill" "Yosys formal `$shiftx` only has a validated zero-fill normalization" src
          (some (Γ.shiftxMetadata cellName width src))
        pure (partSelect value amount fill width src)
    | found => do
      block (Γ.unmatchedKind "four_state_variable_part_select" found)
        ("variable part-select " ++ site ++ " matched " ++ toString found.length ++ " policy rules") src
        (some (Γ.shiftxMetadata cellName width src))
      pure (.literal (max width 1) 0 src)

end Setting

/-- A combinational cell: its operands in the order they are translated, then its expression. -/
def combResult (Γ : Setting) (expr : List Bit → SourceLocation → M Expr) (cellName : String) (cell : Cell)
    (kind : CombKind) (width : Nat) (src : SourceLocation) : M Expr :=
  match kind with
  | .unary kind => do
    let value ← expr (cell.connection "A") src
    pure (unaryCell kind (cell.shape width) src value)
  | .binary kind => do
    let left ← expr (cell.connection "A") src
    let right ← expr (cell.connection "B") src
    pure (binaryCell kind (cell.shape width) src left right)
  | .mux => do
    let yes ← expr (cell.connection "B") src
    let no ← expr (cell.connection "A") src
    let condition ← expr (cell.connection "S") src
    pure (muxCell width src yes no condition)
  | .shiftx => do
    let value ← expr (cell.connection "A") src
    let amount ← expr (cell.connection "B") src
    Γ.shiftxResult cellName (cell.flag "B_SIGNED") width src value amount

/-- A vector of parts given most significant first. -/
def joinParts (src : SourceLocation) : List Expr → Option Expr
  | [] => none
  | first :: rest => some (concatParts src first rest)

/-- The ports of a memory, packed: the last one first. -/
def memoryResult (Γ : Setting) (expr : List Bit → SourceLocation → M Expr) (info : MemoryInfo) (src : SourceLocation) :
    M Expr := do
  let parts ← (List.range info.readPorts).reverse.mapM (memoryRead Γ expr info)
  StateT.lift (joinParts src parts)

/-- A cell output, by what it is. -/
def cellResult (Γ : Ctx) (expr : List Bit → SourceLocation → M Expr) (cellName : String) (cell : Cell) (port : String) :
    M Expr :=
  let src := Γ.sourceOf cell.src
  let bits := cell.connection port
  let width := bits.length
  match Γ.cellSource cellName cell port with
  | .register => pure (.signal width (Γ.registers.getD bits (Γ.publicName bits (stripName cellName))) src)
  | .child => pure (.signal (max width 1) (instanceNet cellName port) src)
  | .memory info => memoryResult Γ.toSetting expr info src
  | .blocked kind detail => do
    block kind detail src none
    pure (.literal (max width 1) 0 src)
  | .comb kind => combResult Γ.toSetting expr cellName cell kind width src

/-- A cell output begins: it is in progress until it is finished. -/
def State.enter (s : State) (key : String × String) : State := { s with inProgress := key :: s.inProgress }

/-- A cell output is finished: its expression is kept. -/
def State.leave (s : State) (key : String × String) (result : Expr) : State :=
  { s with inProgress := s.inProgress.erase key, cache := s.cache.set key result }

/-- The translation of a cell output, over the translation of vectors. A name that is no cell's has no result. -/
def cellExprBody (Γ : Ctx) (expr : List Bit → SourceLocation → M Expr) (cellName port : String) : M Expr := do
  let s ← get
  match s.cache.get? (cellName, port) with
  | some result => pure result
  | none =>
    match Γ.module.cells.get? cellName with
    | none => StateT.lift none
    | some cell =>
      if (cellName, port) ∈ s.inProgress then do
        block "combinational_cycle" ("cycle at " ++ cellName ++ "." ++ port) (Γ.sourceOf cell.src) none
        pure (.literal (max (cell.connection port).length 1) 0 (Γ.sourceOf cell.src))
      else do
        modify fun s => s.enter (cellName, port)
        let result ← cellResult Γ expr cellName cell port
        modify fun s => s.leave (cellName, port) result
        pure result

/-! ## Vectors -/

/-- The translation of a vector, over the translation of the vectors it calls for. -/
def exprBody (Γ : Ctx) (expr : List Bit → SourceLocation → M Expr) (bits : List Bit) (src : SourceLocation) : M Expr :=
  if bits = [] then do
    block "zero_width" "empty signal vector" src none
    pure (.literal 1 0 src)
  else do
    match ← Γ.constant bits src with
    | some result => pure result
    | none =>
      match (vectorAlias bits Γ.inputs src).or (vectorAlias bits Γ.registers src) with
      | some result => pure result
      | none =>
        match Γ.exactDriver bits with
        | some (cellName, port) => cellExprBody Γ expr cellName port
        | none =>
          match Γ.bitDriver bits with
          | some driver => do
            let whole ← cellExprBody Γ expr driver.cellName driver.port
            pure (sliceExpr whole driver.offset 1 src)
          | none => do
            -- vectors are least significant first, concatenation is most significant first
            let parts ← bits.reverse.mapM fun bit => expr [bit] src
            StateT.lift (joinParts src parts)

/-- `expr(bits, src)` with at most `fuel` nested calls. -/
def expr (Γ : Ctx) : Nat → List Bit → SourceLocation → M Expr
  | 0, _, _ => StateT.lift none
  | fuel + 1, bits, src => exprBody Γ (expr Γ fuel) bits src

/-- `cell_expr(cell_name, port)` over `expr` with at most `fuel` nested calls. -/
def cellExpr (Γ : Ctx) (fuel : Nat) (cellName port : String) : M Expr := cellExprBody Γ (expr Γ fuel) cellName port

end LoomImport
