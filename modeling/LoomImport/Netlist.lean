import LoomImport.ImportIR
import LoomImport.Lib.Dict
import LoomImport.PyText

/-!
# Yosys modules

The part of a Yosys JSON module the adapter reads: ports, nets and cells with their connections and parameters, the decoding of
parameters and source positions, and the cell types the adapter distinguishes.
-/

namespace LoomImport

/-- A bit of a Yosys bit vector: the number of a net, or a constant ("0", "1", "x", "z"). Vectors are least significant first. -/
inductive Bit where
  | net (id : Nat)
  | const (value : Char)
  deriving Repr, DecidableEq

namespace Bit

/-- `isinstance(bit, str)`. -/
def isConst : Bit → Bool
  | .net _ => false
  | .const _ => true

/-- A constant other than "0" and "1". -/
def isUnknown : Bit → Bool
  | .net _ => false
  | .const c => c ≠ '0' && c ≠ '1'

/-- The bit is "0" or "1". -/
def isKnown : Bit → Bool
  | .net _ => false
  | .const c => c = '0' || c = '1'

end Bit

/-! ## Parameters -/

/-- A parameter or attribute value: an integer, or a string (of binary digits, as Yosys writes constants). -/
inductive Param where
  | int (value : Int)
  | str (value : String)
  deriving Repr, DecidableEq

/-- `value.replace("x", "0").replace("z", "0")`. -/
def replaceUnknown (c : Char) : Char := if c = 'x' ∨ c = 'z' then '0' else c

/-- The integer a parameter stands for; unknown digits are read as zero, and what is no number is the default. -/
def decodeParameter (value : Option Param) (default : Int) : Int :=
  match value with
  | none => default
  | some (.int n) => n
  | some (.str s) =>
    match pyInt binaryLiteral (s.toList.map replaceUnknown) with
    | some n => n
    | none => (pyInt prefixedLiteral s.toList).getD default

/-! ## Source positions -/

/-- A run of decimal digits and what follows it. -/
def takeNumber (cs : List Char) : Option (Nat × List Char) :=
  match cs.takeWhile isDecimal with
  | [] => none
  | ds => (digitsValue 10 0 false (ds.map toAscii)).map fun n => (n, cs.dropWhile isDecimal)

/-- The character `c` and what follows it. -/
def expectChar (c : Char) : List Char → Option (List Char)
  | [] => none
  | d :: ds => if d = c then some ds else none

/-- `(\d+)\.(\d+)-(\d+)\.(\d+)$`: start line, start column, end line, end column. -/
def positionNumbers (cs : List Char) : Option (Nat × Nat × Nat × Nat) := do
  let (startLine, cs) ← takeNumber cs
  let cs ← expectChar '.' cs
  let (startColumn, cs) ← takeNumber cs
  let cs ← expectChar '-' cs
  let (endLine, cs) ← takeNumber cs
  let cs ← expectChar '.' cs
  let (endColumn, cs) ← takeNumber cs
  if cs = [] ∨ cs = ['\n'] then some (startLine, startColumn, endLine, endColumn) else none

/-- `^(.*?):` followed by the position: the shortest file name that works. `file` holds the characters read so far, reversed. -/
def matchLocation (file : List Char) : List Char → Option (String × Nat × Nat × Nat × Nat)
  | [] => none
  | c :: cs =>
    let next := if c = '\n' then none else matchLocation (c :: file) cs
    if c = ':' then
      match positionNumbers cs with
      | some numbers => some (String.ofList file.reverse, numbers)
      | none => next
    else next

/-- The first position of a Yosys `src` attribute. The generated position 0.0-0.0 becomes line one of its file. -/
def location (src fallback : String) : SourceLocation :=
  let first := if src = "" then [] else stripSpaces (src.toList.takeWhile (· ≠ '|'))
  match matchLocation [] first with
  | none => { file := fallback, startLine := 1, startColumn := 0, endLine := 1, endColumn := 0 }
  | some (file, startLine, startColumn, endLine, endColumn) =>
    if startLine = 0 ∧ endLine = 0 then
      { file := file, startLine := 1, startColumn := startColumn, endLine := 1, endColumn := endColumn }
    else { file := file, startLine := startLine, startColumn := startColumn, endLine := endLine, endColumn := endColumn }

/-! ## Cell types -/

/-- The state elements of `SEQUENTIAL`. -/
inductive SequentialKind where
  | dff
  | dffe
  | sdff
  | sdffe
  | sdffce
  | adff
  | adffe
  deriving Repr, DecidableEq

/-- The members of `SEQUENTIAL` by name. -/
def sequentialKind? : String → Option SequentialKind
  | "$dff" => some .dff
  | "$dffe" => some .dffe
  | "$sdff" => some .sdff
  | "$sdffe" => some .sdffe
  | "$sdffce" => some .sdffce
  | "$adff" => some .adff
  | "$adffe" => some .adffe
  | _ => none

namespace SequentialKind

/-- The kinds with an enable input. -/
def hasEnable : SequentialKind → Bool
  | .dffe | .sdffe | .sdffce | .adffe => true
  | .dff | .sdff | .adff => false

/-- The kinds whose name starts with `$sdff`: those with a synchronous reset. -/
def hasSyncReset : SequentialKind → Bool
  | .sdff | .sdffe | .sdffce => true
  | .dff | .dffe | .adff | .adffe => false

/-- The kinds whose name starts with `$adff`: those with an asynchronous reset. -/
def hasAsyncReset : SequentialKind → Bool
  | .adff | .adffe => true
  | .dff | .dffe | .sdff | .sdffe | .sdffce => false

end SequentialKind

/-- The combinational cells with the one operand A. -/
inductive UnaryKind where
  | not
  | neg
  | logicNot
  | reduceAnd
  | reduceOr
  | reduceBool
  deriving Repr, DecidableEq

/-- The combinational cells with the two operands A and B, but `$shiftx`. -/
inductive BinaryKind where
  | logicAnd
  | logicOr
  | sshr
  | shift
  | eq
  | ne
  | lt
  | le
  | ge
  | gt
  | and
  | or
  | xor
  | add
  | sub
  | mul
  | div
  | mod
  | shl
  | shr
  deriving Repr, DecidableEq

/-- The members of `SUPPORTED_COMB`, by the operands they read. -/
inductive CombKind where
  | unary (kind : UnaryKind)
  | binary (kind : BinaryKind)
  | mux
  | shiftx
  deriving Repr, DecidableEq

/-- The members of `SUPPORTED_COMB` by name. -/
def supportedComb? : String → Option CombKind
  | "$not" => some (.unary .not)
  | "$neg" => some (.unary .neg)
  | "$and" => some (.binary .and)
  | "$or" => some (.binary .or)
  | "$xor" => some (.binary .xor)
  | "$add" => some (.binary .add)
  | "$sub" => some (.binary .sub)
  | "$mul" => some (.binary .mul)
  | "$div" => some (.binary .div)
  | "$mod" => some (.binary .mod)
  | "$shl" => some (.binary .shl)
  | "$shr" => some (.binary .shr)
  | "$shift" => some (.binary .shift)
  | "$sshr" => some (.binary .sshr)
  | "$eq" => some (.binary .eq)
  | "$lt" => some (.binary .lt)
  | "$mux" => some .mux
  | "$logic_and" => some (.binary .logicAnd)
  | "$logic_or" => some (.binary .logicOr)
  | "$logic_not" => some (.unary .logicNot)
  | "$reduce_and" => some (.unary .reduceAnd)
  | "$reduce_or" => some (.unary .reduceOr)
  | "$reduce_bool" => some (.unary .reduceBool)
  | "$ne" => some (.binary .ne)
  | "$ge" => some (.binary .ge)
  | "$gt" => some (.binary .gt)
  | "$le" => some (.binary .le)
  | "$shiftx" => some .shiftx
  | _ => none

/-- `kind.startswith("$mem")`. -/
def isMemoryType (kind : String) : Bool := "$mem".toList.isPrefixOf kind.toList

/-- A combinational type is neither a sequential one nor a memory's. -/
theorem supportedComb?_other {kind : String} {comb : CombKind} (h : supportedComb? kind = some comb) :
    sequentialKind? kind = none ∧ isMemoryType kind = false ∧ kind ≠ "$mem_v2" := by
  unfold supportedComb? at h
  split at h
  all_goals first
    | (cases h; done)
    | decide

/-! ## Modules -/

/-- A port of a module. -/
structure ModulePort where
  direction : String
  bits : List Bit
  deriving Repr, DecidableEq

/-- A net of a module, with the attributes `src` and `init`. -/
structure Net where
  bits : List Bit
  src : String
  init : Option Param
  deriving Repr, DecidableEq

/-- A cell: its type, its `src` attribute, its parameters and, by port, its directions and connections. -/
structure Cell where
  type : String
  src : String
  parameters : Dict String Param
  portDirections : Dict String String
  connections : Dict String (List Bit)

namespace Cell

/-- `cell.get("connections", {}).get(port, [])`. -/
def connection (cell : Cell) (port : String) : List Bit := cell.connections.getD port []

/-- `params.get(name)`, decoded. -/
def parameter (cell : Cell) (name : String) (default : Int) : Int := decodeParameter (cell.parameters.get? name) default

/-- `bool(decode_parameter(params.get(name)))`. -/
def flag (cell : Cell) (name : String) : Bool := cell.parameter name 0 ≠ 0

/-- The ports a cell drives. -/
def outputs (cell : Cell) : List String :=
  (cell.portDirections.entries.filter fun entry => entry.2 = "output").map Prod.fst

theorem mem_outputs {cell : Cell} {port : String} :
    port ∈ cell.outputs ↔ cell.portDirections.get? port = some "output" := by
  simp only [outputs, List.mem_map, List.mem_filter, decide_eq_true_eq, Dict.get?_eq_some_iff]
  constructor
  · rintro ⟨⟨p, d⟩, ⟨hm, hd⟩, rfl⟩
    simp only at hd
    exact hd ▸ hm
  · intro h
    exact ⟨(port, "output"), ⟨h, rfl⟩, rfl⟩

end Cell

/-- A Yosys module. -/
structure YosysModule where
  src : String
  ports : Dict String ModulePort
  netnames : Dict String Net
  cells : Dict String Cell

end LoomImport
