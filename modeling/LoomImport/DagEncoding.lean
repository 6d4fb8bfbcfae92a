import LoomImport.Json
import LoomImport.Lib.StateOption

/-!
# Shared expression tables

The encoder replaces the expressions of a module by references into a table of nodes. The nodes are in postorder, and a node that
the adapter shares is in the table once: it is known by its identity.
-/

namespace LoomImport

/-- `EXPRESSION_KINDS`. -/
def expressionKinds : List String :=
  ["literal", "partial_literal", "signal", "unary", "binary", "mux", "slice", "zero_extend", "sign_extend", "concat", "memory_read"]

/-- The operands of a node by its kind, in the order they are interned. -/
def operandNames : String → List String
  | "unary" => ["value"]
  | "binary" => ["left", "right"]
  | "mux" => ["condition", "yes", "no"]
  | "slice" | "zero_extend" | "sign_extend" => ["value"]
  | "concat" => ["high", "low"]
  | "memory_read" => ["address"]
  | _ => []

/-- The nodes so far, and the index of every node by the identity of its expression. -/
structure ExprTable where
  expressions : List Json
  ids : Dict Nat Nat

/-- A step of the encoder: no result stands for an exception. -/
abbrev Encoder := StateT ExprTable Option

namespace PyValue

/-- A field of a dictionary, which is smaller than the dictionary. -/
def child? (value : PyValue) (name : String) : Option { field : PyValue // sizeOf field < sizeOf value } :=
  match value with
  | dict _ entries =>
    match h : entries.lookup name with
    | some field => some ⟨field, by
        have hlt := List.sizeOf_lt_of_mem (Dict.mem_of_lookup h)
        simp at hlt ⊢
        omega⟩
    | Option.none => Option.none
  | _ => Option.none

/-- The entries of a dictionary, as JSON. -/
def jsonEntries? : PyValue → Option (List (String × Json))
  | dict _ entries => some (entries.map fun entry => (entry.1, entry.2.toJson))
  | _ => Option.none

/-- The kind of an expression. -/
def kind? (value : PyValue) : Option String :=
  match value.get? "kind" with
  | some (str kind) => if kind ∈ expressionKinds then some kind else Option.none
  | _ => Option.none

end PyValue

/-- Some fields of a node, replaced by references. -/
def setRefs (entries : List (String × Json)) (refs : List (String × Nat)) : List (String × Json) :=
  refs.foldl (fun entries ref => Dict.setEntries ref.1 (.num ref.2) entries) entries

/-- Add a node, known by an identity from now on. -/
def ExprTable.push (table : ExprTable) (identity : Nat) (node : Json) : ExprTable where
  expressions := table.expressions ++ [node]
  ids := table.ids.set identity table.expressions.length

/-- The index of an expression in the table. -/
def intern (expression : PyValue) : Encoder Nat :=
  match expression with
  | .dict identity entries => do
    match (← get).ids.get? identity with
    | some id => pure id
    | none => do
      let kind ← StateT.lift (PyValue.dict identity entries).kind?
      let refs ← (operandNames kind).mapM fun name => do
        let operand ← StateT.lift ((PyValue.dict identity entries).child? name)
        let id ← intern operand.1
        pure (name, id)
      let table ← get
      set (table.push identity (.obj (setRefs (entries.map fun entry => (entry.1, entry.2.toJson)) refs)))
      pure table.expressions.length
  | _ => StateT.lift none
termination_by sizeOf expression
decreasing_by exact operand.2

/-- A dictionary with some of its expressions replaced by references. -/
def encodeFields (names : List String) (value : PyValue) : Encoder (List (String × Json)) := do
  let entries ← StateT.lift value.jsonEntries?
  let refs ← names.mapM fun name => do
    let expression ← StateT.lift (value.get? name)
    let id ← intern expression
    pure (name, id)
  pure (setRefs entries refs)

/-- The values of a field that holds a list. -/
def itemsOf (value : PyValue) (name : String) : Encoder (List PyValue) := do
  let items ← StateT.lift (value.get? name)
  StateT.lift items.iterate?

def encodeRegister (register : PyValue) : Encoder Json := Json.obj <$> encodeFields ["next"] register

def encodeWrite (write : PyValue) : Encoder Json := Json.obj <$> encodeFields ["enable", "address", "data"] write

def encodeMemory (memory : PyValue) : Encoder Json := do
  let entries ← StateT.lift memory.jsonEntries?
  let writes ← (← itemsOf memory "writes").mapM encodeWrite
  pure (.obj (Dict.setEntries "writes" (.arr writes) entries))

def encodeOutput (output : PyValue) : Encoder Json := Json.obj <$> encodeFields ["value"] output

/-- A connection without an expression keeps its empty value. -/
def encodeConnection (connection : PyValue) : Encoder Json := do
  match ← StateT.lift (connection.get? "value") with
  | .none => do
    let entries ← StateT.lift connection.jsonEntries?
    pure (.obj (Dict.setEntries "value" .null entries))
  | _ => Json.obj <$> encodeFields ["value"] connection

def encodeInstance (inst : PyValue) : Encoder Json := do
  let entries ← StateT.lift inst.jsonEntries?
  let connections ← (← itemsOf inst "connections").mapM encodeConnection
  pure (.obj (Dict.setEntries "connections" (.arr connections) entries))

/-- The items of a field, encoded one after the other. -/
def encodeItems (encode : PyValue → Encoder Json) (module : PyValue) (name : String) : Encoder Json := do
  let items ← itemsOf module name
  Json.arr <$> items.mapM encode

/-- The fields of a module in which expressions are, encoded. -/
def encodeModule (module : PyValue) : Encoder (List (String × Json)) := do
  let entries ← StateT.lift module.jsonEntries?
  let registers ← encodeItems encodeRegister module "registers"
  let memories ← encodeItems encodeMemory module "memories"
  let outputs ← encodeItems encodeOutput module "outputs"
  let instances ← encodeItems encodeInstance module "instances"
  pure (Dict.setEntries "instances" instances (Dict.setEntries "outputs" outputs
    (Dict.setEntries "memories" memories (Dict.setEntries "registers" registers entries))))

/-- The module with a table of its expressions, as it is written. -/
def encodeModuleExpressionDag (module : PyValue) : Option Json :=
  (encodeModule module ⟨[], Dict.empty⟩).map fun result =>
    .obj (Dict.setEntries "expressions" (.arr result.2.expressions) result.1)

end LoomImport
