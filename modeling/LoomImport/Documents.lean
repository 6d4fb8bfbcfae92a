import LoomImport.DagRoundTrip

/-!
# Documents that are read back

The document the adapter writes for a module, field by field, and that it is parsed as the module. The adapter writes more than is
parsed: what it says of memories and registers for an equivalence check, and of the patterns that were refused.
-/

namespace LoomImport

open ImportIR

/-- What a document has besides the module. -/
structure Annotations where
  memoryEquivalence : Json
  registerEquivalence : Json
  /-- The further fields of each blocker, by its position. -/
  unsupported : Nat → List (String × Json)

/-- A value that may be missing. -/
def Json.optional {α : Type} (write : α → Json) : Option α → Json
  | none => .null
  | some a => write a

def SourceLocation.document (location : SourceLocation) : Json :=
  .obj [("file", .str location.file), ("start_line", .num location.startLine), ("start_column", .num location.startColumn),
    ("end_line", .num location.endLine), ("end_column", .num location.endColumn)]

/-! ## Enumerations -/

def PortDirection.text : PortDirection → String
  | .input => "input"
  | .output => "output"
  | .inout => "inout"

def ClockEdge.text : ClockEdge → String
  | .rising => "rising"
  | .falling => "falling"

def ResetKind.text : ResetKind → String
  | .resetless => "resetless"
  | .synchronous => "synchronous"
  | .asynchronous => "asynchronous"
  | .asynchronousAssertSynchronousRelease => "asynchronous_assert_synchronous_release"

def UnaryOp.text : UnaryOp → String
  | .bitNot => "bit_not"
  | .negate => "negate"
  | .reduceBool => "reduce_bool"
  | .reduceAnd => "reduce_and"
  | .logicalNot => "logical_not"

def BinaryOp.text : BinaryOp → String
  | .bitAnd => "bit_and"
  | .bitOr => "bit_or"
  | .bitXor => "bit_xor"
  | .add => "add"
  | .sub => "sub"
  | .mul => "mul"
  | .unsignedDiv => "unsigned_div"
  | .unsignedRem => "unsigned_rem"
  | .shiftLeft => "shift_left"
  | .logicalShiftRight => "logical_shift_right"
  | .equal => "equal"
  | .unsignedLessThan => "unsigned_less_than"
  | .signedLessThan => "signed_less_than"

def PartialValueClass.text : PartialValueClass → String
  | .synthesisDontCare => "synthesis_dont_care"
  | .unreachableDecode => "unreachable_decode"
  | .undrivenBehavior => "undriven_behavior"
  | .uninitializedStateOrMemory => "uninitialized_state_or_memory"

/-! ## Expressions -/

def PartialValue.document (choice : PartialValue) : Json :=
  .obj [("site", .str choice.site), ("classification", .str choice.classification.text), ("known_mask", .num choice.knownMask),
    ("known_value", .num choice.knownValue), ("implementation_value", .num choice.implementationValue),
    ("rationale", .str choice.rationale)]

namespace ImportIR

def Expr.document : Expr → Json
  | .literal width value source =>
    .obj [("kind", .str "literal"), ("width", .num width), ("value", .num value), ("source", source.document)]
  | .partialLiteral width choice source =>
    .obj [("kind", .str "partial_literal"), ("width", .num width), ("partial", choice.document), ("source", source.document)]
  | .signal width name source =>
    .obj [("kind", .str "signal"), ("width", .num width), ("name", .str name), ("source", source.document)]
  | .unary width op value source =>
    .obj [("kind", .str "unary"), ("width", .num width), ("op", .str op.text), ("value", value.document), ("source", source.document)]
  | .binary width op left right source =>
    .obj [("kind", .str "binary"), ("width", .num width), ("op", .str op.text), ("left", left.document), ("right", right.document),
      ("source", source.document)]
  | .mux width condition yes no source =>
    .obj [("kind", .str "mux"), ("width", .num width), ("condition", condition.document), ("yes", yes.document), ("no", no.document),
      ("source", source.document)]
  | .slice width value offset source =>
    .obj [("kind", .str "slice"), ("width", .num width), ("value", value.document), ("offset", .num offset), ("source", source.document)]
  | .zeroExtend width value source =>
    .obj [("kind", .str "zero_extend"), ("width", .num width), ("value", value.document), ("source", source.document)]
  | .signExtend width value source =>
    .obj [("kind", .str "sign_extend"), ("width", .num width), ("value", value.document), ("source", source.document)]
  | .concat width high low source =>
    .obj [("kind", .str "concat"), ("width", .num width), ("high", high.document), ("low", low.document), ("source", source.document)]
  | .memoryRead width memory address source =>
    .obj [("kind", .str "memory_read"), ("width", .num width), ("memory", .str memory), ("address", address.document),
      ("source", source.document)]

/-! ## Modules -/

def Port.document (port : Port) : Json :=
  .obj [("name", .str port.name), ("direction", .str port.direction.text), ("width", .num port.width),
    ("semantic_type", .str port.semanticType), ("source", port.source.document)]

def Reset.document (reset : Reset) : Json :=
  .obj [("kind", .str reset.kind.text), ("port", Json.optional .str reset.port), ("active_high", .bool reset.activeHigh),
    ("source", Json.optional SourceLocation.document reset.source)]

def ClockDomain.document (domain : ClockDomain) : Json :=
  .obj [("name", .str domain.name), ("clock_port", .str domain.clockPort), ("edge", .str domain.edge.text),
    ("reset", domain.reset.document), ("source", domain.source.document)]

def Register.document (register : Register) : Json :=
  .obj [("name", .str register.name), ("width", .num register.width), ("init", .num register.init), ("next", register.next.document),
    ("domain", Json.optional .str register.domain), ("source", register.source.document)]

def MemoryWrite.document (write : MemoryWrite) : Json :=
  .obj [("port", .num write.port), ("enable", write.enable.document), ("address", write.address.document),
    ("data", write.data.document), ("source", write.source.document)]

def Memory.document (memory : Memory) : Json :=
  .obj [("name", .str memory.name), ("address_width", .num memory.addressWidth), ("data_width", .num memory.dataWidth),
    ("init", .arr (memory.init.map fun (word : Nat) => .num word)), ("init_refinement", Json.optional PartialValue.document memory.initRefinement),
    ("writes", .arr (memory.writes.map MemoryWrite.document)), ("source", memory.source.document)]

def Output.document (output : Output) : Json :=
  .obj [("name", .str output.name), ("width", .num output.width), ("value", output.value.document), ("source", output.source.document)]

def InstanceConnection.document (connection : InstanceConnection) : Json :=
  .obj [("port", .str connection.port), ("direction", .str connection.direction.text), ("signal", .str connection.signal),
    ("width", .num connection.width), ("value", Json.optional Expr.document connection.value), ("source", connection.source.document)]

def Instance.document (inst : Instance) : Json :=
  .obj [("name", .str inst.name), ("module_name", .str inst.moduleName),
    ("parameters", .arr (inst.parameters.map fun parameter => .obj [("name", .str parameter.1), ("value", .str parameter.2)])),
    ("connections", .arr (inst.connections.map InstanceConnection.document)), ("source", inst.source.document)]

/-- A blocker, with what else is known of it. -/
def UnsupportedConstruct.document (construct : UnsupportedConstruct) (more : List (String × Json)) : Json :=
  .obj ([("kind", .str construct.kind), ("detail", .str construct.detail), ("source", construct.source.document)] ++ more)

/-- What `translate()` returns. -/
def Module.document (module : Module) (annotations : Annotations) : Json :=
  .obj [("name", .str module.name), ("ports", .arr (module.ports.map Port.document)),
    ("domains", .arr (module.domains.map ClockDomain.document)), ("registers", .arr (module.registers.map Register.document)),
    ("memories", .arr (module.memories.map Memory.document)), ("outputs", .arr (module.outputs.map Output.document)),
    ("memory_equivalence", annotations.memoryEquivalence), ("register_equivalence", annotations.registerEquivalence),
    ("instances", .arr (module.instances.map Instance.document)),
    ("unsupported", .arr (module.unsupported.mapIdx fun i construct => construct.document (annotations.unsupported i))),
    ("source", module.source.document)]

end ImportIR

namespace ImportJson

/-! ## Reading back -/

theorem parseList_map {α : Type} {parser : Json → Except String α} {write : α → Json} (h : ∀ a, parser (write a) = .ok a) (items : List α) :
    parseList parser (items.map write) = .ok items := by
  induction items with
  | nil => rfl
  | cons a items ih =>
    unfold parseList at ih ⊢
    rw [List.map_cons, List.mapM_cons, h a, ih]
    rfl

theorem parseList_mapIdx {α : Type} {parser : Json → Except String α} {write : Nat → α → Json} (h : ∀ i a, parser (write i a) = .ok a)
    (items : List α) : parseList parser (items.mapIdx write) = .ok items := by
  induction items generalizing write with
  | nil => rfl
  | cons a items ih =>
    have hrest := ih fun i => h (i + 1)
    unfold parseList at hrest ⊢
    rw [List.mapIdx_cons, List.mapM_cons, h 0 a, hrest]
    rfl

theorem parsePartialValue_document (choice : PartialValue) : parsePartialValue choice.document = .ok choice := by
  obtain ⟨site, classification, _, _, _, _⟩ := choice
  cases classification <;> rfl

/-- The operands of a node are read by induction, and the rest of it is read as it was written. -/
theorem parseExpr_document (e : ImportIR.Expr) : parseExpr e.document = .ok e := by
  rw [DagAux.parseExpr_eq]
  induction e with
  | literal | signal => rfl
  | partialLiteral width choice source =>
    have hchoice : (field (Expr.partialLiteral width choice source).document "partial" >>= parsePartialValue) = .ok choice :=
      parsePartialValue_document choice
    unfold parseNode
    rw [hchoice]
    rfl
  | unary width op value source ih =>
    rw [← DagAux.parseExpr_eq] at ih
    have hvalue : exprField (Expr.unary width op value source).document "value" = .ok value := ih
    unfold parseNode
    rw [hvalue]
    cases op <;> rfl
  | binary width op left right source ihleft ihright =>
    rw [← DagAux.parseExpr_eq] at ihleft ihright
    have hleft : exprField (Expr.binary width op left right source).document "left" = .ok left := ihleft
    have hright : exprField (Expr.binary width op left right source).document "right" = .ok right := ihright
    unfold parseNode
    rw [hleft, hright]
    cases op <;> rfl
  | mux width condition yes no source ihcondition ihyes ihno =>
    rw [← DagAux.parseExpr_eq] at ihcondition ihyes ihno
    have hcondition : exprField (Expr.mux width condition yes no source).document "condition" = .ok condition := ihcondition
    have hyes : exprField (Expr.mux width condition yes no source).document "yes" = .ok yes := ihyes
    have hno : exprField (Expr.mux width condition yes no source).document "no" = .ok no := ihno
    unfold parseNode
    rw [hcondition, hyes, hno]
    rfl
  | slice width value offset source ih =>
    rw [← DagAux.parseExpr_eq] at ih
    have hvalue : exprField (Expr.slice width value offset source).document "value" = .ok value := ih
    unfold parseNode
    rw [hvalue]
    rfl
  | zeroExtend width value source ih =>
    rw [← DagAux.parseExpr_eq] at ih
    have hvalue : exprField (Expr.zeroExtend width value source).document "value" = .ok value := ih
    unfold parseNode
    rw [hvalue]
    rfl
  | signExtend width value source ih =>
    rw [← DagAux.parseExpr_eq] at ih
    have hvalue : exprField (Expr.signExtend width value source).document "value" = .ok value := ih
    unfold parseNode
    rw [hvalue]
    rfl
  | concat width high low source ihhigh ihlow =>
    rw [← DagAux.parseExpr_eq] at ihhigh ihlow
    have hhigh : exprField (Expr.concat width high low source).document "high" = .ok high := ihhigh
    have hlow : exprField (Expr.concat width high low source).document "low" = .ok low := ihlow
    unfold parseNode
    rw [hhigh, hlow]
    rfl
  | memoryRead width memory address source ih =>
    rw [← DagAux.parseExpr_eq] at ih
    have haddress : exprField (Expr.memoryRead width memory address source).document "address" = .ok address := ih
    unfold parseNode
    rw [haddress]
    rfl

/-! ## Reading back modules -/

theorem parsePort_document (port : Port) : parsePort port.document = .ok port := by
  obtain ⟨_, direction, _, _, _⟩ := port
  cases direction <;> rfl

theorem parseReset_document (reset : Reset) : parseReset reset.document = .ok reset := by
  obtain ⟨kind, port, _, source⟩ := reset
  cases kind <;> cases port <;> cases source <;> rfl

theorem parseDomain_document (domain : ClockDomain) : parseDomain domain.document = .ok domain := by
  have hreset : (field domain.document "reset" >>= parseReset) = .ok domain.reset := parseReset_document domain.reset
  unfold parseDomain
  rw [hreset]
  obtain ⟨_, _, edge, _, _⟩ := domain
  cases edge <;> rfl

theorem parseRegister_document (register : Register) : parseRegister register.document = .ok register := by
  have hnext : exprField register.document "next" = .ok register.next := parseExpr_document register.next
  unfold parseRegister parseRegisterWith
  rw [hnext]
  obtain ⟨_, _, _, _, domain, _⟩ := register
  cases domain <;> rfl

theorem parseMemoryWrite_document (write : MemoryWrite) : parseMemoryWrite write.document = .ok write := by
  have henable : exprField write.document "enable" = .ok write.enable := parseExpr_document write.enable
  have haddress : exprField write.document "address" = .ok write.address := parseExpr_document write.address
  have hdata : exprField write.document "data" = .ok write.data := parseExpr_document write.data
  unfold parseMemoryWrite parseMemoryWriteWith
  rw [henable, haddress, hdata]
  rfl

theorem parseMemory_document (memory : Memory) : parseMemory memory.document = .ok memory := by
  have hinit : (arrayField memory.document "init" >>= parseList Json.getNat?) = .ok memory.init :=
    @parseList_map Nat Json.getNat? (fun word => .num word) (fun _ => rfl) memory.init
  have hwrites : (arrayField memory.document "writes" >>= parseList (parseMemoryWriteWith exprField)) = .ok memory.writes :=
    parseList_map parseMemoryWrite_document memory.writes
  have hrefinement : optionalPartialValueField memory.document "init_refinement" = .ok memory.initRefinement := by
    obtain ⟨_, _, _, _, initRefinement, _, _⟩ := memory
    cases initRefinement with
    | none => rfl
    | some choice => exact congrArg (fun result => some <$> result) (parsePartialValue_document choice)
  unfold parseMemory parseMemoryWith
  rw [hinit, hwrites, hrefinement]
  rfl

theorem parseOutput_document (output : Output) : parseOutput output.document = .ok output := by
  have hvalue : exprField output.document "value" = .ok output.value := parseExpr_document output.value
  unfold parseOutput parseOutputWith
  rw [hvalue]
  rfl

theorem parseInstanceConnection_document (connection : InstanceConnection) :
    parseInstanceConnection connection.document = .ok connection := by
  have hvalue : connectionValue exprField connection.document = .ok connection.value := by
    obtain ⟨_, _, _, _, value, _⟩ := connection
    cases value with
    | none => rfl
    | some e =>
      have he := congrArg (fun result => some <$> result) (parseExpr_document e)
      cases e <;> exact he
  unfold parseInstanceConnection parseInstanceConnectionWith
  rw [hvalue]
  obtain ⟨_, direction, _, _, _, _⟩ := connection
  cases direction <;> rfl

theorem parseInstance_document (inst : Instance) : parseInstance inst.document = .ok inst := by
  have hparameters : (arrayField inst.document "parameters" >>= parseList parseParameter) = .ok inst.parameters :=
    @parseList_map _ parseParameter _ (fun _ => rfl) inst.parameters
  have hconnections : (arrayField inst.document "connections" >>= parseList (parseInstanceConnectionWith exprField)) =
      .ok inst.connections := parseList_map parseInstanceConnection_document inst.connections
  unfold parseInstance parseInstanceWith
  rw [hparameters, hconnections]
  rfl

theorem parseModule_document (module : Module) (annotations : Annotations) :
    parseModuleJson (module.document annotations) = .ok module := by
  have hports : (arrayField (module.document annotations) "ports" >>= parseList parsePort) = .ok module.ports :=
    parseList_map parsePort_document module.ports
  have hdomains : (arrayField (module.document annotations) "domains" >>= parseList parseDomain) = .ok module.domains :=
    parseList_map parseDomain_document module.domains
  have hregisters : (arrayField (module.document annotations) "registers" >>= parseList (parseRegisterWith exprField)) =
      .ok module.registers := parseList_map parseRegister_document module.registers
  have hmemories : (arrayField (module.document annotations) "memories" >>= parseList (parseMemoryWith exprField)) =
      .ok module.memories := parseList_map parseMemory_document module.memories
  have houtputs : (arrayField (module.document annotations) "outputs" >>= parseList (parseOutputWith exprField)) =
      .ok module.outputs := parseList_map parseOutput_document module.outputs
  have hinstances : (arrayField (module.document annotations) "instances" >>= parseList (parseInstanceWith exprField)) =
      .ok module.instances := parseList_map parseInstance_document module.instances
  have hunsupported : (arrayField (module.document annotations) "unsupported" >>= parseList parseUnsupported) =
      .ok module.unsupported := @parseList_mapIdx _ parseUnsupported _ (fun _ _ => rfl) module.unsupported
  unfold parseModuleJson parseModuleWith
  rw [hports, hdomains, hregisters, hmemories, houtputs, hinstances, hunsupported]
  rfl

/-- The document of a module is read as the module, as a tree and as the table it is written as when some of its expressions are
shared. -/
theorem document_readBack (module : Module) (annotations : Annotations) :
    parseModuleJson (module.document annotations) = .ok module ∧
      ∀ document : PyValue, document.Coherent → document.toJson = module.document annotations →
        ∃ encoded, encodeModuleExpressionDag document = some encoded ∧ parseModuleDagJson encoded = .ok module := by
  refine ⟨parseModule_document module annotations, fun document hcoherent hjson => ?_⟩
  exact DagAux.encode_spec hcoherent (hjson ▸ parseModule_document module annotations)

/-- A module of two outputs that share the inversion of an input. -/
def twoOutputs : Module where
  name := "top"
  ports := []
  domains := []
  registers := []
  memories := []
  outputs := ["y", "z"].map fun name => {
    name := name
    width := 1
    value := .unary 1 .bitNot (.signal 1 "a" ⟨"top.v", 1, 0, 9, 9⟩) ⟨"top.v", 1, 0, 9, 9⟩
    source := ⟨"top.v", 1, 0, 9, 9⟩ }
  instances := []
  unsupported := []
  source := ⟨"top.v", 1, 0, 9, 9⟩

/-- What the adapter returns for it: the outputs have one inversion. -/
def twoOutputsEntries : List (String × PyValue) :=
  [("name", .str "top"), ("ports", .list []), ("domains", .list []), ("registers", .list []), ("memories", .list []),
    ("outputs", .list [.dict 4 (outputEntries "y"), .dict 5 (outputEntries "z")]), ("memory_equivalence", .list []),
    ("register_equivalence", .list []), ("instances", .list []), ("unsupported", .list []), ("source", .dict 1 positionEntries)]

theorem document_readBack_twoOutputs : ∃ encoded, encodeModuleExpressionDag (.dict 6 twoOutputsEntries) = some encoded ∧
    parseModuleDagJson encoded = .ok twoOutputs := by
  have hcoherent : (PyValue.dict 6 twoOutputsEntries).Coherent := by
    refine PyValue.coherent_of_dicts (fun identity => match identity with
      | 1 => positionEntries
      | 2 => signalEntries
      | 3 => inversionEntries
      | 4 => outputEntries "y"
      | 5 => outputEntries "z"
      | _ => twoOutputsEntries) ?_
    simp [PyValue.dicts, PyValue.itemsDicts, PyValue.entriesDicts, twoOutputsEntries, outputEntries, inversionEntries, signalEntries,
      positionEntries]
  exact (document_readBack twoOutputs ⟨.arr [], .arr [], fun _ => []⟩).2 (.dict 6 twoOutputsEntries) hcoherent rfl

end ImportJson

end LoomImport
