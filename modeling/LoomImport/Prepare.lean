import LoomImport.Runs

/-!
# Before the first expression

What the adapter indexes before it translates an expression: input vectors, drivers, registers and the accepted memory cells, with
the blockers it finds on the way.
-/

namespace LoomImport

open ImportIR StateOption RunsAux

/-- Nothing is translated, nothing is blocked. -/
def State.initial : State := { cache := Dict.empty, inProgress := [], unsupported := [] }

namespace Setting

/-! ## The index -/

/-- The vectors of the input ports, with their names. -/
def inputs (Γ : Setting) : Dict (List Bit) String :=
  Γ.module.ports.entries.foldl (fun inputs entry =>
    if entry.2.direction = "input" then inputs.set entry.2.bits entry.1 else inputs) Dict.empty

/-- The bits of the cell outputs in the order they are indexed, with their place and the `src` of their cell. -/
def drivenBits (Γ : Setting) : List (Bit × Driver × String) :=
  Γ.module.cells.entries.flatMap fun entry => entry.2.outputs.flatMap fun port =>
    (entry.2.connection port).zipIdx.map fun bit => (bit.1, ⟨entry.1, port, bit.2⟩, entry.2.src)

/-- What blocks a net with several cell drivers. -/
def multipleDriversRecord (Γ : Setting) (id : Nat) (src : String) : UnsupportedRecord :=
  { kind := "multiple_drivers", detail := "bit " ++ toString id ++ " has multiple cell drivers", source := Γ.sourceOf src
    metadata := none }

/-- Index one driven bit: a net that has a driver is blocked, and the last driver is kept. -/
def indexBit (Γ : Setting) (drivers : Dict Nat Driver) (driven : Bit × Driver × String) : M (Dict Nat Driver) :=
  match driven.1 with
  | .const _ => pure drivers
  | .net id => do
    if (drivers.get? id).isSome then modify fun s => s.record (Γ.multipleDriversRecord id driven.2.2)
    pure (drivers.set id driven.2.1)

def indexDrivers (Γ : Setting) : M (Dict Nat Driver) := Γ.drivenBits.foldlM Γ.indexBit Dict.empty

/-! ## Registers -/

/-- The sequential cells, with their kinds. -/
def sequentialCells (Γ : Setting) : List (String × Cell × SequentialKind) :=
  Γ.module.cells.entries.filterMap fun entry => (sequentialKind? entry.2.type).map fun kind => (entry.1, entry.2, kind)

def registerName (cellName : String) : String := "__loom_reg_" ++ legalIdentifier cellName

/-- The vectors of the registers, with their names. -/
def registers (Γ : Setting) : Dict (List Bit) String :=
  Γ.sequentialCells.foldl (fun registers entry =>
    registers.set (entry.2.1.connection "Q") (registerName entry.1)) Dict.empty

/-- Insertion into a list in the order of code points. -/
def insertName (name : String) : List String → List String
  | [] => [name]
  | other :: rest => if name < other then name :: other :: rest else other :: insertName name rest

/-- `sorted(names)`. -/
def sortNames (names : List String) : List String := names.foldr insertName []

/-- Block the asynchronous resets, when there are any. -/
def blockAsynchronous (Γ : Setting) : M Unit := do
  let asynchronous := (Γ.sequentialCells.filter fun entry => entry.2.2.hasAsyncReset).map Prod.fst
  if asynchronous.isEmpty then pure ()
  else
    block "asynchronous_reset_state" ("asynchronous reset state must remain behind an external contract: " ++
      String.intercalate ", " (sortNames asynchronous)) Γ.moduleSource none

end Setting

/-! ## Memory cells -/

/-- `packed_bit(value, index) == "1"`. -/
def packedBitSet (value : Option Param) (index : Nat) : Bool :=
  match value with
  | some (.str text) => text.toList.reverse[index]? = some '1'
  | some (.int n) => n / 2 ^ index % 2 = 1
  | none => false

/-- The bits of a parameter of a known width, least significant first. -/
def parameterBits (value : Option Param) (width : Nat) : Option (List Bit) :=
  match value with
  | some (.int n) => some ((List.range width).map fun index => .const (if n / 2 ^ index % 2 = 1 then '1' else '0'))
  | some (.str text) =>
    if text.length = width then some (text.toList.reverse.map fun c => .const c.toLower) else none
  | none => none

theorem parameterBits_length {value : Option Param} {width : Nat} {bits : List Bit}
    (h : parameterBits value width = some bits) : bits.length = width := by
  unfold parameterBits at h
  rcases value with _ | (n | text)
  · cases h
  · cases h
    simp
  · simp only at h
    split at h
    · rename_i hlen
      cases h
      rw [List.length_map, List.length_reverse, String.length_toList, hlen]
    · cases h

/-- The lengths the packed ports of a memory must have. -/
def expectedLengths (width abits readPorts writePorts : Int) : List (String × Int) :=
  [("RD_ADDR", readPorts * abits), ("RD_DATA", readPorts * width), ("WR_ADDR", writePorts * abits),
    ("WR_DATA", writePorts * width), ("WR_EN", writePorts * width), ("WR_CLK", writePorts)]

/-- The features of a memory cell that must be off. -/
def memoryFeatures : List String :=
  ["RD_CLK_ENABLE", "RD_TRANSPARENCY_MASK", "RD_COLLISION_X_MASK", "RD_WIDE_CONTINUATION", "RD_CE_OVER_SRST",
    "WR_WIDE_CONTINUATION"]

/-- The packed ports of another length than expected. -/
def malformedPorts (cell : Cell) (expected : List (String × Int)) : List String :=
  (expected.filter fun entry => ((cell.connection entry.1).length : Int) ≠ entry.2).map Prod.fst

theorem length_of_malformedPorts {cell : Cell} {expected : List (String × Int)} (h : malformedPorts cell expected = [])
    {port : String} {n : Int} (hm : (port, n) ∈ expected) : ((cell.connection port).length : Int) = n := by
  unfold malformedPorts at h
  rw [List.map_eq_nil_iff, List.filter_eq_nil_iff] at h
  simpa using h (port, n) hm

/-- The expected lengths hold of natural parameters, and the number of write ports is one. -/
theorem lengths_toNat {cell : Cell} {width abits readPorts writePorts : Int}
    (h : malformedPorts cell (expectedLengths width abits readPorts writePorts) = []) (hw : 0 < width) (ha : 0 < abits)
    (hr : 0 < readPorts) :
    (cell.connection "RD_ADDR").length = readPorts.toNat * abits.toNat ∧
      (cell.connection "RD_DATA").length = readPorts.toNat * width.toNat ∧
      (cell.connection "WR_ADDR").length = writePorts.toNat * abits.toNat ∧
      (cell.connection "WR_DATA").length = writePorts.toNat * width.toNat ∧
      (cell.connection "WR_EN").length = writePorts.toNat * width.toNat ∧
      (cell.connection "WR_CLK").length = writePorts.toNat := by
  obtain ⟨w, rfl⟩ := Int.eq_ofNat_of_zero_le (Int.le_of_lt hw)
  obtain ⟨a, rfl⟩ := Int.eq_ofNat_of_zero_le (Int.le_of_lt ha)
  obtain ⟨r, rfl⟩ := Int.eq_ofNat_of_zero_le (Int.le_of_lt hr)
  have hclk : ((cell.connection "WR_CLK").length : Int) = writePorts :=
    length_of_malformedPorts h (by simp [expectedLengths])
  obtain ⟨p, rfl⟩ := Int.eq_ofNat_of_zero_le (hclk ▸ Int.natCast_nonneg _)
  have key : ∀ {port : String} {n : Nat}, (port, (n : Int)) ∈ expectedLengths w a r p →
      (cell.connection port).length = n := fun hm => Int.ofNat.inj (length_of_malformedPorts h hm)
  simp only [Int.toNat_natCast]
  exact ⟨key (by simp [expectedLengths]), key (by simp [expectedLengths]), key (by simp [expectedLengths]),
    key (by simp [expectedLengths]), key (by simp [expectedLengths]), key (by simp [expectedLengths])⟩

/-- The parameters of a memory cell, or the kind and the detail of what blocks it. -/
def memoryShape? (cell : Cell) : Except (String × String) (MemoryShape cell) :=
  let size := cell.parameter "SIZE" 0
  let width := cell.parameter "WIDTH" 0
  let abits := cell.parameter "ABITS" 0
  let readPorts := cell.parameter "RD_PORTS" 0
  let writePorts := cell.parameter "WR_PORTS" 0
  let offset := cell.parameter "OFFSET" 0
  if hs : size ≤ 0 ∨ size.toNat &&& (size.toNat - 1) ≠ 0 ∨ width ≤ 0 ∨ abits ≤ 0 ∨ readPorts ≤ 0 ∨ offset ≠ 0 then
    .error ("memory_shape",
      "$mem_v2 requires positive power-of-two SIZE, positive widths/read ports, and OFFSET=0")
  else if hm : malformedPorts cell (expectedLengths width abits readPorts writePorts) ≠ [] then
    .error ("memory_port_shape", "malformed packed $mem_v2 ports: " ++
      String.intercalate ", " (malformedPorts cell (expectedLengths width abits readPorts writePorts)))
  else
    let unsupported := memoryFeatures.filter fun name => cell.flag name
    if unsupported ≠ [] then
      .error ("memory_semantics", "unsupported $mem_v2 features: " ++ String.intercalate ", " unsupported)
    else
      have hlen := lengths_toNat (not_not.1 hm) (by omega) (by omega) (by omega)
      .ok {
        size := size.toNat
        width := width.toNat
        abits := abits.toNat
        readPorts := readPorts.toNat
        writePorts := writePorts.toNat
        size_pos := by omega
        size_pow := by
          refine Classical.byContradiction fun hne => hs ?_
          exact Or.inr (Or.inl hne)
        width_pos := by omega
        abits_pos := by omega
        readPorts_pos := by omega
        readAddr_length := hlen.1
        readData_length := hlen.2.1
        writeAddr_length := hlen.2.2.1
        writeData_length := hlen.2.2.2.1
        writeEn_length := hlen.2.2.2.2.1
        writeClk_length := hlen.2.2.2.2.2 }

/-- Run a blocker when a condition holds. -/
def blockIf (condition : Bool) (kind detail : String) (source : SourceLocation) : M Unit :=
  if condition then block kind detail source none else pure ()

/-- The image of a memory cell: the `INIT` parameter, or all unknown when it is not of the right length. -/
def initBitsOf (cell : Cell) (width : Nat) : List Bit :=
  (parameterBits (cell.parameters.get? "INIT") width).getD (List.replicate width (.const 'x'))

theorem initBitsOf_length (cell : Cell) (width : Nat) : (initBitsOf cell width).length = width := by
  unfold initBitsOf
  cases h : parameterBits (cell.parameters.get? "INIT") width with
  | none => simp
  | some bits => exact parameterBits_length h

namespace Setting

/-- Accept a memory cell, or block it. -/
def prepareMemory (Γ : Setting) (cellName : String) (cell : Cell) : M (Option MemoryInfo) :=
  let src := Γ.sourceOf cell.src
  if cell.type ≠ "$mem_v2" then do
    block "memory_cell" ("unsupported memory cell " ++ cell.type) src none
    pure none
  else match memoryShape? cell with
    | .error (kind, detail) => do
      block kind detail src none
      pure none
    | .ok shape => do
      ["RD_ARST", "RD_SRST"].forM fun name =>
        blockIf ((cell.connection name).any fun bit => bit ≠ .const '0') "memory_read_control"
          ("nonconstant " ++ name ++ " requires clocked-read lowering") src
      (List.range shape.writePorts).forM fun port => do
        blockIf (!packedBitSet (cell.parameters.get? "WR_CLK_ENABLE") port) "asynchronous_memory_write"
          ("write port " ++ toString port ++ " is not clocked") src
        blockIf (!packedBitSet (cell.parameters.get? "WR_CLK_POLARITY") port) "falling_edge_memory_write"
          ("write port " ++ toString port ++ " is not rising-edge") src
      let width := shape.size * shape.width
      blockIf (parameterBits (cell.parameters.get? "INIT") width).isNone "memory_initialization"
        ("INIT is not an exact " ++ toString width ++ "-bit Yosys parameter") src
      let initExpr ← Γ.constant (initBitsOf cell width) src
      pure (some {
        cellName := cellName
        source := src
        cell := cell
        shape := shape
        initBits := initBitsOf cell width
        -- the image is made of constants, so that it is never absent
        initExpr := initExpr.getD (.literal width 0 src)
        initBits_length := initBitsOf_length cell width })

/-- The memory cells of the module, with their names. -/
def memoryEntries (Γ : Setting) : List (String × Cell) :=
  Γ.module.cells.entries.filter fun entry => isMemoryType entry.2.type

/-- The accepted memory cells by name. -/
def prepareMemories (Γ : Setting) : M (Dict String MemoryInfo) :=
  Γ.memoryEntries.foldlM (fun infos entry => do
    match ← Γ.prepareMemory entry.1 entry.2 with
    | some info => pure (infos.set entry.1 info)
    | none => pure infos) Dict.empty

/-- Everything that precedes the first expression. -/
def prepare (Γ : Setting) : M Ctx := do
  let drivers ← Γ.indexDrivers
  Γ.blockAsynchronous
  let memoryCells ← Γ.prepareMemories
  pure { Γ with
    inputs := Γ.inputs
    drivers := drivers
    registers := Γ.registers
    memoryCells := memoryCells }

end Setting

/-! ## Preparation always succeeds -/

namespace PrepareAux

/-- Any state will do. -/
def Any (_ : State) : Prop := True

theorem wp_block {kind detail : String} {source : SourceLocation} {metadata : Option RecordMetadata} {s : State} :
    wp (block kind detail source metadata) (fun _ s' => Any s') s := by
  unfold block
  rw [wp_modify]
  trivial

theorem wp_blockIf {condition : Bool} {kind detail : String} {source : SourceLocation} {s : State} :
    wp (blockIf condition kind detail source) (fun _ s' => Any s') s := by
  unfold blockIf
  cases condition
  · simp [Any]
  · exact wp_block

variable {Γ : Setting} {s : State}

theorem wp_indexDrivers : wp Γ.indexDrivers (fun _ s' => Any s') s := by
  refine wp_foldlM _ (fun driven _ drivers s _ => ?_) trivial
  unfold Setting.indexBit
  rcases driven.1 with id | c
  · by_cases hd : (drivers.get? id).isSome = true <;> simp [hd, Any]
  · simp [Any]

theorem wp_prepareMemory (cellName : String) (cell : Cell) :
    wp (Γ.prepareMemory cellName cell) (fun _ s' => Any s') s := by
  unfold Setting.prepareMemory
  simp only
  split
  · rw [wp_bind]
    exact wp_mono wp_block fun _ _ _ => wp_pure.2 trivial
  · split
    · rw [wp_bind]
      exact wp_mono wp_block fun _ _ _ => wp_pure.2 trivial
    · rename_i shape _
      rw [wp_bind]
      refine wp_mono (wp_forM _ (fun _ _ _ _ => wp_blockIf) trivial) fun _ s₁ _ => ?_
      rw [wp_bind]
      refine wp_mono (wp_forM (I := Any) _ (fun _ _ _ _ => ?_) trivial) fun _ s₂ _ => ?_
      · rw [wp_bind]
        exact wp_mono wp_blockIf fun _ _ _ => wp_blockIf
      rw [wp_bind]
      refine wp_mono wp_blockIf fun _ s₃ _ => ?_
      rw [wp_bind]
      by_cases hc : (initBitsOf cell (shape.size * shape.width)).all Bit.isConst = true
      · rw [constant_eq Γ hc, wp_map, RunsAux.wp_checked]
        simp [Any]
      · rw [constant_eq_none Γ hc]
        simp [Any]

theorem wp_prepareMemories : wp Γ.prepareMemories (fun _ s' => Any s') s := by
  refine wp_foldlM _ (fun entry _ infos s _ => ?_) trivial
  rw [wp_bind]
  refine wp_mono (wp_prepareMemory entry.1 entry.2) fun info s' _ => ?_
  cases info <;> simp [Any]

end PrepareAux

open PrepareAux

/-- Preparation has a result for every module. -/
theorem prepare_isSome (Γ : Setting) : (Γ.prepare State.initial).isSome := by
  refine wp_true_iff.1 ?_
  unfold Setting.prepare
  rw [wp_bind]
  refine wp_mono wp_indexDrivers fun drivers s₁ _ => ?_
  rw [wp_bind]
  refine wp_mono (Q := fun _ s' => Any s') ?_ fun _ s₂ _ => ?_
  · unfold Setting.blockAsynchronous
    simp only
    split
    · exact wp_pure.2 trivial
    · exact wp_block
  rw [wp_bind]
  refine wp_mono wp_prepareMemories fun memoryCells s₃ _ => ?_
  exact wp_pure.2 trivial

namespace Setting

/-- What a module is translated in, once it is prepared. -/
def ctx (Γ : Setting) : Ctx := ((Γ.prepare State.initial).get (prepare_isSome Γ)).1

/-- The state the first expression is translated in. -/
def start (Γ : Setting) : State := ((Γ.prepare State.initial).get (prepare_isSome Γ)).2

theorem prepare_eq (Γ : Setting) : Γ.prepare State.initial = some (Γ.ctx, Γ.start) := by
  rw [ctx, start]
  exact (Option.some_get _).symm

/-- The states a translation of the module goes through between two requests. -/
inductive Reachable (Γ : Setting) : State → Prop
  | start : Reachable Γ Γ.start
  | expr {s s' : State} {fuel : Nat} {bits : List Bit} {src : SourceLocation} {e : Expr} :
    Reachable Γ s → LoomImport.expr Γ.ctx fuel bits src s = some (e, s') → Reachable Γ s'
  | record {s : State} (r : UnsupportedRecord) : Reachable Γ s → Reachable Γ (s.record r)

end Setting

end LoomImport
