import LoomImport.Blocking
import LoomImport.Memories
import LoomImport.Lib.Equations

/-!
# The value a netlist assigns to its nets

A valuation of the nets is consistent with a state when every net has the value of the place it is driven from: a bit of an input
port, of a register, of a child's output, of a memory's read data, or of a combinational cell's simlib value. The unknown bits of a
constant have the value of the rule that claims it. A netlist without cycles in which no net is driven twice has a consistent
valuation for every state.
-/

namespace LoomImport

open ImportIR Words MemoriesAux

/-! ## Vectors -/

namespace Setting

variable (Γ : Setting) (val : Nat → Bool)

/-- The value of a bit of a vector. -/
def bitValue (bits : List Bit) (src : SourceLocation) (bit : Bit) : Bool :=
  match bit with
  | .net id => val id
  | .const value => Bit.filled (Γ.constantFill (Ctx.constantSpan bits (.const value)) src) (.const value)

/-- The word of a vector. -/
def vectorWord (bits : List Bit) (src : SourceLocation) : BitVec bits.length :=
  ofBits bits.length fun i => (bits[i]?.map (Γ.bitValue val bits src)).getD false

/-- The simlib value of a combinational cell. -/
def combWord (cell : Cell) (kind : CombKind) (width : Nat) : BitVec width :=
  let operand := fun port => Γ.vectorWord val (cell.connection port) (Γ.sourceOf cell.src)
  match kind with
  | .unary kind => Simlib.unary kind (cell.shape width) (operand "A")
  | .binary kind => Simlib.binary kind (cell.shape width) (operand "A") (operand "B")
  | .mux => Simlib.mux ((operand "A").setWidth width) ((operand "B").setWidth width) ((operand "S").getLsbD 0)
  | .shiftx => Simlib.shiftx (cell.shape width) (operand "A") (operand "B")

/-- The address of a read port. -/
def addressValue (info : MemoryInfo) (port : Nat) : Nat :=
  (Γ.vectorWord val (portBits (info.cell.connection "RD_ADDR") port info.abits) info.source).toNat

end Setting

/-! ## Places -/

/-- Where a net is driven from: a bit of an input port, or of a cell output. -/
inductive Place where
  | input (name : String) (width offset : Nat)
  | output (driver : Driver)
  deriving DecidableEq

/-- The bits that are driven, with their places. -/
def Setting.places (Γ : Setting) : List (Bit × Place) :=
  (Γ.module.ports.entries.filter fun entry => entry.2.direction = "input").flatMap (fun entry =>
      entry.2.bits.zipIdx.map fun bit => (bit.1, .input entry.1 entry.2.bits.length bit.2)) ++
    Γ.drivenBits.map fun driven => (driven.1, .output driven.2.1)

namespace Setting

variable (Γ : Setting)

/-- No net is driven from two places. -/
def SingleDriven : Prop := (Γ.places.map Prod.fst).Nodup

instance : Decidable Γ.SingleDriven := inferInstanceAs (Decidable (List.Nodup _))

/-- A bit is a constant or a net with a place it is driven from. -/
def IsDriven (bit : Bit) : Prop := bit.isConst = true ∨ bit ∈ Γ.places.map Prod.fst

instance (bit : Bit) : Decidable (Γ.IsDriven bit) := inferInstanceAs (Decidable (_ ∨ _))

/-- Every bit the cells are connected to is driven. -/
def EveryBitDriven : Prop :=
  ∀ entry ∈ Γ.module.cells.entries, ∀ connection ∈ entry.2.connections.entries, ∀ bit ∈ connection.2, Γ.IsDriven bit

instance : Decidable Γ.EveryBitDriven :=
  inferInstanceAs (Decidable (∀ entry ∈ Γ.module.cells.entries, ∀ connection ∈ entry.2.connections.entries,
    ∀ bit ∈ connection.2, Γ.IsDriven bit))

end Setting

namespace Ctx

variable (Γ : Ctx) (σ : Hw.St) (val : Nat → Bool)

/-- The value of a cell output in a state, over the values of the nets. -/
def outputWord (cellName : String) (cell : Cell) (port : String) : BitVec (cell.connection port).length :=
  match Γ.cellSource cellName cell port with
  | .register => σ.regs (Setting.registerName cellName) (cell.connection port).length
  | .child => σ.regs (instanceNet cellName port) (cell.connection port).length
  | .memory info => ofBits (cell.connection port).length fun i =>
      (Γ.readValue info σ (Γ.addressValue val info (i / info.width))).getLsbD (i % info.width)
  | .blocked _ _ => 0
  | .comb kind => Γ.combWord val cell kind (cell.connection port).length

/-- The value of a place. -/
def placeValue : Place → Bool
  | .input name width offset => (σ.regs name width).getLsbD offset
  | .output driver =>
    match Γ.module.cells.get? driver.cellName with
    | none => false
    | some cell => (Γ.outputWord σ val driver.cellName cell driver.port).getLsbD driver.offset

/-- Every net has the value of the places it is driven from. -/
def Consistent : Prop := ∀ id place, (.net id, place) ∈ Γ.places → val id = Γ.placeValue σ val place

/-- A net is read to give another its value. -/
def Feeds (source target : Nat) : Prop :=
  ∃ driver, (.net target, .output driver) ∈ Γ.places ∧
    ∃ operand ∈ Γ.operands (driver.cellName, driver.port), .net source ∈ operand.1

/-- No net is read to give itself its value. -/
def Acyclic : Prop := ∀ id, ¬Relation.TransGen Γ.Feeds id id

end Ctx

namespace ValuationAux

/-! ## What a value looks at -/

section

variable {Γ : Ctx} {σ : Hw.St} {val val' : Nat → Bool}

/-- The word of a vector looks at its nets. -/
theorem vectorWord_congr (Γ : Setting) {bits : List Bit} (h : ∀ id, .net id ∈ bits → val id = val' id)
    (src : SourceLocation) : Γ.vectorWord val bits src = Γ.vectorWord val' bits src := by
  refine ofBits_congr fun i hi => ?_
  rw [List.getElem?_eq_getElem hi, Option.map_some, Option.map_some, Option.getD_some, Option.getD_some]
  have hmem := List.getElem_mem hi
  cases hb : bits[i] with
  | net id => exact h id (hb ▸ hmem)
  | const value => rfl

/-- The value of a combinational cell looks at the nets it reads. -/
theorem combWord_congr (Γ : Setting) {cell : Cell} {kind : CombKind} {width : Nat}
    (h : ∀ port ∈ kind.operandPorts, ∀ id, .net id ∈ cell.connection port → val id = val' id) :
    Γ.combWord val cell kind width = Γ.combWord val' cell kind width := by
  have operand : ∀ port ∈ kind.operandPorts, Γ.vectorWord val (cell.connection port) (Γ.sourceOf cell.src) =
      Γ.vectorWord val' (cell.connection port) (Γ.sourceOf cell.src) :=
    fun port hport => vectorWord_congr Γ (h port hport) _
  unfold Setting.combWord
  cases kind with
  | unary kind => exact congrArg (Simlib.unary kind (cell.shape width)) (operand "A" (by simp [CombKind.operandPorts]))
  | binary kind =>
    exact congrArg₂ (Simlib.binary kind (cell.shape width)) (operand "A" (by simp [CombKind.operandPorts]))
      (operand "B" (by simp [CombKind.operandPorts]))
  | mux =>
    simp only [operand "A" (by simp [CombKind.operandPorts]), operand "B" (by simp [CombKind.operandPorts]),
      operand "S" (by simp [CombKind.operandPorts])]
  | shiftx =>
    exact congrArg₂ (Simlib.shiftx (cell.shape width)) (operand "A" (by simp [CombKind.operandPorts]))
      (operand "B" (by simp [CombKind.operandPorts]))

/-- The value of a cell output looks at the nets of the vectors it calls for. -/
theorem outputWord_congr (key : String × String) {cell : Cell} (hcell : Γ.module.cells.get? key.1 = some cell)
    (h : ∀ operand ∈ Γ.operands key, ∀ id, .net id ∈ operand.1 → val id = val' id) :
    Γ.outputWord σ val key.1 cell key.2 = Γ.outputWord σ val' key.1 cell key.2 := by
  unfold Ctx.outputWord
  cases hc : Γ.cellSource key.1 cell key.2 with
  | register => rfl
  | child => rfl
  | blocked kind detail => rfl
  | comb kind =>
    rw [operands_comb hcell hc] at h
    exact combWord_congr Γ.toSetting fun port hport => h _ (List.mem_map.2 ⟨port, hport, rfl⟩)
  | memory info =>
    rw [operands_memory hcell hc] at h
    refine ofBits_congr fun i _ => ?_
    have haddress : Γ.addressValue val info (i / info.width) = Γ.addressValue val' info (i / info.width) := by
      unfold Setting.addressValue
      rw [vectorWord_congr Γ.toSetting]
      intro id hid
      by_cases hport : i / info.width < info.readPorts
      · exact h _ (List.mem_map.2 ⟨i / info.width, List.mem_range.2 hport, rfl⟩) id hid
      · rw [portBits_of_le info.shape.readAddr_length (Nat.le_of_not_lt hport)] at hid
        cases hid
    rw [haddress]

end

/-! ## Places and drivers -/

section

variable {Γ : Setting}

theorem mem_places_input {name : String} {port : ModulePort} (hentry : (name, port) ∈ Γ.module.ports.entries)
    (hdirection : port.direction = "input") {i : Nat} {bit : Bit} (hbit : port.bits[i]? = some bit) :
    (bit, .input name port.bits.length i) ∈ Γ.places := by
  refine List.mem_append_left _ (List.mem_flatMap.2 ⟨(name, port), List.mem_filter.2 ⟨hentry, decide_eq_true hdirection⟩, ?_⟩)
  exact List.mem_map.2 ⟨(bit, i), List.mem_zipIdx_iff_getElem?.2 hbit, rfl⟩

theorem mem_places_output {cellName : String} {cell : Cell} (hcell : Γ.module.cells.get? cellName = some cell)
    {port : String} (hport : port ∈ cell.outputs) {i : Nat} {bit : Bit} (hbit : (cell.connection port)[i]? = some bit) :
    (bit, .output ⟨cellName, port, i⟩) ∈ Γ.places :=
  List.mem_append_right _ (List.mem_map.2 ⟨_, BlockingAux.mem_drivenBits hcell hport hbit, rfl⟩)

/-- The cell a driven net is driven from. -/
theorem places_output {bit : Bit} {driver : Driver} (h : (bit, .output driver) ∈ Γ.places) :
    ∃ cell, Γ.module.cells.get? driver.cellName = some cell ∧ driver.port ∈ cell.outputs ∧
      (cell.connection driver.port)[driver.offset]? = some bit := by
  rcases List.mem_append.1 h with h | h
  · obtain ⟨entry, -, h⟩ := List.mem_flatMap.1 h
    obtain ⟨pair, -, h⟩ := List.mem_map.1 h
    cases h
  · obtain ⟨driven, hd, heq⟩ := List.mem_map.1 h
    cases heq
    obtain ⟨bit, driver, src⟩ := driven
    obtain ⟨cell, hcell, hport, hget, -⟩ := BlockingAux.drivenBits_mem hd
    exact ⟨cell, hcell, hport, hget⟩

end

end ValuationAux

open ValuationAux

/-! ## A consistent valuation -/

namespace Ctx

variable {Γ : Ctx}

/-- The value of a net, over the values of the nets. -/
def netValue (Γ : Ctx) (σ : Hw.St) (id : Nat) (val : Nat → Bool) : Bool :=
  match Γ.places.lookup (.net id) with
  | none => false
  | some place => Γ.placeValue σ val place

/-- The value of a place of a net looks at the nets that are read to give it. -/
theorem placeValue_congr {σ : Hw.St} {val val' : Nat → Bool} {id : Nat} {place : Place} (hmem : (.net id, place) ∈ Γ.places)
    (h : ∀ source, Γ.Feeds source id → val source = val' source) : Γ.placeValue σ val place = Γ.placeValue σ val' place := by
  cases place with
  | input name width offset => rfl
  | output driver =>
    simp only [placeValue]
    cases hcell : Γ.module.cells.get? driver.cellName with
    | none => rfl
    | some cell =>
      simp only
      rw [outputWord_congr (driver.cellName, driver.port) hcell]
      intro operand ho source hsource
      exact h source ⟨driver, hmem, operand, ho, hsource⟩

/-- The value of a net looks at the nets that are read to give it. -/
theorem netValue_looksBack (Γ : Ctx) (σ : Hw.St) : Equations.LooksBack Γ.Feeds (Γ.netValue σ) := by
  intro id val val' h
  unfold netValue
  cases hplace : Γ.places.lookup (.net id) with
  | none => rfl
  | some place => exact placeValue_congr (Dict.mem_of_lookup hplace) h

/-- The nets that are read by the cell outputs. -/
def readNets (Γ : Ctx) : List Nat :=
  Γ.places.flatMap fun entry =>
    match entry.2 with
    | .input .. => []
    | .output driver => (Γ.operands (driver.cellName, driver.port)).flatMap fun operand =>
        operand.1.filterMap fun bit => match bit with
          | .net id => some id
          | .const _ => none

theorem mem_readNets {source target : Nat} (h : Γ.Feeds source target) : source ∈ Γ.readNets := by
  obtain ⟨driver, hplace, operand, ho, hid⟩ := h
  refine List.mem_flatMap.2 ⟨_, hplace, List.mem_flatMap.2 ⟨operand, ho, ?_⟩⟩
  exact List.mem_filterMap.2 ⟨.net source, hid, rfl⟩

theorem of_mem_readNets {id : Nat} (h : id ∈ Γ.readNets) :
    ∃ key, ∃ operand ∈ Γ.operands key, .net id ∈ operand.1 := by
  obtain ⟨⟨bit, place⟩, -, h⟩ := List.mem_flatMap.1 h
  cases place with
  | input name width offset => cases h
  | output driver =>
    obtain ⟨operand, ho, h⟩ := List.mem_flatMap.1 h
    obtain ⟨source, hsource, heq⟩ := List.mem_filterMap.1 h
    refine ⟨_, operand, ho, ?_⟩
    cases source with
    | net id' =>
      cases heq
      exact hsource
    | const value => cases heq

theorem feeds_wellFounded (h : Γ.Acyclic) : WellFounded Γ.Feeds :=
  Equations.wellFounded Γ.readNets (fun _ _ => mem_readNets) h

/-- A netlist without cycles in which no net is driven twice assigns values to its nets, whatever the state. -/
theorem exists_consistent (hacyclic : Γ.Acyclic) (hsingle : Γ.SingleDriven) (σ : Hw.St) : ∃ val, Γ.Consistent σ val := by
  obtain ⟨val, hval⟩ := Equations.exists_solution (feeds_wellFounded hacyclic) (netValue_looksBack Γ σ)
  refine ⟨val, fun id place hplace => ?_⟩
  rw [hval id, netValue, Dict.lookup_of_mem hsingle hplace]

/-- The values of the nets that are driven are determined. -/
theorem consistent_unique (hacyclic : Γ.Acyclic) (hsingle : Γ.SingleDriven) {σ : Hw.St} {val val' : Nat → Bool}
    (h : Γ.Consistent σ val) (h' : Γ.Consistent σ val')
    (hread : ∀ id ∈ Γ.readNets, .net id ∈ Γ.places.map Prod.fst) {id : Nat} (hid : .net id ∈ Γ.places.map Prod.fst) :
    val id = val' id := by
  induction id using (feeds_wellFounded hacyclic).induction with
  | _ id ih =>
    obtain ⟨⟨bit, place⟩, hplace, hbit⟩ := List.mem_map.1 hid
    simp only at hbit
    subst hbit
    have hvalue : ∀ {v}, Γ.Consistent σ v → v id = Γ.netValue σ id v := by
      intro v hv
      rw [hv id place hplace, netValue, Dict.lookup_of_mem hsingle hplace]
    rw [hvalue h, hvalue h']
    exact netValue_looksBack Γ σ id val val' fun source hs => ih source hs (hread source (mem_readNets hs))

end Ctx

end LoomImport
