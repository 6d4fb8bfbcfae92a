import LoomImport.Designs
import LoomImport.RegisterExactness
import LoomImport.Translate
import LoomImport.WriteExactness

/-!
# The cycles of a netlist

A netlist holds the contents of its registers and of its memories. In a cycle the inputs and the contents give the nets their values,
and the values of the nets give the outputs and the next contents. Nothing is said of what power-up values leave open, nor of
registers with an asynchronous reset. This is what a translated module is compared with; it is not what the adapter computes.
-/

namespace LoomImport

open Words ValuationAux

/-- The contents of the registers and of the memories, by cell. -/
structure NetState where
  registers : String → (w : Nat) → BitVec w
  memories : String → Nat → (w : Nat) → BitVec w

namespace Ctx

variable (Γ : Ctx)

/-- The contents of a netlist and its inputs, under the names the nets are given values by. -/
def view (n : NetState) (ι : Hw.InEnv) : Hw.St where
  regs := fun name w =>
    match Γ.sequentialCells.find? fun entry => Setting.registerName entry.1 = name with
    | some entry => n.registers entry.1 w
    | none => ι name w
  mems := fun name a w =>
    match Γ.writableMemories.find? fun info => info.loomName = name with
    | some info => n.memories info.cellName a w
    | none => 0

/-- The power-up values that are known: those of the `init` attributes, and the known bits of the images. -/
structure PowersUp (n : NetState) : Prop where
  registers : ∀ entry ∈ Γ.sequentialCells, ∀ i id b, (entry.2.1.connection "Q")[i]? = some (.net id) → (id, b) ∈ Γ.initBits →
    (n.registers entry.1 entry.2.1.registerWidth).getLsbD i = b
  memories : ∀ info ∈ Γ.writableMemories, ∀ a < info.size, ∀ i < info.width, ∀ bit, info.initBits[a * info.width + i]? = some bit →
    bit.isKnown = true → (n.memories info.cellName a info.width).getLsbD i = bit.isOne

/-! ## One cycle -/

variable (val : Nat → Bool)

/-- The word of a vector at a width. -/
def wordAt (bits : List Bit) (src : SourceLocation) (w : Nat) : BitVec w := (Γ.vectorWord val bits src).setWidth w

/-- The values of the inputs of a sequential cell. -/
def registerValues (cell : Cell) : RegisterValues cell.registerWidth where
  data := Γ.wordAt val (cell.connection "D") (Γ.sourceOf cell.src) cell.registerWidth
  enable := Γ.wordAt val (cell.connection "EN") (Γ.sourceOf cell.src) 1
  reset := Γ.wordAt val (cell.connection "SRST") (Γ.sourceOf cell.src) 1

/-- What a sequential cell moves to, for a reset value. -/
def nextRegister (n : NetState) (cellName : String) (cell : Cell) (kind : SequentialKind) (resetValue : BitVec cell.registerWidth) :
    BitVec cell.registerWidth :=
  kind.next (n.registers cellName cell.registerWidth) (Γ.registerValues val cell).data resetValue
    (isActive (cell.polarity "EN_POLARITY") (Γ.registerValues val cell).enable)
    (isActive (cell.polarity "SRST_POLARITY") (Γ.registerValues val cell).reset)

/-- The values of a write port. -/
def portValue (info : MemoryInfo) (port : Nat) : PortValue info where
  address := Γ.wordAt val (portBits (info.cell.connection "WR_ADDR") port info.abits) info.source info.abits
  enable := Γ.wordAt val (portBits (info.cell.connection "WR_EN") port info.width) info.source info.width
  data := Γ.wordAt val (portBits (info.cell.connection "WR_DATA") port info.width) info.source info.width

/-- The words of a memory after its write ports. -/
def nextMemory (n : NetState) (info : MemoryInfo) : Nat → BitVec info.width :=
  sourceWrites ((List.range info.writePorts).map (Γ.portValue val info)) fun a => n.memories info.cellName a info.width

/-- A next value of a sequential cell. A reset value that `SRST_VALUE` leaves open is any word. -/
def MovesTo (n : NetState) (entry : String × Cell × SequentialKind) (v : BitVec entry.2.1.registerWidth) : Prop :=
  ∃ resetValue, (entry.2.2.hasSyncReset = true → ∀ known ∈ entry.2.1.resetValue?, resetValue = known) ∧
    v = Γ.nextRegister val n entry.1 entry.2.1 entry.2.2 resetValue

/-- The contents after a cycle: those of the registers without an asynchronous reset, and those of the memories. -/
structure Moves (n n' : NetState) : Prop where
  registers : ∀ entry ∈ Γ.sequentialCells, entry.2.2.hasAsyncReset = false →
    Γ.MovesTo val n entry (n'.registers entry.1 entry.2.1.registerWidth)
  memories : ∀ info ∈ Γ.writableMemories, ∀ a < info.size, n'.memories info.cellName a info.width = Γ.nextMemory val n info a

/-- What a cycle moves from is what the cells hold. -/
theorem Moves.congr {Γ : Ctx} {val : Nat → Bool} {n₁ n n' : NetState} (h : Γ.Moves val n₁ n')
    (hregisters : ∀ entry ∈ Γ.sequentialCells,
      n₁.registers entry.1 entry.2.1.registerWidth = n.registers entry.1 entry.2.1.registerWidth)
    (hmemories : n₁.memories = n.memories) : Γ.Moves val n n' where
  registers entry hentry hasync := by
    obtain ⟨resetValue, hreset, hnext⟩ := h.registers entry hentry hasync
    refine ⟨resetValue, hreset, ?_⟩
    rw [hnext]
    unfold nextRegister
    rw [hregisters entry hentry]
  memories info hinfo a ha := by
    rw [h.memories info hinfo a ha]
    unfold nextMemory
    rw [hmemories]

/-- The outputs of a cycle. -/
def observed : Hw.Observation :=
  (Γ.module.ports.entries.filter fun entry => entry.2.direction = "output").map fun entry =>
    (entry.1, ⟨entry.2.bits.length, Γ.vectorWord val entry.2.bits (Γ.sourceForBits entry.2.bits)⟩)

/-- A netlist as a machine. -/
def netlist : Machines.Machine Hw.InEnv Hw.Observation where
  State := NetState
  Init := Γ.PowersUp
  Step n ι outputs n' := ∃ val, Γ.Consistent (Γ.view n ι) val ∧ Γ.Moves val n n' ∧ outputs = Γ.observed val

/-! ## What the nets look at -/

/-- Two states give the inputs and the contents of the cells the same values. -/
structure Agree (σ τ : Hw.St) : Prop where
  inputs : ∀ entry ∈ Γ.module.ports.entries, entry.2.direction = "input" →
    σ.regs entry.1 entry.2.bits.length = τ.regs entry.1 entry.2.bits.length
  registers : ∀ entry ∈ Γ.sequentialCells, σ.regs (Setting.registerName entry.1) entry.2.1.registerWidth =
    τ.regs (Setting.registerName entry.1) entry.2.1.registerWidth
  memories : ∀ info ∈ Γ.writableMemories, ∀ a < info.size, σ.mems info.loomName a info.width = τ.mems info.loomName a info.width

end Ctx

namespace NetlistAux

open SoundnessAux

variable {Γ : Ctx} {s₀ : State} {σ τ : Hw.St} {val : Nat → Bool}

/-- A port of an input place. -/
theorem places_input {bit : Bit} {name : String} {width offset : Nat} (h : (bit, .input name width offset) ∈ Γ.places) :
    ∃ port, (name, port) ∈ Γ.module.ports.entries ∧ port.direction = "input" ∧ port.bits.length = width := by
  rcases List.mem_append.1 h with h | h
  · obtain ⟨entry, hentry, h⟩ := List.mem_flatMap.1 h
    obtain ⟨pair, -, heq⟩ := List.mem_map.1 h
    cases heq
    obtain ⟨hentry, hdirection⟩ := List.mem_filter.1 hentry
    exact ⟨entry.2, hentry, of_decide_eq_true hdirection, rfl⟩
  · obtain ⟨driven, -, heq⟩ := List.mem_map.1 h
    cases heq

/-- An accepted memory with write ports. -/
theorem mem_writable {name : String} {info : MemoryInfo} (h : Γ.memoryCells.get? name = some info) (hw : info.writePorts ≠ 0) :
    info ∈ Γ.writableMemories :=
  List.mem_filter.2 ⟨List.mem_map.2 ⟨(name, info), Dict.mem_entries_of_get? h, rfl⟩, decide_eq_true hw⟩

/-- States that agree give a place of a plain module without children the same value. -/
theorem placeValue_congr (hp : Γ.Plain) (hchild : Γ.childCells = []) (h : Γ.Agree σ τ) {bit : Bit} {place : Place}
    (hplace : (bit, place) ∈ Γ.places) : Γ.placeValue σ val place = Γ.placeValue τ val place := by
  cases place with
  | input name width offset =>
    obtain ⟨port, hentry, hdirection, rfl⟩ := places_input hplace
    simp only [Ctx.placeValue, h.inputs (name, port) hentry hdirection]
  | output driver =>
    obtain ⟨cell, hcell, hport, -⟩ := places_output hplace
    simp only [Ctx.placeValue, hcell]
    suffices hword : Γ.outputWord σ val driver.cellName cell driver.port = Γ.outputWord τ val driver.cellName cell driver.port by
      rw [hword]
    unfold Ctx.outputWord
    cases hc : Γ.cellSource driver.cellName cell driver.port with
    | register =>
      have hkind : (sequentialKind? cell.type).isSome = true := Ctx.cellSource_of_eq hc
      obtain ⟨kind, hkind'⟩ := Option.isSome_iff_exists.1 hkind
      have hplain := hp.1 _ (Dict.mem_entries_of_get? hcell)
      rw [Setting.plainCell, Bool.and_eq_true, if_pos hkind] at hplain
      have hQ : driver.port = "Q" := by
        have houtputs : cell.outputs = ["Q"] := of_decide_eq_true hplain.2
        rw [houtputs] at hport
        exact List.mem_singleton.1 hport
      rw [hQ]
      exact h.registers (driver.cellName, cell, kind) (mem_sequentialCells.2 ⟨hcell, hkind'⟩)
    | child =>
      have htype : cell.type ∈ Γ.modules := Ctx.cellSource_of_eq hc
      have hmem : (driver.cellName, cell) ∈ Γ.childCells :=
        List.mem_filter.2 ⟨Dict.mem_entries_of_get? hcell, decide_eq_true htype⟩
      rw [hchild] at hmem
      cases hmem
    | memory info =>
      obtain ⟨-, -, hinfo⟩ := Ctx.cellSource_of_eq hc
      refine ofBits_congr fun i _ => ?_
      have hvalue : ∀ address, Γ.readValue info σ address = Γ.readValue info τ address := by
        intro address
        unfold Setting.readValue Setting.memoryWord
        by_cases hin : address < info.size
        · by_cases hw : info.writePorts = 0
          · simp only [if_pos hw]
          · simp only [if_neg hw, if_pos hin, h.memories info (mem_writable hinfo hw) address hin]
        · simp only [if_neg hin]
      rw [hvalue]
    | blocked kind detail => rfl
    | comb kind => rfl

/-- Valuations that are consistent with a state are consistent with those that agree. -/
theorem consistent_congr (hp : Γ.Plain) (hchild : Γ.childCells = []) (h : Γ.Agree σ τ) (hval : Γ.Consistent σ val) :
    Γ.Consistent τ val := by
  intro id place hplace
  rw [hval id place hplace, placeValue_congr hp hchild h hplace]

end NetlistAux

end LoomImport
