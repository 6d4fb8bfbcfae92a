import LoomImport.Joining
import LoomImport.Valuation

/-!
# What a translation denotes

Over a module whose cells are of the plain types, the expression of a vector denotes the word a consistent valuation gives the
vector, unless a memory that is not addressable is read on the way; and then it does not lower. Both are properties of every run
that has recorded no blocker.
-/

namespace LoomImport

open ImportIR Words StateOption ValuationAux

/-! ## Plain modules -/

/-- The combinational cells that are neither shifts nor divisions, with operands of one signedness and of the widths their type
asks for. -/
def CombKind.isPlain (kind : CombKind) (cell : Cell) : Bool :=
  match kind with
  | .unary _ => true
  | .binary kind => kind.isPlain && cell.flag "A_SIGNED" = cell.flag "B_SIGNED"
  | .mux => (cell.connection "A").length = (cell.connection "Y").length &&
      (cell.connection "B").length = (cell.connection "Y").length && (cell.connection "S").length = 1
  | .shiftx => false

namespace Setting

/-- A cell of a supported type other than the shifts and the divisions, which drives nets from the outputs of its type. -/
def plainCell (Γ : Setting) (cell : Cell) : Bool :=
  cell.outputs.all (fun port => (cell.connection port).all fun bit => !bit.isConst) &&
    if (sequentialKind? cell.type).isSome then cell.outputs = ["Q"]
    else if cell.type ∈ Γ.modules then true
    else if cell.type = "$mem_v2" then cell.outputs = ["RD_DATA"]
    else match supportedComb? cell.type with
      | none => false
      | some kind => cell.outputs = ["Y"] && kind.isPlain cell

/-- An input port with a name, of nets. -/
def plainPort (entry : String × ModulePort) : Bool :=
  entry.2.direction ≠ "input" || (entry.1 ≠ "" && entry.2.bits.all fun bit => !bit.isConst)

/-- Every cell and every input port of the module is plain. -/
def Plain (Γ : Setting) : Prop :=
  (∀ entry ∈ Γ.module.cells.entries, Γ.plainCell entry.2 = true) ∧
    ∀ entry ∈ Γ.module.ports.entries, plainPort entry = true

instance (Γ : Setting) : Decidable Γ.Plain := inferInstanceAs (Decidable (_ ∧ _))

end Setting

/-! ## Addressable cones -/

namespace Ctx

/-- A vector is taken from a memory that is not addressable. -/
def Unaddressable (Γ : Ctx) (bits : List Bit) : Prop :=
  ∃ key cell info, (Γ.route bits).output? = some key ∧ Γ.module.cells.get? key.1 = some cell ∧
    Γ.cellSource key.1 cell key.2 = .memory info ∧ ¬info.Addressable

/-- Every memory that is read for a vector is addressable. -/
def AddressableCone (Γ : Ctx) (bits : List Bit) : Prop := Avoiding.Clear Γ.Call Γ.Unaddressable [] bits

/-- Every memory that is read for a cell output is addressable. -/
def AddressableOutput (Γ : Ctx) (key : String × String) : Prop :=
  (∀ cell info, Γ.module.cells.get? key.1 = some cell → Γ.cellSource key.1 cell key.2 = .memory info → info.Addressable) ∧
    ∀ operand ∈ Γ.operands key, Γ.AddressableCone operand.1

end Ctx

namespace SoundnessAux

variable {Γ : Ctx} {bits : List Bit}

theorem addressable_leaf (h : (Γ.route bits).output? = none ∧ Γ.route bits ≠ .split) : Γ.AddressableCone bits := by
  refine Avoiding.clear_intro ?_ ?_
  · rintro ⟨key, cell, info, hkey, -⟩
    rw [h.1] at hkey
    cases hkey
  · rintro bits' ⟨label, hcall, -⟩
    cases hcall with
    | output hkey => rw [h.1] at hkey; cases hkey
    | split hr => exact absurd hr h.2

theorem addressable_output {key : String × String} (h : (Γ.route bits).output? = some key) :
    Γ.AddressableCone bits ↔ Γ.AddressableOutput key := by
  constructor
  · intro hclear
    refine ⟨fun cell info hcell hc => ?_, fun operand ho => ?_⟩
    · exact Classical.byContradiction fun hno => hclear.not_bad ⟨key, cell, info, h, hcell, hc, hno⟩
    · exact hclear.step ⟨some key, Ctx.Call.output h ho, fun _ _ => List.not_mem_nil⟩
  · rintro ⟨hmemory, hops⟩
    refine Avoiding.clear_intro ?_ ?_
    · rintro ⟨key', cell, info, hkey', hcell, hc, hno⟩
      rw [h] at hkey'
      cases hkey'
      exact hno (hmemory cell info hcell hc)
    · rintro bits' ⟨label, hcall, -⟩
      cases hcall with
      | output hkey' ho =>
        rw [h] at hkey'
        cases hkey'
        exact hops _ ho
      | split hr =>
        rw [hr] at h
        cases h

theorem addressable_split (h : Γ.route bits = .split) :
    Γ.AddressableCone bits ↔ ∀ bit ∈ bits, Γ.AddressableCone [bit] := by
  constructor
  · exact fun hclear bit hbit => hclear.step ⟨none, Ctx.Call.split h hbit, fun _ hk => nomatch hk⟩
  · intro hall
    refine Avoiding.clear_intro ?_ ?_
    · rintro ⟨key, cell, info, hkey, -⟩
      rw [h] at hkey
      cases hkey
    · rintro bits' ⟨label, hcall, -⟩
      cases hcall with
      | output hkey => rw [h] at hkey; cases hkey
      | split _ hbit => exact hall _ hbit

/-- A cell output that is no memory's. -/
theorem addressable_of_operands {key : String × String} {cell : Cell} (hcell : Γ.module.cells.get? key.1 = some cell)
    (hc : ∀ info, Γ.cellSource key.1 cell key.2 ≠ .memory info) :
    Γ.AddressableOutput key ↔ ∀ operand ∈ Γ.operands key, Γ.AddressableCone operand.1 := by
  refine and_iff_right fun cell' info hcell' hc' => ?_
  rw [hcell] at hcell'
  cases hcell'
  exact absurd hc' (hc info)

/-! ## Named vectors -/

/-- The input vectors, over the input ports alone. -/
theorem inputs_eq_foldl (Γ : Setting) : Γ.inputs =
    (Γ.module.ports.entries.filter fun entry => entry.2.direction = "input").foldl
      (fun inputs entry => inputs.set entry.2.bits entry.1) Dict.empty := by
  rw [List.foldl_filter]
  simp only [decide_eq_true_eq]
  rfl

/-- The vectors of the input ports. -/
theorem inputs_mem {Γ : Setting} {vector : List Bit} {name : String} (h : Γ.inputs.get? vector = some name) :
    ∃ port, (name, port) ∈ Γ.module.ports.entries ∧ port.direction = "input" ∧ port.bits = vector := by
  rw [inputs_eq_foldl] at h
  rcases Dict.get?_foldl_set h with h | ⟨⟨name', port⟩, hmem, hbits, hname⟩
  · cases h
  · obtain ⟨hentry, hdirection⟩ := List.mem_filter.1 hmem
    simp only at hname
    subst hname
    exact ⟨port, hentry, of_decide_eq_true hdirection, hbits⟩

theorem inputs_isSome {Γ : Setting} {entry : String × ModulePort} (hentry : entry ∈ Γ.module.ports.entries)
    (hdirection : entry.2.direction = "input") : (Γ.inputs.get? entry.2.bits).isSome = true := by
  rw [inputs_eq_foldl]
  exact Dict.isSome_get?_foldl_set (Or.inr ⟨entry, List.mem_filter.2 ⟨hentry, decide_eq_true hdirection⟩, rfl⟩)

theorem mem_sequentialCells {Γ : Setting} {entry : String × Cell × SequentialKind} :
    entry ∈ Γ.sequentialCells ↔
      Γ.module.cells.get? entry.1 = some entry.2.1 ∧ sequentialKind? entry.2.1.type = some entry.2.2 := by
  obtain ⟨name, cell, kind⟩ := entry
  simp only [Setting.sequentialCells, List.mem_filterMap, Option.map_eq_some_iff, Dict.get?_eq_some_iff]
  constructor
  · rintro ⟨⟨name', cell'⟩, hmem, kind', hkind, heq⟩
    cases heq
    exact ⟨hmem, hkind⟩
  · rintro ⟨hmem, hkind⟩
    exact ⟨(name, cell), hmem, kind, hkind, rfl⟩

/-- The vectors of the registers. -/
theorem registers_mem {Γ : Setting} {vector : List Bit} {name : String} (h : Γ.registers.get? vector = some name) :
    ∃ cellName cell, Γ.module.cells.get? cellName = some cell ∧ (sequentialKind? cell.type).isSome = true ∧
      cell.connection "Q" = vector ∧ Setting.registerName cellName = name := by
  rcases Dict.get?_foldl_set h with h | ⟨⟨cellName, cell, kind⟩, hmem, hbits, hname⟩
  · cases h
  · obtain ⟨hcell, hkind⟩ := mem_sequentialCells.1 hmem
    exact ⟨cellName, cell, hcell, Option.isSome_of_eq_some hkind, hbits, hname⟩

theorem registers_isSome {Γ : Setting} {cellName : String} {cell : Cell} (hcell : Γ.module.cells.get? cellName = some cell)
    (hkind : (sequentialKind? cell.type).isSome = true) : (Γ.registers.get? (cell.connection "Q")).isSome = true := by
  obtain ⟨kind, hkind⟩ := Option.isSome_iff_exists.1 hkind
  exact Dict.isSome_get?_foldl_set (Or.inr ⟨(cellName, cell, kind), mem_sequentialCells.2 ⟨hcell, hkind⟩, rfl⟩)

/-! ## Words of nets -/

section

variable {σ : Hw.St} {val : Nat → Bool}

theorem not_const_net {bit : Bit} (h : bit.isConst = false) : ∃ id, bit = .net id := by
  cases bit with
  | net id => exact ⟨id, rfl⟩
  | const value => cases h

/-- A vector of nets is the word that has their values. -/
theorem vectorWord_eq {Γ : Setting} {src : SourceLocation} (hnets : ∀ bit ∈ bits, bit.isConst = false)
    {v : BitVec bits.length} (hv : ∀ {i id}, bits[i]? = some (.net id) → val id = v.getLsbD i) :
    Γ.vectorWord val bits src = v := by
  apply BitVec.eq_of_getLsbD_eq
  intro i hi
  obtain ⟨id, hid⟩ := not_const_net (hnets _ (List.getElem_mem hi))
  have hget : bits[i]? = some (.net id) := by rw [List.getElem?_eq_getElem hi, hid]
  rw [Setting.vectorWord, getLsbD_ofBits, decide_eq_true hi, hget]
  exact hv hget

/-- A single net is one bit. -/
theorem vectorWord_net (Γ : Setting) (id : Nat) (src : SourceLocation) :
    Γ.vectorWord val [.net id] src = BitVec.ofBool (val id) := by
  refine vectorWord_eq (fun bit hbit => ?_) fun {i id'} hget => ?_
  · rw [List.mem_singleton] at hbit
    rw [hbit]
    rfl
  · cases i with
    | zero =>
      cases hget
      simp
    | succ i => cases hget

/-- A vector is one of a named place: it has a name, and its nets have the bits of that name. -/
structure Named (σ : Hw.St) (val : Nat → Bool) (vector : List Bit) (name : String) : Prop where
  name_ne : name.isEmpty = false
  nets : ∀ bit ∈ vector, bit.isConst = false
  value : ∀ {i id}, vector[i]? = some (.net id) → val id = (σ.regs name vector.length).getLsbD i

/-- A named vector, or a single net of one, denotes its word. -/
theorem vectorAlias_denotes {Γ : Setting} {aliases : Dict (List Bit) String} {src : SourceLocation} {e : Expr}
    (hnamed : ∀ {vector name}, aliases.get? vector = some name → Named σ val vector name) (hne : bits ≠ [])
    (h : vectorAlias bits aliases src = some e) : Denotes σ e (Γ.vectorWord val bits src) := by
  unfold vectorAlias at h
  cases hget : aliases.get? bits with
  | some name =>
    rw [hget] at h
    cases h
    have hn := hnamed hget
    rw [vectorWord_eq hn.nets hn.value]
    exact Denotes.signal (List.length_pos_iff.2 hne) hn.name_ne src
  | none =>
    rw [hget] at h
    simp only at h
    split at h
    · rename_i id
      obtain ⟨⟨vector, name⟩, hentry, hsome⟩ := List.exists_of_findSome?_eq_some h
      split at hsome
      · rename_i hmem
        cases hsome
        have hn := hnamed (Dict.get?_of_mem hentry)
        have hpos : 0 < vector.length := List.length_pos_of_mem hmem
        have hidx : vector.idxOf (.net id) < vector.length := List.idxOf_lt_length_of_mem hmem
        have hat : vector[vector.idxOf (.net id)]? = some (.net id) := by
          rw [List.getElem?_eq_getElem hidx, List.getElem_idxOf hidx]
        rw [vectorWord_net, hn.value hat, ← extractLsb'_one]
        have hfit : vector.idxOf (.net id) + 1 ≤ vector.length := hidx
        exact (Denotes.signal hpos hn.name_ne src).sliceExpr Nat.one_pos hfit src
      · cases hsome
    · cases h

end

/-! ## The expressions of vectors and of cell outputs -/

/-- The expression of a vector: it denotes the word of the vector when its cone is addressable, and lowers only then. -/
structure VectorExact (Γ : Ctx) (σ : Hw.St) (val : Nat → Bool) (bits : List Bit) (src : SourceLocation) (e : Expr) : Prop where
  denotes : Γ.AddressableCone bits → Denotes σ e (Γ.vectorWord val bits src)
  lowers : Lowers e → Γ.AddressableCone bits

/-- The expression of a cell output, for an output of the cell that has bits. -/
structure OutputExact (Γ : Ctx) (σ : Hw.St) (val : Nat → Bool) (key : String × String) (cell : Cell) (e : Expr) : Prop where
  denotes : Γ.AddressableOutput key → Denotes σ e (Γ.outputWord σ val key.1 cell key.2)
  lowers : Lowers e → Γ.AddressableOutput key

/-- A cell output of the module that has bits. -/
structure Asked (Γ : Ctx) (key : String × String) (cell : Cell) : Prop where
  cell_eq : Γ.module.cells.get? key.1 = some cell
  output : key.2 ∈ cell.outputs
  bits_ne : cell.connection key.2 ≠ []

section

variable {σ : Hw.St} {val : Nat → Bool} {src : SourceLocation}

/-- A vector that calls for nothing. -/
theorem exact_leaf {e : Expr} (h : (Γ.route bits).output? = none ∧ Γ.route bits ≠ .split)
    (he : Denotes σ e (Γ.vectorWord val bits src)) : VectorExact Γ σ val bits src e :=
  ⟨fun _ => he, fun _ => addressable_leaf h⟩

/-- A vector of constants. -/
theorem exact_constant (hr : Γ.route bits = .constant) (hok : Γ.constantOk bits src = true) :
    VectorExact Γ σ val bits src (Γ.constantExpr bits src) := by
  obtain ⟨hne, hconst⟩ := Ctx.route_of_eq hr
  refine exact_leaf (by rw [hr]; exact ⟨rfl, by decide⟩) ?_
  have hword : Γ.vectorWord val bits src = Γ.constantWord bits src := by
    refine ofBits_congr fun i hi => ?_
    rw [List.getElem?_eq_getElem hi, Option.map_some, Option.map_some, Option.getD_some, Option.getD_some]
    have hbit := List.all_eq_true.1 hconst _ (List.getElem_mem hi)
    cases hb : bits[i] with
    | net id =>
      rw [hb] at hbit
      cases hbit
    | const value =>
      have hspan : Ctx.constantSpan bits (.const value) = bits := if_pos hconst
      rw [Setting.bitValue, hspan]
  rw [hword]
  exact constantExpr_denotes Γ.toSetting hne hconst hok

/-- Joined parts are within the whole. -/
theorem within_joinParts {es : List Expr} {e part : Expr} (he : joinParts src es = some e) (hpart : part ∈ es) :
    Within part e := by
  cases es with
  | nil => cases hpart
  | cons first rest =>
    cases he
    refine LoweringAux.within_concatParts ?_
    rcases List.mem_cons.1 hpart with rfl | hpart
    · exact Or.inl Within.refl
    · exact Or.inr hpart

/-- A vector that is split, over the expressions of its bits. -/
theorem exact_split (hr : Γ.route bits = .split) {es : List Expr} {e : Expr}
    (hes : List.Forall₂ (fun bit part => VectorExact Γ σ val [bit] src part) bits.reverse es)
    (he : joinParts src es = some e) : VectorExact Γ σ val bits src e := by
  obtain ⟨hne, hconst, -⟩ := Ctx.route_of_eq hr
  have hword : ∀ bit ∈ bits, Γ.vectorWord val [bit] src = BitVec.ofBool (Γ.bitValue val bits src bit) := by
    intro bit _
    cases bit with
    | net id => exact vectorWord_net Γ.toSetting id src
    | const value =>
      have hspan : Ctx.constantSpan bits (.const value) = [.const value] := if_neg (by rw [hconst]; decide)
      have hspan' : Ctx.constantSpan [.const value] (.const value) = [.const value] := by
        unfold Ctx.constantSpan
        split <;> rfl
      have hvalue : Γ.bitValue val [.const value] src (.const value) = Γ.bitValue val bits src (.const value) := by
        simp only [Setting.bitValue, hspan, hspan']
      rw [← hvalue]
      apply BitVec.eq_of_getLsbD_eq
      intro i hi
      have hzero : i = 0 := by simpa using hi
      subst hzero
      rw [Setting.vectorWord, getLsbD_ofBits]
      simp
  constructor
  · intro hcone
    rw [addressable_split hr] at hcone
    refine JoiningAux.joinBits_denotes ?_ he
    have hbits := (List.forall₂_and_left bits.reverse es).2 ⟨fun bit hbit => List.mem_reverse.1 hbit, hes⟩
    refine hbits.imp fun bit part ⟨hbit, hexact⟩ => ?_
    rw [← hword bit hbit]
    exact hexact.denotes (hcone bit hbit)
  · intro hlow
    rw [addressable_split hr]
    intro bit hbit
    obtain ⟨part, hpart, hexact⟩ := exists_of_forall₂ hes (List.mem_reverse.2 hbit)
    exact hexact.lowers (hlow.within (within_joinParts he hpart))

/-! ## Names -/

theorem registerName_ne (cellName : String) : (Setting.registerName cellName).isEmpty = false := by
  rw [← Bool.not_eq_true, String.isEmpty_iff]
  intro h
  have hlen := congrArg String.length h
  rw [Setting.registerName, String.length_append] at hlen
  simp at hlen

theorem instanceNet_ne (cellName port : String) : (instanceNet cellName port).isEmpty = false := by
  rw [← Bool.not_eq_true, String.isEmpty_iff]
  intro h
  have hlen := congrArg String.length h
  simp only [instanceNet, String.length_append] at hlen
  simp at hlen

/-- The branch of a sequential cell. -/
theorem cellSource_register {cellName : String} {cell : Cell} {port : String}
    (h : (sequentialKind? cell.type).isSome = true) : Γ.cellSource cellName cell port = .register := by
  unfold Ctx.cellSource
  rw [if_pos h]

/-- A cell output that calls for nothing. -/
theorem addressable_of_leaf {key : String × String} {cell : Cell} (hcell : Γ.module.cells.get? key.1 = some cell)
    (hc : ∀ info, Γ.cellSource key.1 cell key.2 ≠ .memory info) (hc' : ∀ kind, Γ.cellSource key.1 cell key.2 ≠ .comb kind) :
    Γ.AddressableOutput key := by
  rw [addressable_of_operands hcell hc, operands_leaf hcell hc hc']
  intro operand ho
  cases ho

/-! ## Vectors taken from cell outputs -/

section

variable {s₀ : State}

/-- A prepared plain module with the values of its nets in a state. -/
structure Valuated (Γ : Ctx) (s₀ : State) (σ : Hw.St) (val : Nat → Bool) : Prop where
  prepared : Prepared Γ.toSetting Γ s₀
  plain : Γ.Plain
  consistent : Γ.Consistent σ val

namespace Valuated

/-- The outputs of the cells are nets. -/
theorem output_nets (h : Valuated Γ s₀ σ val) {key : String × String} {cell : Cell} (ha : Asked Γ key cell) :
    ∀ bit ∈ cell.connection key.2, bit.isConst = false := by
  have hcell := h.plain.1 _ (Dict.mem_entries_of_get? ha.cell_eq)
  rw [Setting.plainCell, Bool.and_eq_true] at hcell
  have hport := List.all_eq_true.1 hcell.1 _ ha.output
  intro bit hbit
  have h := List.all_eq_true.1 hport bit hbit
  simpa using h

/-- The nets of a cell output have the bits of its word. -/
theorem output_value (h : Valuated Γ s₀ σ val) {key : String × String} {cell : Cell} (ha : Asked Γ key cell) {i id : Nat}
    (hid : (cell.connection key.2)[i]? = some (.net id)) :
    val id = (Γ.outputWord σ val key.1 cell key.2).getLsbD i := by
  rw [h.consistent id _ (mem_places_output ha.cell_eq ha.output hid)]
  simp only [Ctx.placeValue, ha.cell_eq]

/-- The word of a cell output is the word of its nets. -/
theorem vectorWord_output (h : Valuated Γ s₀ σ val) {key : String × String} {cell : Cell} (ha : Asked Γ key cell)
    (src : SourceLocation) :
    Γ.vectorWord val (cell.connection key.2) src = Γ.outputWord σ val key.1 cell key.2 :=
  vectorWord_eq (h.output_nets ha) (h.output_value ha)

/-- A vector that is a whole cell output. -/
theorem exact_output (h : Valuated Γ s₀ σ val) {key : String × String} (hr : Γ.route bits = .output key) {e : Expr}
    (he : ∀ cell, Asked Γ key cell → OutputExact Γ σ val key cell e) : VectorExact Γ σ val bits src e := by
  obtain ⟨hconst, hexact⟩ := Ctx.route_of_eq hr
  obtain ⟨cell, hcell, hport, rfl⟩ := BlockingAux.exactDriver_eq hexact
  have ha : Asked Γ key cell := ⟨hcell, hport, fun hnil => by rw [hnil] at hconst; cases hconst⟩
  have hkey : (Γ.route (cell.connection key.2)).output? = some key := by rw [hr]; rfl
  constructor
  · intro hcone
    rw [h.vectorWord_output ha]
    exact (he cell ha).denotes ((addressable_output hkey).1 hcone)
  · exact fun hlow => (addressable_output hkey).2 ((he cell ha).lowers hlow)

/-- A net that is a bit of a cell output. -/
theorem exact_bit (h : Valuated Γ s₀ σ val) {driver : Driver} (hr : Γ.route bits = .bit driver) {e : Expr}
    (he : ∀ cell, Asked Γ (driver.cellName, driver.port) cell → OutputExact Γ σ val (driver.cellName, driver.port) cell e) :
    VectorExact Γ σ val bits src (sliceExpr e driver.offset 1 src) := by
  obtain ⟨id, rfl, hdriver⟩ := BlockingAux.bitDriver_eq (Ctx.route_of_eq hr)
  obtain ⟨file, hmem⟩ := h.prepared.driver_mem hdriver
  obtain ⟨cell, hcell, hport, hget, -⟩ := BlockingAux.drivenBits_mem hmem
  have hfit : driver.offset + 1 ≤ (cell.connection driver.port).length := (List.getElem?_eq_some_iff.1 hget).1
  have ha : Asked Γ (driver.cellName, driver.port) cell :=
    ⟨hcell, hport, fun hnil => by rw [hnil] at hget; cases hget⟩
  have hkey : (Γ.route [.net id]).output? = some (driver.cellName, driver.port) := by rw [hr]; rfl
  constructor
  · intro hcone
    have hd := (he cell ha).denotes ((addressable_output hkey).1 hcone)
    have hslice := hd.sliceExpr Nat.one_pos hfit src
    rw [vectorWord_net, h.output_value ha hget, ← extractLsb'_one]
    exact hslice
  · intro hlow
    exact (addressable_output hkey).2 ((he cell ha).lowers (hlow.within (LoweringAux.within_sliceExpr Within.refl _ _)))

/-! ## Registers and children -/

/-- The inputs are named by their ports. -/
theorem input_named (h : Valuated Γ s₀ σ val) {vector : List Bit} {name : String}
    (hget : Γ.toSetting.inputs.get? vector = some name) : Named σ val vector name := by
  obtain ⟨port, hentry, hdirection, rfl⟩ := inputs_mem hget
  have hport := h.plain.2 _ hentry
  simp only [Setting.plainPort, hdirection, ne_eq, not_true_eq_false, decide_false, Bool.false_or, Bool.and_eq_true,
    decide_eq_true_eq, List.all_eq_true, Bool.not_eq_true'] at hport
  refine ⟨?_, hport.2, fun {i id} hid => ?_⟩
  · rw [← Bool.not_eq_true, String.isEmpty_iff]
    exact hport.1
  · rw [h.consistent id _ (mem_places_input hentry hdirection hid)]
    rfl

/-- The output of a sequential cell. -/
theorem sequential_output (h : Valuated Γ s₀ σ val) {cellName : String} {cell : Cell}
    (hcell : Γ.module.cells.get? cellName = some cell) (hkind : (sequentialKind? cell.type).isSome = true) :
    cell.outputs = ["Q"] := by
  have hplaincell := h.plain.1 _ (Dict.mem_entries_of_get? hcell)
  rw [Setting.plainCell, Bool.and_eq_true, if_pos hkind] at hplaincell
  exact of_decide_eq_true hplaincell.2

/-- The registers are named by their cells. -/
theorem register_named (h : Valuated Γ s₀ σ val) {vector : List Bit} {name : String}
    (hget : Γ.toSetting.registers.get? vector = some name) : Named σ val vector name := by
  obtain ⟨cellName, cell, hcell, hkind, rfl, rfl⟩ := registers_mem hget
  have hQ : "Q" ∈ cell.outputs := by
    rw [h.sequential_output hcell hkind]
    exact List.mem_singleton_self _
  have hplaincell := h.plain.1 _ (Dict.mem_entries_of_get? hcell)
  rw [Setting.plainCell, Bool.and_eq_true] at hplaincell
  have hnets := List.all_eq_true.1 (List.all_eq_true.1 hplaincell.1 _ hQ)
  refine ⟨registerName_ne cellName, fun bit hbit => by simpa using hnets bit hbit, fun {i id} hid => ?_⟩
  rw [h.consistent id _ (mem_places_output hcell hQ hid)]
  simp only [Ctx.placeValue, hcell, Ctx.outputWord]
  rw [cellSource_register hkind]

/-- The output of a register: several cells with the same output would have the same value. -/
theorem exact_register (h : Valuated Γ s₀ σ val) {key : String × String} {cell : Cell} (ha : Asked Γ key cell)
    (hc : Γ.cellSource key.1 cell key.2 = .register) :
    OutputExact Γ σ val key cell (.signal (cell.connection key.2).length (Γ.registers.getD (cell.connection key.2)
      (Γ.publicName (cell.connection key.2) (stripName key.1))) src) := by
  have hkind : (sequentialKind? cell.type).isSome = true := Ctx.cellSource_of_eq hc
  have hQ : key.2 = "Q" := by
    have hout := ha.output
    rw [h.sequential_output ha.cell_eq hkind] at hout
    exact List.mem_singleton.1 hout
  have hsome : (Γ.registers.get? (cell.connection key.2)).isSome = true := by
    rw [h.prepared.registers, hQ]
    exact registers_isSome ha.cell_eq hkind
  obtain ⟨name, hname⟩ := Option.isSome_iff_exists.1 hsome
  have hnamed : Named σ val (cell.connection key.2) name := by
    rw [h.prepared.registers] at hname
    exact h.register_named hname
  have hgetD : Γ.registers.getD (cell.connection key.2) (Γ.publicName (cell.connection key.2) (stripName key.1)) = name := by
    rw [Dict.getD, hname]
    rfl
  have hword : σ.regs name (cell.connection key.2).length = Γ.outputWord σ val key.1 cell key.2 := by
    rw [← h.vectorWord_output ha src]
    exact (vectorWord_eq hnamed.nets hnamed.value).symm
  refine ⟨fun _ => ?_, fun _ => addressable_of_leaf ha.cell_eq (by rw [hc]; intro _ h; cases h) (by rw [hc]; intro _ h; cases h)⟩
  rw [hgetD, ← hword]
  exact Denotes.signal (List.length_pos_iff.2 ha.bits_ne) hnamed.name_ne src

/-- The output of a child instance. -/
theorem exact_child {key : String × String} {cell : Cell} (ha : Asked Γ key cell)
    (hc : Γ.cellSource key.1 cell key.2 = .child) :
    OutputExact Γ σ val key cell (.signal (max (cell.connection key.2).length 1) (instanceNet key.1 key.2) src) := by
  have hpos : 0 < (cell.connection key.2).length := List.length_pos_iff.2 ha.bits_ne
  have hword : Γ.outputWord σ val key.1 cell key.2 = σ.regs (instanceNet key.1 key.2) (cell.connection key.2).length := by
    unfold Ctx.outputWord
    rw [hc]
  refine ⟨fun _ => ?_, fun _ => addressable_of_leaf ha.cell_eq (by rw [hc]; intro _ h; cases h) (by rw [hc]; intro _ h; cases h)⟩
  rw [hword, Nat.max_eq_left hpos]
  exact Denotes.signal hpos (instanceNet_ne key.1 key.2) src

end Valuated

end

end

end SoundnessAux

end LoomImport
