import LoomImport.Prepared
import LoomImport.Lib.Avoiding

/-!
# Which bits the translator supports, and what blocks the others

A net is supported when the translator has no reason to block it: it is a bit of an input port or of a register, or of a cell output
whose cell is translated and whose operands are supported, and no two cells drive it. This is said of the netlist alone. A record
blocks a net when it names a reason. A run that ends has found every bit of its vector supported, or has recorded a blocker in the
cone of that bit; and it ends only if nothing in the cone of the vector is undriven.
-/

namespace LoomImport

open ImportIR StateOption

/-! ## Calls -/

/-- The cell output a vector is taken from. -/
def Route.output? : Route → Option (String × String)
  | .output key => some key
  | .bit driver => some (driver.cellName, driver.port)
  | .empty | .constant | .named | .split => none

/-- One vector calls for another: through a cell output, or for one of its bits. -/
inductive Ctx.Call (Γ : Ctx) : List Bit → Option (String × String) → List Bit → Prop
  | output {bits : List Bit} {key : String × String} {operand : List Bit × SourceLocation} :
    (Γ.route bits).output? = some key → operand ∈ Γ.operands key → Call Γ bits (some key) operand.1
  | split {bits : List Bit} {bit : Bit} : Γ.route bits = .split → bit ∈ bits → Call Γ bits none [bit]

/-- A single net that is no named one and that no cell output drives. -/
def Ctx.Undriven (Γ : Ctx) (bits : List Bit) : Prop := ∃ id, bits = [.net id] ∧ Γ.route bits = .split

/-- No vector called for is an undriven net, when some cell outputs are not looked into. -/
def Ctx.DrivenCone (Γ : Ctx) (avoid : List (String × String)) (bits : List Bit) : Prop :=
  Avoiding.Clear Γ.Call Γ.Undriven avoid bits

/-! ## Support -/

namespace Ctx

variable (Γ : Ctx)

/-- A net is a bit of an input port or of a register. -/
def Named (id : Nat) : Prop := ∃ vector, (vector ∈ Γ.inputs.keys ∨ vector ∈ Γ.registers.keys) ∧ .net id ∈ vector

/-- A cell drives a net from one of its output ports. -/
def Drives (key : String × String) (id : Nat) : Prop :=
  ∃ cell, Γ.module.cells.get? key.1 = some cell ∧ key.2 ∈ cell.outputs ∧ .net id ∈ cell.connection key.2

/-- A vector is taken as a whole: it is that of an input port, of a register or of a cell output. -/
def TakenWhole (bits : List Bit) : Prop := Γ.route bits = .named ∨ ∃ key, Γ.route bits = .output key

/-- What the constants among the bits of a vector are claimed as: the whole vector, or the bit alone. -/
def constantSpan (bits : List Bit) (bit : Bit) : List Bit := if bits.all Bit.isConst then bits else [bit]

/-- A constant bit of a vector is known, or claimed by one rule. -/
def ConstantClaimed (operand : List Bit × SourceLocation) (bit : Bit) : Prop :=
  Γ.constantOk (constantSpan operand.1 bit) operand.2 = true

instance (operand : List Bit × SourceLocation) (bit : Bit) : Decidable (Γ.ConstantClaimed operand bit) :=
  inferInstanceAs (Decidable (_ = true))

/-- A constant bit of a vector is supported: it is not looked at when the vector is taken as a whole. -/
def ConstantSupported (operand : List Bit × SourceLocation) (bit : Bit) : Prop :=
  Γ.TakenWhole operand.1 ∨ Γ.ConstantClaimed operand bit

/-- The constants of a vector are supported, and the vector is not empty. -/
def ConstantsSupported (operand : List Bit × SourceLocation) : Prop :=
  operand.1 ≠ [] ∧ ∀ bit ∈ operand.1, bit.isConst = true → Γ.ConstantSupported operand bit

/-- What a cell output is translated to is supported as far as the cell itself goes. -/
def SelfSupported (key : String × String) (cell : Cell) : CellSource → Prop
  | .register | .child => True
  | .memory info =>
    (info.abits = info.addressWidth ∨ Γ.fillOk info = true) ∧ Γ.constantOk info.initBits info.source = true
  | .blocked _ _ => False
  | .comb kind => kind = .shiftx → Γ.shiftxOk key.1 (cell.flag "B_SIGNED") (Γ.sourceOf cell.src) = true

/-- A cell output is supported when the cell is translated, given that the nets it reads are. -/
def OutputSupported (supported : Nat → Prop) (key : String × String) : Prop :=
  ∃ cell, Γ.module.cells.get? key.1 = some cell ∧ Γ.SelfSupported key cell (Γ.cellSource key.1 cell key.2) ∧
    ∀ operand ∈ Γ.operands key, Γ.ConstantsSupported operand ∧ ∀ id, .net id ∈ operand.1 → supported id

end Ctx

/-- A net is supported: no two cells drive it, and it is a named one or a cell output that is supported drives it. -/
inductive Ctx.Supported (Γ : Ctx) : Nat → Prop
  | named {id : Nat} : Γ.Named id → (∀ src, ¬Γ.DrivenAgain id src) → Supported Γ id
  | output {id : Nat} {key : String × String} {cell : Cell} : ¬Γ.Named id → Γ.Drives key id →
    (∀ src, ¬Γ.DrivenAgain id src) → Γ.module.cells.get? key.1 = some cell →
    Γ.SelfSupported key cell (Γ.cellSource key.1 cell key.2) → (∀ operand ∈ Γ.operands key, Γ.ConstantsSupported operand) →
    (∀ operand ∈ Γ.operands key, ∀ id, .net id ∈ operand.1 → Supported Γ id) → Supported Γ id

/-! ## Blockers -/

namespace Ctx

variable (Γ : Ctx)

/-- A record blocks the constants of a vector that are not supported. -/
def BlocksConstants (operand : List Bit × SourceLocation) (r : UnsupportedRecord) : Prop :=
  (operand.1 = [] ∧ r = ⟨"zero_width", "empty signal vector", operand.2, none⟩) ∨
    ∃ bit ∈ operand.1, bit.isConst = true ∧ ¬Γ.ConstantSupported operand bit ∧
      r = Γ.constantRecord (constantSpan operand.1 bit) operand.2

/-- A record blocks a cell output that is not supported: it names the cell, a cycle through it, or a constant it reads. -/
inductive BlocksOutput (key : String × String) : UnsupportedRecord → Prop
  | cell {cell : Cell} {kind detail : String} : Γ.module.cells.get? key.1 = some cell →
    Γ.cellSource key.1 cell key.2 = .blocked kind detail →
    BlocksOutput key ⟨kind, detail, Γ.sourceOf cell.src, none⟩
  | cycle {cell : Cell} : Γ.module.cells.get? key.1 = some cell → ¬Γ.OutputSupported Γ.Supported key →
    BlocksOutput key ⟨"combinational_cycle", "cycle at " ++ key.1 ++ "." ++ key.2, Γ.sourceOf cell.src, none⟩
  | shiftx {cell : Cell} : Γ.module.cells.get? key.1 = some cell →
    Γ.cellSource key.1 cell key.2 = .comb .shiftx →
    Γ.shiftxOk key.1 (cell.flag "B_SIGNED") (Γ.sourceOf cell.src) = false →
    BlocksOutput key (Γ.shiftxRecord key.1 (cell.flag "B_SIGNED") (cell.connection key.2).length (Γ.sourceOf cell.src))
  | fill {cell : Cell} {info : MemoryInfo} : Γ.module.cells.get? key.1 = some cell →
    Γ.cellSource key.1 cell key.2 = .memory info → info.abits ≠ info.addressWidth → Γ.fillOk info = false →
    BlocksOutput key (Γ.memoryRecord info)
  | image {cell : Cell} {info : MemoryInfo} : Γ.module.cells.get? key.1 = some cell →
    Γ.cellSource key.1 cell key.2 = .memory info → Γ.constantOk info.initBits info.source = false →
    BlocksOutput key (Γ.constantRecord info.initBits info.source)
  | constants {operand : List Bit × SourceLocation} {r : UnsupportedRecord} :
    operand ∈ Γ.operands key → Γ.BlocksConstants operand r → BlocksOutput key r

end Ctx

/-- A record blocks a net: two cells drive it, or the cell output it is taken from or a net of its cone is blocked. -/
inductive Ctx.BlocksNet (Γ : Ctx) : Nat → UnsupportedRecord → Prop
  | again {id : Nat} {src : String} : Γ.DrivenAgain id src → BlocksNet Γ id (Γ.multipleDriversRecord id src)
  | output {id : Nat} {key : String × String} {r : UnsupportedRecord} : ¬Γ.Named id →
    Γ.Drives key id → Γ.BlocksOutput key r → BlocksNet Γ id r
  | operand {id id' : Nat} {key : String × String} {operand : List Bit × SourceLocation} {r : UnsupportedRecord} :
    ¬Γ.Named id → Γ.Drives key id → operand ∈ Γ.operands key → .net id' ∈ operand.1 → BlocksNet Γ id' r → BlocksNet Γ id r

namespace Ctx

variable (Γ : Ctx)

/-- A bit of a vector is supported. -/
def BitSupported (operand : List Bit × SourceLocation) : Bit → Prop
  | .net id => Γ.Supported id
  | .const value => Γ.ConstantSupported operand (.const value)

/-- A record blocks a bit of a vector. -/
def BlocksBit (operand : List Bit × SourceLocation) : Bit → UnsupportedRecord → Prop
  | .net id, r => Γ.BlocksNet id r
  | .const value, r => ¬Γ.ConstantSupported operand (.const value) ∧
      r = Γ.constantRecord (constantSpan operand.1 (.const value)) operand.2

/-- A bit of a vector is supported, or a record of the list blocks it. -/
def BitExamined (records : List UnsupportedRecord) (operand : List Bit × SourceLocation) (bit : Bit) : Prop :=
  Γ.BitSupported operand bit ∨ ∃ r ∈ records, Γ.BlocksBit operand bit r

/-- A cell output is supported, or a record of the list blocks it or something it reads. -/
def OutputExamined (records : List UnsupportedRecord) (key : String × String) : Prop :=
  Γ.OutputSupported Γ.Supported key ∨ (∃ r ∈ records, Γ.BlocksOutput key r) ∨
    ∃ operand ∈ Γ.operands key, ∃ id, .net id ∈ operand.1 ∧ ∃ r ∈ records, Γ.BlocksNet id r

variable {Γ}

theorem BitExamined.mono {records records' : List UnsupportedRecord} (hsub : records ⊆ records')
    {operand : List Bit × SourceLocation} {bit : Bit} (h : Γ.BitExamined records operand bit) :
    Γ.BitExamined records' operand bit := by
  rcases h with h | ⟨r, hr, hb⟩
  · exact Or.inl h
  · exact Or.inr ⟨r, hsub hr, hb⟩

theorem OutputExamined.mono {records records' : List UnsupportedRecord} (hsub : records ⊆ records') {key : String × String}
    (h : Γ.OutputExamined records key) : Γ.OutputExamined records' key := by
  rcases h with h | ⟨r, hr, hb⟩ | ⟨operand, ho, id, hid, r, hr, hb⟩
  · exact Or.inl h
  · exact Or.inr (Or.inl ⟨r, hsub hr, hb⟩)
  · exact Or.inr (Or.inr ⟨operand, ho, id, hid, r, hsub hr, hb⟩)

/-- A net that an examined cell output drives is examined, when a net that is driven again is blocked. -/
theorem OutputExamined.net {records : List UnsupportedRecord} {key : String × String} (h : Γ.OutputExamined records key)
    (hagain : ∀ {id src}, Γ.DrivenAgain id src → Γ.multipleDriversRecord id src ∈ records) {id : Nat}
    (hd : Γ.Drives key id) (operand : List Bit × SourceLocation) : Γ.BitExamined records operand (.net id) := by
  by_cases ha : ∃ src, Γ.DrivenAgain id src
  · obtain ⟨src, ha⟩ := ha
    exact Or.inr ⟨_, hagain ha, BlocksNet.again ha⟩
  by_cases hnamed : Γ.Named id
  · exact Or.inl (Supported.named hnamed fun src h' => ha ⟨src, h'⟩)
  rcases h with ⟨cell, hcell, hself, hops⟩ | ⟨r, hr, hb⟩ | ⟨operand', ho, id', hid, r, hr, hb⟩
  · exact Or.inl (Supported.output hnamed hd (fun src h' => ha ⟨src, h'⟩) hcell hself (fun o ho => (hops o ho).1)
      fun o ho => (hops o ho).2)
  · exact Or.inr ⟨r, hr, BlocksNet.output hnamed hd hb⟩
  · exact Or.inr ⟨r, hr, BlocksNet.operand hnamed hd ho hid hb⟩

/-- A cell output whose operands are examined is examined, when the cell itself is supported or blocked. -/
theorem outputExamined {records : List UnsupportedRecord} {key : String × String} {cell : Cell}
    (hcell : Γ.module.cells.get? key.1 = some cell)
    (hself : Γ.SelfSupported key cell (Γ.cellSource key.1 cell key.2) ∨ ∃ r ∈ records, Γ.BlocksOutput key r)
    (hops : ∀ operand ∈ Γ.operands key, (operand.1 = [] →
      (⟨"zero_width", "empty signal vector", operand.2, none⟩ : UnsupportedRecord) ∈ records) ∧
      ∀ bit ∈ operand.1, Γ.BitExamined records operand bit) : Γ.OutputExamined records key := by
  by_cases hblocked : ∃ r ∈ records, Γ.BlocksOutput key r
  · exact Or.inr (Or.inl hblocked)
  by_cases hnet : ∃ operand ∈ Γ.operands key, ∃ id, Bit.net id ∈ operand.1 ∧ ∃ r ∈ records, Γ.BlocksNet id r
  · exact Or.inr (Or.inr hnet)
  refine Or.inl ⟨cell, hcell, hself.resolve_right hblocked, ?_⟩
  intro operand ho
  obtain ⟨hempty, hbits⟩ := hops operand ho
  refine ⟨⟨?_, ?_⟩, ?_⟩
  · intro he
    exact hblocked ⟨_, hempty he, BlocksOutput.constants ho (Or.inl ⟨he, rfl⟩)⟩
  · intro bit hbit hconst
    rcases bit with id | value
    · cases hconst
    · rcases hbits _ hbit with h | ⟨r, hr, hb⟩
      · exact h
      · exact absurd ⟨r, hr, BlocksOutput.constants ho (Or.inr ⟨_, hbit, hconst, hb⟩)⟩ hblocked
  · intro id hid
    rcases hbits _ hid with h | ⟨r, hr, hb⟩
    · exact h
    · exact absurd ⟨operand, ho, id, hid, r, hr, hb⟩ hnet

end Ctx

/-! ## Drivers -/

namespace BlockingAux

variable {Γ : Ctx}

theorem bitDriver_eq {bits : List Bit} {driver : Driver} (h : Γ.bitDriver bits = some driver) :
    ∃ id, bits = [.net id] ∧ Γ.drivers.get? id = some driver := by
  unfold Ctx.bitDriver at h
  split at h
  · rename_i id
    exact ⟨id, rfl, h⟩
  · cases h

/-- The nets of a named vector are nets of a vector that is named. -/
theorem isAlias_net {aliases : Dict (List Bit) String} {bits : List Bit} (h : isAlias aliases bits = true) {id : Nat}
    (hid : Bit.net id ∈ bits) : ∃ vector ∈ aliases.keys, .net id ∈ vector := by
  unfold isAlias at h
  rw [Bool.or_eq_true] at h
  rcases h with h | h
  · rw [Option.isSome_iff_exists] at h
    obtain ⟨name, hname⟩ := h
    exact ⟨bits, List.mem_map.2 ⟨(bits, name), Dict.mem_entries_of_get? hname, rfl⟩, hid⟩
  · split at h
    · rename_i id'
      rw [List.any_eq_true] at h
      obtain ⟨vector, hv, hm⟩ := h
      rw [List.mem_singleton] at hid
      cases hid
      exact ⟨vector, hv, by simpa using hm⟩
    · cases h

/-- A vector that a cell output drives as a whole is its connection. -/
theorem exactDriver_eq {bits : List Bit} {key : String × String} (h : Γ.exactDriver bits = some key) :
    ∃ cell, Γ.module.cells.get? key.1 = some cell ∧ key.2 ∈ cell.outputs ∧ cell.connection key.2 = bits := by
  unfold Ctx.exactDriver at h
  obtain ⟨entry, hentry, hport⟩ := List.exists_of_findSome?_eq_some h
  obtain ⟨direction, hdirection, hkey⟩ := List.exists_of_findSome?_eq_some hport
  split at hkey
  · rename_i hc
    cases hkey
    refine ⟨entry.2, Dict.get?_of_mem hentry, Cell.mem_outputs.2 ?_, hc.2⟩
    rw [← hc.1]
    exact Dict.get?_of_mem hdirection
  · cases hkey

/-- A driven bit is a bit of a cell output. -/
theorem drivenBits_mem {Γ : Setting} {bit : Bit} {driver : Driver} {src : String} (h : (bit, driver, src) ∈ Γ.drivenBits) :
    ∃ cell, Γ.module.cells.get? driver.cellName = some cell ∧ driver.port ∈ cell.outputs ∧
      (cell.connection driver.port)[driver.offset]? = some bit ∧ cell.src = src := by
  unfold Setting.drivenBits at h
  rw [List.mem_flatMap] at h
  obtain ⟨entry, hentry, h⟩ := h
  rw [List.mem_flatMap] at h
  obtain ⟨port, hport, h⟩ := h
  rw [List.mem_map] at h
  obtain ⟨⟨bit', offset⟩, hzip, heq⟩ := h
  cases heq
  exact ⟨entry.2, Dict.get?_of_mem hentry, hport, List.mem_zipIdx_iff_getElem?.1 hzip, rfl⟩

/-- A bit of a cell output is a driven bit. -/
theorem mem_drivenBits {Γ : Setting} {cellName : String} {cell : Cell} (hcell : Γ.module.cells.get? cellName = some cell)
    {port : String} (hport : port ∈ cell.outputs) {i : Nat} {bit : Bit} (hbit : (cell.connection port)[i]? = some bit) :
    (bit, ⟨cellName, port, i⟩, cell.src) ∈ Γ.drivenBits := by
  refine List.mem_flatMap.2 ⟨(cellName, cell), Dict.mem_entries_of_get? hcell, ?_⟩
  refine List.mem_flatMap.2 ⟨port, hport, ?_⟩
  exact List.mem_map.2 ⟨(bit, i), List.mem_zipIdx_iff_getElem?.2 hbit, rfl⟩

/-- A net that two driven bits name is driven again. -/
theorem drivenAgain_of_ne {Γ : Setting} {id : Nat} {driver driver' : Driver} {src src' : String}
    (h : (.net id, driver, src) ∈ Γ.drivenBits) (h' : (.net id, driver', src') ∈ Γ.drivenBits) (hne : driver ≠ driver') :
    ∃ again, Γ.DrivenAgain id again := by
  obtain ⟨before, after, hsplit⟩ := List.append_of_mem h
  rw [hsplit] at h'
  rcases List.mem_append.1 h' with hbefore | hafter
  · exact ⟨src, before, driver, after, hsplit, _, hbefore, rfl⟩
  · rcases List.mem_cons.1 hafter with heq | hafter
    · cases heq
      exact absurd rfl hne
    · obtain ⟨middle, rest, hrest⟩ := List.append_of_mem hafter
      refine ⟨src', before ++ (.net id, driver, src) :: middle, driver', rest, ?_, _,
        List.mem_append_right _ List.mem_cons_self, rfl⟩
      rw [hsplit, hrest, List.append_assoc, List.cons_append]

/-- A net that is not driven again is driven by one cell output. -/
theorem drives_unique {key key' : String × String} {id : Nat} (h : Γ.Drives key id) (h' : Γ.Drives key' id)
    (honce : ∀ src, ¬Γ.DrivenAgain id src) : key = key' := by
  obtain ⟨cell, hcell, hport, hmem⟩ := h
  obtain ⟨cell', hcell', hport', hmem'⟩ := h'
  obtain ⟨i, hi⟩ := List.mem_iff_getElem?.1 hmem
  obtain ⟨i', hi'⟩ := List.mem_iff_getElem?.1 hmem'
  by_contra hne
  obtain ⟨src, hagain⟩ := drivenAgain_of_ne (mem_drivenBits hcell hport hi) (mem_drivenBits hcell' hport' hi') (by
    intro heq
    exact hne (Prod.ext (congrArg Driver.cellName heq) (congrArg Driver.port heq)))
  exact honce src hagain

end BlockingAux

open BlockingAux

/-! ## A blocker names a reason -/

namespace Ctx

variable {Γ : Ctx}

/-- The constants of a vector that a record blocks are not supported. -/
theorem BlocksConstants.not_supported {operand : List Bit × SourceLocation} {r : UnsupportedRecord}
    (h : Γ.BlocksConstants operand r) : ¬Γ.ConstantsSupported operand := by
  rintro ⟨hne, hsupported⟩
  rcases h with ⟨hempty, -⟩ | ⟨bit, hbit, hconst, hnot, -⟩
  · exact hne hempty
  · exact hnot (hsupported bit hbit hconst)

/-- A cell output that a record blocks is not supported. -/
theorem BlocksOutput.not_supported {key : String × String} {r : UnsupportedRecord} (h : Γ.BlocksOutput key r) :
    ¬Γ.OutputSupported Γ.Supported key := by
  rintro ⟨cell, hcell, hself, hops⟩
  have same : ∀ {cell'}, Γ.module.cells.get? key.1 = some cell' → cell' = cell :=
    fun h' => Option.some.inj (h'.symm.trans hcell)
  cases h with
  | cell hcell' hc =>
    cases same hcell'
    rw [hc] at hself
    exact hself
  | cycle _ hnot => exact hnot ⟨cell, hcell, hself, hops⟩
  | shiftx hcell' hc hno =>
    cases same hcell'
    rw [hc] at hself
    exact absurd (hno.symm.trans (hself rfl)) (by decide)
  | fill hcell' hc hw hno =>
    cases same hcell'
    rw [hc] at hself
    exact absurd (hno.symm.trans (hself.1.resolve_left hw)) (by decide)
  | image hcell' hc hno =>
    cases same hcell'
    rw [hc] at hself
    exact absurd (hno.symm.trans hself.2) (by decide)
  | constants ho hb => exact hb.not_supported (hops _ ho).1

/-- What supports a net: it is a named one, or the cell output that drives it is supported. -/
theorem Supported.output_of {id : Nat} (h : Γ.Supported id) (hnamed : ¬Γ.Named id) {key : String × String}
    (hd : Γ.Drives key id) : Γ.OutputSupported Γ.Supported key := by
  cases h with
  | named hn => exact absurd hn hnamed
  | output _ hd' honce hcell hself hconst hnets =>
    obtain rfl := drives_unique hd hd' honce
    exact ⟨_, hcell, hself, fun operand ho => ⟨hconst operand ho, hnets operand ho⟩⟩

theorem Supported.once {id : Nat} (h : Γ.Supported id) (src : String) : ¬Γ.DrivenAgain id src := by
  cases h with
  | named _ honce => exact honce src
  | output _ _ honce => exact honce src

/-- A net that a record blocks is not supported. -/
theorem BlocksNet.not_supported {id : Nat} {r : UnsupportedRecord} (h : Γ.BlocksNet id r) : ¬Γ.Supported id := by
  induction h with
  | again hagain => exact fun hs => hs.once _ hagain
  | output hnamed hd hb => exact fun hs => hb.not_supported (hs.output_of hnamed hd)
  | operand hnamed hd ho hid _ ih =>
    intro hs
    obtain ⟨_, _, _, hops⟩ := hs.output_of hnamed hd
    exact ih ((hops _ ho).2 _ hid)

/-- A bit that a record blocks is not supported. -/
theorem BlocksBit.not_supported {operand : List Bit × SourceLocation} {bit : Bit} {r : UnsupportedRecord}
    (h : Γ.BlocksBit operand bit r) : ¬Γ.BitSupported operand bit := by
  cases bit with
  | net id => exact BlocksNet.not_supported h
  | const value => exact h.1

end Ctx

/-! ## What a run that ends has found -/

section Spec

variable {Γ : Ctx} {s₀ : State}

/-- The output a vector is taken from drives its nets. -/
theorem drives_of_route (hp : Prepared Γ.toSetting Γ s₀) {bits : List Bit} {key : String × String}
    (h : (Γ.route bits).output? = some key) {id : Nat} (hid : .net id ∈ bits) : Γ.Drives key id := by
  cases hr : Γ.route bits with
  | output key' =>
    rw [hr] at h
    cases h
    obtain ⟨cell, hcell, hport, hbits⟩ := exactDriver_eq (Ctx.route_of_eq hr).2
    exact ⟨cell, hcell, hport, hbits ▸ hid⟩
  | bit driver =>
    rw [hr] at h
    cases h
    obtain ⟨id', rfl, hdriver⟩ := bitDriver_eq (Ctx.route_of_eq hr)
    rw [List.mem_singleton] at hid
    cases hid
    obtain ⟨src, hmem⟩ := hp.driver_mem hdriver
    obtain ⟨cell, hcell, hport, hget, -⟩ := drivenBits_mem hmem
    exact ⟨cell, hcell, hport, List.mem_of_getElem? hget⟩
  | empty => rw [hr] at h; cases h
  | constant => rw [hr] at h; cases h
  | named => rw [hr] at h; cases h
  | split => rw [hr] at h; cases h

/-- What the vectors a cell output calls for have, while it is in progress. -/
def OperandsDone (Γ : Ctx) (key : String × String) (s : State) : Prop :=
  ∀ operand ∈ Γ.operands key, Γ.DrivenCone s.inProgress operand.1

/-- A vector is done: nothing undriven is called for, and its bits are examined. -/
def VectorDone (Γ : Ctx) (bits : List Bit) (src : SourceLocation) (s : State) : Prop :=
  Γ.DrivenCone s.inProgress bits ∧
    (bits = [] → (⟨"zero_width", "empty signal vector", src, none⟩ : UnsupportedRecord) ∈ s.unsupported) ∧
    ∀ bit ∈ bits, Γ.BitExamined s.unsupported (bits, src) bit

theorem VectorDone.grows {bits : List Bit} {src : SourceLocation} {s s' : State} (hg : s.Grows s')
    (h : VectorDone Γ bits src s) : VectorDone Γ bits src s' := by
  obtain ⟨hcone, hempty, hbits⟩ := h
  refine ⟨?_, fun he => hg.unsupported (hempty he), fun bit hbit => (hbits bit hbit).mono hg.unsupported⟩
  unfold Ctx.DrivenCone at hcone ⊢
  rw [hg.inProgress]
  exact hcone

/-- A vector that calls for nothing. -/
theorem drivenCone_of_leaf {avoid : List (String × String)} {bits : List Bit}
    (h : (Γ.route bits).output? = none ∧ Γ.route bits ≠ .split) : Γ.DrivenCone avoid bits := by
  refine Avoiding.clear_intro ?_ ?_
  · rintro ⟨id, -, hr⟩
    exact h.2 hr
  · rintro bits' ⟨label, hcall, -⟩
    cases hcall with
    | output hkey => rw [h.1] at hkey; cases hkey
    | split hr => exact absurd hr h.2

/-- A vector taken from a cell output that is not looked into, or whose operands are done. -/
theorem drivenCone_of_output {avoid : List (String × String)} {bits : List Bit} {key : String × String}
    (h : (Γ.route bits).output? = some key)
    (hkey : key ∈ avoid ∨ ∀ operand ∈ Γ.operands key, Γ.DrivenCone avoid operand.1) : Γ.DrivenCone avoid bits := by
  refine Avoiding.clear_intro ?_ ?_
  · rintro ⟨id, -, hr⟩
    rw [hr] at h
    cases h
  · rintro bits' ⟨label, hcall, havoid⟩
    cases hcall with
    | output hkey' hop =>
      rw [h] at hkey'
      cases hkey'
      rcases hkey with hk | hk
      · exact absurd hk (havoid _ rfl)
      · exact hk _ hop
    | split hr =>
      rw [hr] at h
      cases h

/-- The vectors of a combinational cell. -/
theorem operands_comb {key : String × String} {cell : Cell} (hcell : Γ.module.cells.get? key.1 = some cell)
    {kind : CombKind} (hc : Γ.cellSource key.1 cell key.2 = .comb kind) :
    Γ.operands key = kind.operandPorts.map fun port => (cell.connection port, Γ.sourceOf cell.src) := by
  unfold Ctx.operands
  rw [hcell]
  simp only [hc]

/-- The vectors of a memory. -/
theorem operands_memory {key : String × String} {cell : Cell} (hcell : Γ.module.cells.get? key.1 = some cell)
    {info : MemoryInfo} (hc : Γ.cellSource key.1 cell key.2 = .memory info) :
    Γ.operands key = (List.range info.readPorts).map fun port =>
      (portBits (info.cell.connection "RD_ADDR") port info.abits, info.source) := by
  unfold Ctx.operands
  rw [hcell]
  simp only [hc]

/-- A cell that calls for nothing. -/
theorem operands_leaf {key : String × String} {cell : Cell} (hcell : Γ.module.cells.get? key.1 = some cell)
    (hc : ∀ info, Γ.cellSource key.1 cell key.2 ≠ .memory info) (hc' : ∀ kind, Γ.cellSource key.1 cell key.2 ≠ .comb kind) :
    Γ.operands key = [] := by
  unfold Ctx.operands
  rw [hcell]
  simp only
  cases h : Γ.cellSource key.1 cell key.2 with
  | memory info => exact absurd h (hc info)
  | comb kind => exact absurd h (hc' kind)
  | register => rfl
  | child => rfl
  | blocked kind detail => rfl

/-- A cell output whose operands are done is done, when the cell itself is supported or blocked. -/
theorem outputDone {key : String × String} {cell : Cell} {s : State} (hcell : Γ.module.cells.get? key.1 = some cell)
    (hself : Γ.SelfSupported key cell (Γ.cellSource key.1 cell key.2) ∨ ∃ r ∈ s.unsupported, Γ.BlocksOutput key r)
    (hops : ∀ operand ∈ Γ.operands key, VectorDone Γ operand.1 operand.2 s) :
    OperandsDone Γ key s ∧ Γ.OutputExamined s.unsupported key := by
  refine ⟨fun operand ho => (hops operand ho).1, ?_⟩
  exact Ctx.outputExamined hcell hself fun operand ho => (hops operand ho).2

/-- A combinational cell whose operands are done. -/
theorem combDone {key : String × String} {cell : Cell} {s : State} {kind : CombKind}
    (hcell : Γ.module.cells.get? key.1 = some cell) (hc : Γ.cellSource key.1 cell key.2 = .comb kind)
    (hself : (kind = .shiftx → Γ.shiftxOk key.1 (cell.flag "B_SIGNED") (Γ.sourceOf cell.src) = true) ∨
      ∃ r ∈ s.unsupported, Γ.BlocksOutput key r)
    (hops : ∀ port ∈ kind.operandPorts, VectorDone Γ (cell.connection port) (Γ.sourceOf cell.src) s) :
    OperandsDone Γ key s ∧ Γ.OutputExamined s.unsupported key := by
  refine outputDone hcell ?_ ?_
  · rw [hc]
    exact hself
  · rw [operands_comb hcell hc]
    intro operand ho
    obtain ⟨port, hport, rfl⟩ := List.mem_map.1 ho
    exact hops port hport

/-- A vector of constants is done once it is claimed or blocked. -/
theorem constantDone {bits : List Bit} {src : SourceLocation} {s : State} (hr : Γ.route bits = .constant)
    (h : Γ.constantOk bits src = true ∨ Γ.constantRecord bits src ∈ s.unsupported) : VectorDone Γ bits src s := by
  obtain ⟨hne, hconst⟩ := Ctx.route_of_eq hr
  refine ⟨drivenCone_of_leaf (by rw [hr]; exact ⟨rfl, by decide⟩), fun he => absurd he hne, ?_⟩
  intro bit hbit
  have hspan : ∀ b, Ctx.constantSpan bits b = bits := fun b => if_pos hconst
  rcases bit with id | value
  · exact absurd (List.all_eq_true.1 hconst _ hbit) Bool.false_ne_true
  · by_cases hok : Γ.ConstantSupported (bits, src) (.const value)
    · exact Or.inl hok
    · rcases h with hclaimed | hrec
      · refine absurd (Or.inr ?_) hok
        unfold Ctx.ConstantClaimed
        rw [hspan]
        exact hclaimed
      · exact Or.inr ⟨_, hrec, hok, by rw [hspan]⟩

/-- A constant bit of a vector that is split is claimed and supported as the bit alone is. -/
theorem constant_split {bits : List Bit} (hr : Γ.route bits = .split) (value : Char) (src : SourceLocation) :
    Ctx.constantSpan bits (.const value) = Ctx.constantSpan [.const value] (.const value) ∧
      (Γ.ConstantSupported (bits, src) (.const value) ↔ Γ.ConstantSupported ([.const value], src) (.const value)) := by
  have hspan : Ctx.constantSpan bits (.const value) = [.const value] :=
    if_neg (by rw [(Ctx.route_of_eq hr).2.1]; decide)
  have hsingle : Ctx.constantSpan [.const value] (.const value) = [.const value] := by
    unfold Ctx.constantSpan
    split <;> rfl
  -- neither the vector nor the single constant is taken as a whole
  have hvector : ¬Γ.TakenWhole bits := by
    rintro (h | ⟨key, h⟩) <;> rw [hr] at h <;> cases h
  have hbit : ¬Γ.TakenWhole [.const value] := by
    have hroute : Γ.route [.const value] = .constant := rfl
    rintro (h | ⟨key, h⟩) <;> rw [hroute] at h <;> cases h
  refine ⟨hspan.trans hsingle.symm, ?_⟩
  unfold Ctx.ConstantSupported Ctx.ConstantClaimed
  rw [hspan, hsingle]
  exact ⟨fun h => Or.inr (h.resolve_left hvector), fun h => Or.inr (h.resolve_left hbit)⟩

/-- A vector is done once the cell output it is taken from is. -/
theorem takenDone (hp : Prepared Γ.toSetting Γ s₀) {bits : List Bit} {src : SourceLocation} {key : String × String}
    {s : State} (hsub : s₀.unsupported ⊆ s.unsupported) (hr : (Γ.route bits).output? = some key)
    (hkey : key ∈ s.inProgress ∨ OperandsDone Γ key s) (hset : Γ.OutputExamined s.unsupported key)
    (hconst : ∀ value, .const value ∈ bits → Γ.ConstantSupported (bits, src) (.const value)) : VectorDone Γ bits src s := by
  refine ⟨drivenCone_of_output hr hkey, ?_, ?_⟩
  · rintro rfl
    have hempty : Γ.route [] = .empty := rfl
    rw [hempty] at hr
    cases hr
  · intro bit hbit
    rcases bit with id | value
    · exact hset.net (fun h => hsub (hp.again h)) (drives_of_route hp hr hbit) _
    · exact Or.inl (hconst value hbit)

/-- What holds of the state of a run: nothing the preparation recorded is gone, and what is cached is done. -/
structure CacheDone (Γ : Ctx) (s₀ s : State) : Prop where
  records : s₀.unsupported ⊆ s.unsupported
  cached : ∀ {key e}, s.cache.get? key = some e → OperandsDone Γ key s ∧ Γ.OutputExamined s.unsupported key

/-- What a run that ends has found. -/
def examinedSpec (hp : Prepared Γ.toSetting Γ s₀) : RunSpec Γ where
  Inv s := CacheDone Γ s₀ s
  Vec bits src _ s := VectorDone Γ bits src s
  Out key _ s := (key ∈ s.inProgress ∨ OperandsDone Γ key s) ∧ Γ.OutputExamined s.unsupported key
  Res key cell _ s := Γ.module.cells.get? key.1 = some cell → OperandsDone Γ key s ∧ Γ.OutputExamined s.unsupported key
  Port info port _ s :=
    VectorDone Γ (portBits (info.cell.connection "RD_ADDR") port info.abits) info.source s ∧
      ((info.abits = info.addressWidth ∨ Γ.fillOk info = true) ∨
        (info.abits ≠ info.addressWidth ∧ Γ.fillOk info = false ∧ Γ.memoryRecord info ∈ s.unsupported))
  vec_grows hg h := h.grows hg
  port_grows hg h := ⟨h.1.grows hg, h.2.imp_right fun hm => ⟨hm.1, hm.2.1, hg.unsupported hm.2.2⟩⟩
  inv_record {s} h r := by
    have hg := State.grows_record s r
    refine ⟨List.Subset.trans h.records hg.unsupported, ?_⟩
    intro key e he
    rw [State.cache_record] at he
    obtain ⟨hops, hset⟩ := h.cached he
    refine ⟨?_, hset.mono hg.unsupported⟩
    unfold OperandsDone
    rw [State.inProgress_record]
    exact hops
  inv_enter {s key} h _ := by
    refine ⟨h.records, ?_⟩
    intro key' e he
    obtain ⟨hops, hset⟩ := h.cached he
    exact ⟨fun operand ho => (hops operand ho).mono (List.subset_cons_self key s.inProgress), hset⟩
  cached h he := ⟨Or.inr (h.cached he).1, (h.cached he).2⟩
  cycle {s key cell} h hk hcell := by
    refine ⟨Or.inl ?_, ?_⟩
    · rw [State.inProgress_record]
      exact hk
    · by_cases hok : Γ.OutputSupported Γ.Supported key
      · exact Or.inl hok
      · exact Or.inr (Or.inl ⟨_, State.mem_record s _, Ctx.BlocksOutput.cycle hcell hok⟩)
  leave {s key rest cell e} h hin hnot hcell hres := by
    obtain ⟨hops, hset⟩ := hres hcell
    have hout : (s.leave key e).inProgress = rest := by
      show s.inProgress.erase key = rest
      rw [hin]
      exact List.erase_cons_head key rest
    -- what is clear while the output is not looked into is clear once it is left
    have hleave : ∀ bits, Γ.DrivenCone s.inProgress bits → Γ.DrivenCone (s.leave key e).inProgress bits := by
      intro bits hbits
      rw [hin] at hbits
      rw [hout]
      refine Avoiding.Clear.leave ?_ hbits
      intro u v hcall
      cases hcall with
      | output hkey ho =>
        have h' := hops _ ho
        rw [hin] at h'
        exact h'
    have hdone : OperandsDone Γ key (s.leave key e) := fun operand ho => hleave _ (hops operand ho)
    refine ⟨⟨h.records, ?_⟩, Or.inr hdone, hset⟩
    intro key' e' he
    by_cases hk : key' = key
    · subst hk
      exact ⟨hdone, hset⟩
    · have he' : s.cache.get? key' = some e' := by
        rw [← Dict.get?_set_ne s.cache hk]
        exact he
      exact ⟨fun operand ho => hleave _ ((h.cached he').1 operand ho), (h.cached he').2⟩
  empty {s} src _ := by
    have hr : Γ.route [] = .empty := rfl
    refine ⟨drivenCone_of_leaf ?_, fun _ => State.mem_record s _, fun bit hbit => nomatch hbit⟩
    rw [hr]
    exact ⟨rfl, by decide⟩
  constant _ hr hok := constantDone hr (Or.inl hok)
  constantBlocked {s _ _} _ hr _ := constantDone hr (Or.inr (State.mem_record s _))
  named {s bits src e} h hr _ := by
    have ha := (Ctx.route_of_eq hr).2
    refine ⟨drivenCone_of_leaf (by rw [hr]; exact ⟨rfl, by decide⟩), ?_, ?_⟩
    · rintro rfl
      cases hr
    · intro bit hbit
      rcases bit with id | value
      · by_cases hagain : ∃ again, Γ.DrivenAgain id again
        · obtain ⟨again, hagain⟩ := hagain
          exact Or.inr ⟨_, h.records (hp.again hagain), Ctx.BlocksNet.again hagain⟩
        have hnamed : Γ.Named id → Γ.BitExamined s.unsupported (bits, src) (.net id) :=
          fun hn => Or.inl (Ctx.Supported.named hn fun again hd => hagain ⟨again, hd⟩)
        rw [Bool.or_eq_true] at ha
        rcases ha with ha | ha
        · obtain ⟨vector, hv, hid⟩ := isAlias_net ha hbit
          exact hnamed ⟨vector, Or.inl hv, hid⟩
        · obtain ⟨vector, hv, hid⟩ := isAlias_net ha hbit
          exact hnamed ⟨vector, Or.inr hv, hid⟩
      · exact Or.inl (Or.inl (Or.inl hr))
  output {s bits src key e} h hr hout := by
    refine takenDone hp h.records (by rw [hr]; rfl) hout.1 hout.2 ?_
    intro value _
    exact Or.inl (Or.inr ⟨key, hr⟩)
  bit {s bits src driver e} h hr hout := by
    obtain ⟨id, hid, -⟩ := bitDriver_eq (Ctx.route_of_eq hr)
    refine takenDone hp h.records (by rw [hr]; rfl) hout.1 hout.2 ?_
    intro value hvalue
    rw [hid, List.mem_singleton] at hvalue
    cases hvalue
  split {s bits src es e} _ hr hes _ := by
    obtain ⟨hne, -⟩ := Ctx.route_of_eq hr
    have hbits : ∀ bit ∈ bits, VectorDone Γ [bit] src s := by
      have h := ((List.forall₂_and_left bits.reverse es).1 (hes.imp fun _ _ hv => ⟨hv, trivial⟩)).1
      exact fun bit hbit => h bit (List.mem_reverse.2 hbit)
    refine ⟨?_, fun he => absurd he hne, ?_⟩
    · refine Avoiding.clear_intro ?_ ?_
      · rintro ⟨id, rfl, hundriven⟩
        exact (hbits _ List.mem_cons_self).1.not_bad ⟨id, rfl, hundriven⟩
      · rintro bits' ⟨label, hcall, -⟩
        cases hcall with
        | output hkey => rw [hr] at hkey; cases hkey
        | split _ hbit => exact (hbits _ hbit).1
    · intro bit hbit
      have hexamined := (hbits bit hbit).2.2 bit List.mem_cons_self
      rcases bit with id | value
      · exact hexamined
      · obtain ⟨hspan, hsupported⟩ := constant_split hr value src
        rcases hexamined with hok | ⟨r, hrec, hnot, heq⟩
        · exact Or.inl (hsupported.2 hok)
        · exact Or.inr ⟨r, hrec, fun hok => hnot (hsupported.1 hok), by rw [hspan]; exact heq⟩
  register {s cellName port cell} _ hc hcell := by
    refine outputDone hcell (Or.inl (by rw [hc]; trivial)) ?_
    rw [operands_leaf hcell (by rw [hc]; intro _ h; cases h) (by rw [hc]; intro _ h; cases h)]
    exact fun operand ho => nomatch ho
  child {s cellName port cell} _ hc hcell := by
    refine outputDone hcell (Or.inl (by rw [hc]; trivial)) ?_
    rw [operands_leaf hcell (by rw [hc]; intro _ h; cases h) (by rw [hc]; intro _ h; cases h)]
    exact fun operand ho => nomatch ho
  blocked {s cellName port cell kind detail} _ hc hcell := by
    refine outputDone hcell (Or.inr ⟨_, State.mem_record s _, Ctx.BlocksOutput.cell hcell hc⟩) ?_
    rw [operands_leaf hcell (by rw [hc]; intro _ h; cases h) (by rw [hc]; intro _ h; cases h)]
    exact fun operand ho => nomatch ho
  unary _ hc ha hcell := by
    refine combDone hcell hc (Or.inl nofun) ?_
    intro port hport
    rw [CombKind.operandPorts, List.mem_singleton] at hport
    exact hport ▸ ha
  binary _ hc hl hr hcell := by
    refine combDone hcell hc (Or.inl nofun) ?_
    intro port hport
    rcases List.mem_cons.1 hport with rfl | hport
    · exact hl
    · rw [List.mem_singleton] at hport
      exact hport ▸ hr
  mux _ hc hyes hno hcond hcell := by
    refine combDone hcell hc (Or.inl nofun) ?_
    intro port hport
    rcases List.mem_cons.1 hport with rfl | hport
    · exact hyes
    · rcases List.mem_cons.1 hport with rfl | hport
      · exact hno
      · rw [List.mem_singleton] at hport
        exact hport ▸ hcond
  shiftx _ hc hok hvalue hamount hcell := by
    refine combDone hcell hc (Or.inl fun _ => hok) ?_
    intro port hport
    rcases List.mem_cons.1 hport with rfl | hport
    · exact hvalue
    · rw [List.mem_singleton] at hport
      exact hport ▸ hamount
  shiftxBlocked {s _ _ _ _ _} _ hc hok hvalue hamount hcell := by
    refine combDone hcell hc (Or.inr ⟨_, State.mem_record s _, Ctx.BlocksOutput.shiftx hcell hc hok⟩) ?_
    intro port hport
    rcases List.mem_cons.1 hport with rfl | hport
    · exact hvalue.grows (State.grows_record s _)
    · rw [List.mem_singleton] at hport
      exact hport ▸ hamount.grows (State.grows_record s _)
  readInRange _ hw hfull := ⟨hfull, Or.inl (Or.inl hw)⟩
  readChecked _ _ hok hfull := ⟨hfull, Or.inl (Or.inr hok)⟩
  readBlocked {s _ _ _} _ hw hno hfull := ⟨hfull.grows (State.grows_record s _), Or.inr ⟨hw, hno, State.mem_record s _⟩⟩
  memory {s cellName port cell info es e} h hc hes _ hcell := by
    have hports : ∀ readPort ∈ List.range info.readPorts,
        VectorDone Γ (portBits (info.cell.connection "RD_ADDR") readPort info.abits) info.source s ∧
          ((info.abits = info.addressWidth ∨ Γ.fillOk info = true) ∨
            (info.abits ≠ info.addressWidth ∧ Γ.fillOk info = false ∧ Γ.memoryRecord info ∈ s.unsupported)) := by
      have h' := ((List.forall₂_and_left (List.range info.readPorts).reverse es).1 (hes.imp fun _ _ hv => ⟨hv, trivial⟩)).1
      exact fun readPort hm => h' readPort (List.mem_reverse.2 hm)
    have hget : Γ.memoryCells.get? cellName = some info := (Ctx.cellSource_of_eq hc).2.2
    refine outputDone hcell ?_ ?_
    · rw [hc]
      rcases (hports 0 (List.mem_range.2 info.shape.readPorts_pos)).2 with hfill | ⟨hw, hno, hrec⟩
      · cases himage : Γ.constantOk info.initBits info.source with
        | true => exact Or.inl ⟨hfill, himage⟩
        | false =>
          exact Or.inr ⟨_, h.records (hp.image hget himage), Ctx.BlocksOutput.image hcell hc himage⟩
      · exact Or.inr ⟨_, hrec, Ctx.BlocksOutput.fill hcell hc hw hno⟩
    · rw [operands_memory hcell hc]
      intro operand ho
      obtain ⟨readPort, hm, rfl⟩ := List.mem_map.1 ho
      exact (hports readPort hm).1

end Spec

end LoomImport
