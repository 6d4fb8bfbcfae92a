import LoomImport.Soundness
import LoomImport.Termination

/-!
# Which bits have a value, and which requests settle

A net is given a value in a state when it is driven from one place only and the place has a value: what it reads is given values,
its constants are known or claimed, and it does not divide by zero. The translator looks for the netlists it cannot express, and
finds all of them but these: an input port and a cell that drive one net, a division by zero, and an unknown constant in a vector
that is taken as a whole. A request settles, with a value in every state or a blocker for each of its bits, exactly when nothing
undriven is called for and none of these is in the cone of its supported bits.
-/

namespace LoomImport

open ImportIR ValuationAux SoundnessAux BlockingAux

/-! ## Values -/

/-- A net is driven from one place and from no other; a register drives its output, declared or not. -/
structure Setting.SoleDriver (Γ : Setting) (id : Nat) (place : Place) : Prop where
  places_eq : (Γ.places.filter fun entry => entry.1 = .net id) = [(.net id, place)]
  register : ∀ {cellName cell}, Γ.module.cells.get? cellName = some cell → (sequentialKind? cell.type).isSome = true →
    .net id ∈ cell.connection "Q" → ∃ offset, place = .output ⟨cellName, "Q", offset⟩

namespace Ctx

variable (Γ : Ctx)

/-- The constants of a vector are known or claimed, and the vector is not empty. -/
def ConstantsClaimed (operand : List Bit × SourceLocation) : Prop :=
  operand.1 ≠ [] ∧ ∀ bit ∈ operand.1, bit.isConst = true → Γ.ConstantClaimed operand bit

/-- What a cell output is translated to is no division by zero. -/
def DivisorNonzero (val : Nat → Bool) (cell : Cell) : CellSource → Prop
  | .comb (.binary .div) | .comb (.binary .mod) => Γ.vectorWord val (cell.connection "B") (Γ.sourceOf cell.src) ≠ 0
  | _ => True

/-- A place has a value, over the values of the nets it reads. -/
def PlaceDefined (val : Nat → Bool) : Place → Prop
  | .input _ _ _ => True
  | .output driver => ∃ cell, Γ.module.cells.get? driver.cellName = some cell ∧
      Γ.SelfSupported (driver.cellName, driver.port) cell (Γ.cellSource driver.cellName cell driver.port) ∧
      (∀ operand ∈ Γ.operands (driver.cellName, driver.port), Γ.ConstantsClaimed operand) ∧
      Γ.DivisorNonzero val cell (Γ.cellSource driver.cellName cell driver.port)

end Ctx

/-- A net is given a value in a state: that of the one place it is driven from, over the values given to the nets it reads. -/
inductive Ctx.Gives (Γ : Ctx) (σ : Hw.St) : Nat → Bool → Prop
  | place {id : Nat} {place : Place} {val : Nat → Bool} : Γ.SoleDriver id place → Γ.PlaceDefined val place →
    (∀ source, Γ.Feeds source id → Gives Γ σ source (val source)) → Gives Γ σ id (Γ.placeValue σ val place)

namespace Ctx

variable (Γ : Ctx)

/-- The netlist defines the value of a net: it is given one in every state. -/
def Defined (id : Nat) : Prop := ∀ σ, ∃ b, Γ.Gives σ id b

/-- The netlist defines the value of a bit of a vector. -/
def BitDefined (operand : List Bit × SourceLocation) : Bit → Prop
  | .net id => Γ.Defined id
  | .const value => Γ.ConstantClaimed operand (.const value)

end Ctx

/-- A request returns, and the netlist defines each bit of its vector or a record blocks it. -/
def Setting.Settles (Γ : Setting) (s : State) (bits : List Bit) (src : SourceLocation) : Prop :=
  (∃ e s', Γ.Returns s bits src e s') ∧
    ∀ e s', Γ.Returns s bits src e s' → ∀ bit ∈ bits,
      Γ.ctx.BitDefined (bits, src) bit ∨ ∃ r ∈ s'.unsupported, Γ.ctx.BlocksBit (bits, src) bit r

/-! ## What the translator does not look for -/

namespace Ctx

variable (Γ : Ctx)

/-- A place hides no unknown constant in a vector that is taken as a whole, and does not divide by zero. -/
def WellFed (val : Nat → Bool) : Place → Prop
  | .input _ _ _ => True
  | .output driver =>
    (∀ operand ∈ Γ.operands (driver.cellName, driver.port), Γ.TakenWhole operand.1 →
      ∀ bit ∈ operand.1, bit.isConst = true → Γ.ConstantClaimed operand bit) ∧
    ∀ cell, Γ.module.cells.get? driver.cellName = some cell →
      Γ.DivisorNonzero val cell (Γ.cellSource driver.cellName cell driver.port)

/-- A net is driven from one place, which is well fed whatever values its nets are given. -/
def WellDriven (id : Nat) : Prop :=
  ∃ place, Γ.SoleDriver id place ∧
    ∀ σ val, (∀ source, Γ.Feeds source id → Γ.Gives σ source (val source)) → Γ.WellFed val place

/-- The net, and every net that is read to give it its value, is well driven. -/
def WellDrivenCone (id : Nat) : Prop := ∀ source, Relation.ReflTransGen Γ.Feeds source id → Γ.WellDriven source

/-- A net of a vector has a well driven cone; a constant of a vector that is taken as a whole is known or claimed. -/
def BitWellDriven (operand : List Bit × SourceLocation) : Bit → Prop
  | .net id => Γ.WellDrivenCone id
  | .const value => Γ.TakenWhole operand.1 → Γ.ConstantClaimed operand (.const value)

end Ctx

/-! ## The place of a net -/

namespace Setting.SoleDriver

variable {id : Nat} {place : Place}

theorem mem {Γ : Setting} (h : Γ.SoleDriver id place) : (.net id, place) ∈ Γ.places := by
  have hmem : (.net id, place) ∈ Γ.places.filter fun entry => entry.1 = .net id := by
    rw [h.places_eq]
    exact List.mem_singleton_self _
  exact (List.mem_filter.1 hmem).1

theorem eq_of_mem {Γ : Setting} (h : Γ.SoleDriver id place) {place' : Place} (hmem : (.net id, place') ∈ Γ.places) :
    place' = place := by
  have hfilter : (.net id, place') ∈ Γ.places.filter fun entry => entry.1 = .net id :=
    List.mem_filter.2 ⟨hmem, decide_eq_true rfl⟩
  rw [h.places_eq, List.mem_singleton] at hfilter
  exact congrArg Prod.snd hfilter

/-- The place of a net is what feeds it. -/
theorem feeds_iff {Γ : Ctx} (h : Γ.SoleDriver id place) (source : Nat) :
    Γ.Feeds source id ↔ ∃ driver, place = .output driver ∧
      ∃ operand ∈ Γ.operands (driver.cellName, driver.port), .net source ∈ operand.1 := by
  constructor
  · rintro ⟨driver, hmem, hread⟩
    exact ⟨driver, (h.eq_of_mem hmem).symm, hread⟩
  · rintro ⟨driver, rfl, hread⟩
    exact ⟨driver, h.mem, hread⟩

end Setting.SoleDriver

namespace DefinednessAux

variable {Γ : Ctx} {σ : Hw.St} {id : Nat} {place : Place}

/-- A net that one cell drives is not driven again. -/
theorem not_drivenAgain {Γ : Setting} {id : Nat} (h : (Γ.drivenBits.filter fun driven => driven.1 = .net id).length ≤ 1)
    (src : String) : ¬Γ.DrivenAgain id src := by
  rintro ⟨before, driver, after, hsplit, driven, hmem, hnet⟩
  have hfirst : 0 < (before.filter fun driven => driven.1 = .net id).length :=
    List.length_pos_of_mem (List.mem_filter.2 ⟨hmem, decide_eq_true hnet⟩)
  rw [hsplit, List.filter_append, List.length_append, List.filter_cons_of_pos (by simp), List.length_cons] at h
  omega

/-- Nothing is read for a named net that has one driver, and its place has a value. -/
theorem named_place {s₀ : State} (hp : Prepared Γ.toSetting Γ s₀) (h : Γ.SoleDriver id place) (hid : Γ.Named id) :
    (∀ source, ¬Γ.Feeds source id) ∧ ∀ val, Γ.PlaceDefined val place := by
  obtain ⟨vector, hvector, hmem⟩ := hid
  rw [hp.inputs, hp.registers] at hvector
  rcases hvector with hv | hv
  · obtain ⟨⟨_, name⟩, hget, rfl⟩ := List.mem_map.1 hv
    obtain ⟨port, hentry, hdirection, rfl⟩ := inputs_mem (Dict.get?_of_mem hget)
    obtain ⟨i, hi⟩ := List.mem_iff_getElem?.1 hmem
    obtain rfl := h.eq_of_mem (mem_places_input hentry hdirection hi)
    refine ⟨fun source hfeeds => ?_, fun val => trivial⟩
    obtain ⟨driver, heq, -⟩ := (h.feeds_iff source).1 hfeeds
    cases heq
  · obtain ⟨⟨_, name⟩, hget, rfl⟩ := List.mem_map.1 hv
    obtain ⟨cellName, cell, hcell, hkind, rfl, -⟩ := registers_mem (Dict.get?_of_mem hget)
    obtain ⟨offset, rfl⟩ := h.register hcell hkind hmem
    have hc : Γ.cellSource cellName cell "Q" = .register := cellSource_register hkind
    have hops : Γ.operands (cellName, "Q") = [] :=
      operands_leaf hcell (by rw [hc]; intro _ h; cases h) (by rw [hc]; intro _ h; cases h)
    refine ⟨fun source hfeeds => ?_, fun val => ⟨cell, hcell, ?_, ?_, ?_⟩⟩
    · obtain ⟨driver, heq, operand, ho, -⟩ := (h.feeds_iff source).1 hfeeds
      cases heq
      rw [hops] at ho
      cases ho
    · rw [hc]
      trivial
    · rw [hops]
      intro operand ho
      cases ho
    · rw [hc]
      trivial

/-! ## Places that are well fed -/

/-- Whether a cell output divides by zero looks at the nets it reads. -/
theorem divisorNonzero_congr {val val' : Nat → Bool} (key : String × String) {cell : Cell}
    (hcell : Γ.module.cells.get? key.1 = some cell)
    (h : ∀ operand ∈ Γ.operands key, ∀ id, .net id ∈ operand.1 → val id = val' id) :
    Γ.DivisorNonzero val cell (Γ.cellSource key.1 cell key.2) ↔ Γ.DivisorNonzero val' cell (Γ.cellSource key.1 cell key.2) := by
  have divisor : ∀ {kind}, Γ.cellSource key.1 cell key.2 = .comb (.binary kind) →
      Γ.vectorWord val (cell.connection "B") (Γ.sourceOf cell.src) =
        Γ.vectorWord val' (cell.connection "B") (Γ.sourceOf cell.src) := by
    intro kind hc
    rw [operands_comb hcell hc] at h
    exact vectorWord_congr Γ.toSetting (h _ (List.mem_map.2 ⟨"B", by simp [CombKind.operandPorts], rfl⟩)) _
  unfold Ctx.DivisorNonzero
  split
  · rename_i hc
    rw [divisor hc]
  · rename_i hc
    rw [divisor hc]
  · rfl

/-- A place of a supported net that is well fed has a value. -/
theorem placeDefined_of_supported {driver : Driver} {cell : Cell} {val : Nat → Bool}
    (hcell : Γ.module.cells.get? driver.cellName = some cell)
    (hself : Γ.SelfSupported (driver.cellName, driver.port) cell (Γ.cellSource driver.cellName cell driver.port))
    (hconst : ∀ operand ∈ Γ.operands (driver.cellName, driver.port), Γ.ConstantsSupported operand)
    (hfed : Γ.WellFed val (.output driver)) : Γ.PlaceDefined val (.output driver) := by
  refine ⟨cell, hcell, hself, fun operand ho => ?_, hfed.2 cell hcell⟩
  obtain ⟨hne, hsupported⟩ := hconst operand ho
  refine ⟨hne, fun bit hbit hc => ?_⟩
  rcases hsupported bit hbit hc with hwhole | hclaimed
  · exact hfed.1 operand ho hwhole bit hbit hc
  · exact hclaimed

/-- A place that has a value is well fed. -/
theorem wellFed_of_placeDefined {val : Nat → Bool} (h : Γ.PlaceDefined val place) : Γ.WellFed val place := by
  cases place with
  | input name width offset => trivial
  | output driver =>
    obtain ⟨cell, hcell, -, hconst, hdivisor⟩ := h
    refine ⟨fun operand ho _ bit hbit hc => (hconst operand ho).2 bit hbit hc, fun cell' hcell' => ?_⟩
    cases Option.some.inj (hcell.symm.trans hcell')
    exact hdivisor

/-- Whether a place is well fed looks at the nets that are read to give its net a value. -/
theorem wellFed_congr {val val' : Nat → Bool} (h : Γ.SoleDriver id place)
    (hval : ∀ source, Γ.Feeds source id → val source = val' source) (hfed : Γ.WellFed val place) : Γ.WellFed val' place := by
  cases place with
  | input name width offset => trivial
  | output driver =>
    refine ⟨hfed.1, fun cell hcell => ?_⟩
    refine (divisorNonzero_congr (driver.cellName, driver.port) hcell ?_).1 (hfed.2 cell hcell)
    intro operand ho source hsource
    exact hval source ((h.feeds_iff source).2 ⟨driver, rfl, operand, ho, hsource⟩)

end DefinednessAux

open DefinednessAux

namespace Ctx

variable {Γ : Ctx} {σ : Hw.St} {id : Nat} {place : Place}

/-! ## A net is given one value -/

/-- What gives a net its value: the place it is driven from. -/
theorem Gives.inv {b : Bool} (hb : Γ.Gives σ id b) (h : Γ.SoleDriver id place) :
    ∃ val, Γ.PlaceDefined val place ∧ (∀ source, Γ.Feeds source id → Γ.Gives σ source (val source)) ∧
      b = Γ.placeValue σ val place := by
  cases hb with
  | place h' hdefined hval =>
    obtain rfl := h.eq_of_mem h'.mem
    exact ⟨_, hdefined, hval, rfl⟩

theorem Gives.soleDriver {b : Bool} (h : Γ.Gives σ id b) : ∃ place, Γ.SoleDriver id place := by
  cases h with
  | place h _ _ => exact ⟨_, h⟩

/-- A net is given at most one value in a state. -/
theorem Gives.unique {b b' : Bool} (h : Γ.Gives σ id b) (h' : Γ.Gives σ id b') : b = b' := by
  induction h generalizing b' with
  | place hsole _ _ ih =>
    obtain ⟨val', -, hval', rfl⟩ := h'.inv hsole
    exact placeValue_congr hsole.mem fun source hs => ih source hs (hval' source hs)

/-! ## Supported and well driven -/

/-- A supported net with a well driven cone is given a value in every state. -/
theorem Supported.defined {s₀ : State} (hp : Prepared Γ.toSetting Γ s₀) (h : Γ.Supported id) (hcone : Γ.WellDrivenCone id) :
    Γ.Defined id := by
  intro σ
  -- by induction on what supports the net: the values of the nets it reads are chosen first
  induction h with
  | @named id hnamed _ =>
    obtain ⟨place, hsole, -⟩ := hcone id Relation.ReflTransGen.refl
    obtain ⟨hnone, hdefined⟩ := named_place hp hsole hnamed
    exact ⟨_, Gives.place hsole (hdefined fun _ => false) fun source hs => absurd hs (hnone source)⟩
  | @output id key cell _ hd _ hcell hself hconst _ ih =>
    obtain ⟨place, hsole, hfed⟩ := hcone id Relation.ReflTransGen.refl
    obtain ⟨cell', hcell', hport, hmem⟩ := hd
    obtain ⟨offset, hoffset⟩ := List.mem_iff_getElem?.1 hmem
    obtain rfl := hsole.eq_of_mem (mem_places_output hcell' hport hoffset)
    have hgiven : ∀ source, Γ.Feeds source id → ∃ b, Γ.Gives σ source b := by
      intro source hfeeds
      obtain ⟨driver, heq, operand, ho, hsource⟩ := (hsole.feeds_iff source).1 hfeeds
      cases heq
      exact ih operand ho source hsource fun u hu => hcone u (hu.tail hfeeds)
    classical
    let val : Nat → Bool := fun source => if hs : Γ.Feeds source id then (hgiven source hs).choose else false
    have hval : ∀ source, Γ.Feeds source id → Γ.Gives σ source (val source) := by
      intro source hs
      simp only [val, dif_pos hs]
      exact (hgiven source hs).choose_spec
    exact ⟨_, Gives.place hsole (placeDefined_of_supported hcell hself hconst (hfed σ val hval)) hval⟩

/-- What is read to give a defined net its value is defined. -/
theorem Defined.feeds {source : Nat} (h : Γ.Defined id) (hs : Γ.Feeds source id) : Γ.Defined source := by
  intro σ
  obtain ⟨b, hb⟩ := h σ
  obtain ⟨place, hsole⟩ := hb.soleDriver
  obtain ⟨val, -, hval, -⟩ := hb.inv hsole
  exact ⟨_, hval source hs⟩

/-- A defined net is well driven. -/
theorem Defined.wellDriven (h : Γ.Defined id) : Γ.WellDriven id := by
  obtain ⟨b, hb⟩ := h ⟨fun _ _ => 0, fun _ _ _ => 0⟩
  obtain ⟨place, hsole⟩ := hb.soleDriver
  refine ⟨place, hsole, fun σ val hval => ?_⟩
  obtain ⟨b', hb'⟩ := h σ
  obtain ⟨val', hdefined, hval', -⟩ := hb'.inv hsole
  exact wellFed_congr hsole (fun source hs => (hval' source hs).unique (hval source hs)) (wellFed_of_placeDefined hdefined)

/-- The cone of a defined net is well driven. -/
theorem Defined.wellDrivenCone (h : Γ.Defined id) : Γ.WellDrivenCone id := by
  intro source hpath
  have hsource : Γ.Defined source := by
    induction hpath using Relation.ReflTransGen.head_induction_on with
    | refl => exact h
    | head hstep _ ih => exact ih.feeds hstep
  exact hsource.wellDriven

/-- The netlist defines a supported bit exactly when it is well driven. -/
theorem bitDefined_iff {s₀ : State} (hp : Prepared Γ.toSetting Γ s₀) {operand : List Bit × SourceLocation} {bit : Bit}
    (h : Γ.BitSupported operand bit) : Γ.BitDefined operand bit ↔ Γ.BitWellDriven operand bit := by
  cases bit with
  | net id => exact ⟨Defined.wellDrivenCone, Supported.defined hp h⟩
  | const value =>
    refine ⟨fun hd _ => hd, fun hw => ?_⟩
    rcases h with hwhole | hclaimed
    · exact hw hwhole
    · exact hclaimed

end Ctx

/-! ## The result -/

/-- A request from a reachable state settles exactly when nothing undriven is called for and the bits of its vector that are
supported are well driven. -/
theorem settles_iff (Γ : Setting) {s : State} (hs : Γ.Reachable s) (bits : List Bit) (src : SourceLocation) :
    Γ.Settles s bits src ↔ Γ.ctx.DrivenCone [] bits ∧
      ∀ bit ∈ bits, Γ.ctx.BitSupported (bits, src) bit → Γ.ctx.BitWellDriven (bits, src) bit := by
  have hp := prepared_ctx Γ
  constructor
  · rintro ⟨⟨e, s', hreturns⟩, hsettled⟩
    refine ⟨(returns_iff_drivenCone hs bits src).1 ⟨e, s', hreturns⟩, fun bit hbit hsupported => ?_⟩
    rcases hsettled e s' hreturns bit hbit with hdefined | ⟨r, -, hblocks⟩
    · exact (Ctx.bitDefined_iff hp hsupported).1 hdefined
    · exact absurd hsupported hblocks.not_supported
  · rintro ⟨hcone, hdriven⟩
    refine ⟨(returns_iff_drivenCone hs bits src).2 hcone, fun e s' hreturns bit hbit => ?_⟩
    rcases (vectorDone_of_reachable hs hreturns).2.2.2 bit hbit with hsupported | hblocked
    · exact Or.inl ((Ctx.bitDefined_iff hp hsupported).2 (hdriven bit hbit hsupported))
    · exact Or.inr hblocked

/-! ## Requests that settle, and requests that do not -/

namespace DefinednessAux

/-- A request does not settle when a bit of its vector is supported and not defined. -/
theorem not_settles_of_supported {Γ : Setting} {s : State} {bits : List Bit} {src : SourceLocation} {bit : Bit} (hbit : bit ∈ bits)
    (hsupported : Γ.ctx.BitSupported (bits, src) bit) (hundefined : ¬Γ.ctx.BitDefined (bits, src) bit) :
    ¬Γ.Settles s bits src := by
  rintro ⟨⟨e, s', hreturns⟩, hsettled⟩
  rcases hsettled e s' hreturns bit hbit with hdefined | ⟨r, -, hblocks⟩
  · exact hundefined hdefined
  · exact hblocks.not_supported hsupported

/-- The vectors of a list that contains the operands of its cell outputs, and none of which is split, have a driven cone. -/
theorem drivenCone_of_closed {Γ : Ctx} (vectors : List (List Bit)) (h : ∀ bits ∈ vectors, Γ.route bits ≠ .split ∧
    ∀ operand ∈ ((Γ.route bits).output?.map Γ.operands).getD [], operand.1 ∈ vectors) {bits : List Bit} (hbits : bits ∈ vectors) :
    Γ.DrivenCone [] bits := by
  refine Avoiding.clear_of_closed (p := fun bits => bits ∈ vectors) ?_ ?_ hbits
  · rintro bits' hmem ⟨id, -, hr⟩
    exact (h bits' hmem).1 hr
  · rintro bits' bits'' hmem ⟨label, hcall, -⟩
    cases hcall with
    | output hkey ho =>
      refine (h bits' hmem).2 _ ?_
      rw [hkey]
      exact ho
    | split hr _ => exact absurd hr (h bits' hmem).1

/-- A net of a module without registers is well driven when it has one place, which is an input or reads no constant that is
unknown and is no division by zero. -/
theorem wellDriven_of_place {Γ : Ctx} {id : Nat} (place : Place) (hnone : Γ.sequentialCells = [])
    (hplaces : (Γ.places.filter fun entry => entry.1 = .net id) = [(.net id, place)])
    (hfed : ∀ val, Γ.WellFed val place) : Γ.WellDriven id := by
  refine ⟨place, ⟨hplaces, fun {cellName cell} hcell hkind _ => ?_⟩, fun σ val _ => hfed val⟩
  obtain ⟨kind, hkind⟩ := Option.isSome_iff_exists.1 hkind
  have hmem : (cellName, cell, kind) ∈ Γ.sequentialCells := mem_sequentialCells.2 ⟨hcell, hkind⟩
  rw [hnone] at hmem
  cases hmem

end DefinednessAux

/-- A module that inverts an input of two bits and divides the result. -/
def divider (dividend divisor : List Bit) : Setting where
  name := "top"
  module := {
    src := "top.v:1.1-6.10"
    ports := ⟨[("a", ⟨"input", [.net 2, .net 3]⟩), ("y", ⟨"output", [.net 6, .net 7]⟩)], by decide⟩
    netnames := Dict.empty
    cells := ⟨[("n", {
      type := "$not"
      src := "top.v:3.14-3.16"
      parameters := Dict.empty
      portDirections := ⟨[("A", "input"), ("Y", "output")], by decide⟩
      connections := ⟨[("A", [.net 2, .net 3]), ("Y", [.net 4, .net 5])], by decide⟩ }),
      ("d", {
      type := "$div"
      src := "top.v:4.14-4.20"
      parameters := Dict.empty
      portDirections := ⟨[("A", "input"), ("Y", "output"), ("B", "input")], by decide⟩
      connections := ⟨[("A", dividend), ("B", divisor), ("Y", [.net 6, .net 7])], show ["A", "B", "Y"].Nodup by decide⟩ })],
      show ["n", "d"].Nodup by decide⟩ }
  modules := ["top"]
  policy := none
  sha256 := fun text => text

/-- The inverted input is divided by two. -/
def dividedByTwo : Setting := divider [.net 4, .net 5] [.const '0', .const '1']

namespace DefinednessAux

/-- A constant divisor does not look at the nets. -/
theorem divisor_word (Γ : Setting) (val : Nat → Bool) (src : SourceLocation) (low high : Char) :
    Γ.vectorWord val [.const low, .const high] src = Γ.vectorWord (fun _ => false) [.const low, .const high] src :=
  vectorWord_congr Γ (fun id hid => by simp at hid) src

/-- The nets of that module are well driven. -/
theorem dividedByTwo_wellDriven : ∀ id ∈ [2, 3, 4, 5, 6, 7], dividedByTwo.ctx.WellDriven id := by
  have hnone : dividedByTwo.ctx.sequentialCells = [] := by decide +kernel
  have hnot : ∀ val offset, dividedByTwo.ctx.WellFed val (.output ⟨"n", "Y", offset⟩) := by
    refine fun val offset => ⟨?_, fun cell hcell => ?_⟩
    · have h : ∀ operand ∈ dividedByTwo.ctx.operands ("n", "Y"), ∀ bit ∈ operand.1, bit.isConst = true →
          dividedByTwo.ctx.ConstantClaimed operand bit := by decide +kernel
      exact fun operand ho _ => h operand ho
    · cases hcell
      trivial
  have hdiv : ∀ val offset, dividedByTwo.ctx.WellFed val (.output ⟨"d", "Y", offset⟩) := by
    refine fun val offset => ⟨?_, fun cell hcell => ?_⟩
    · have h : ∀ operand ∈ dividedByTwo.ctx.operands ("d", "Y"), ∀ bit ∈ operand.1, bit.isConst = true →
          dividedByTwo.ctx.ConstantClaimed operand bit := by decide +kernel
      exact fun operand ho _ => h operand ho
    · cases hcell
      change dividedByTwo.ctx.vectorWord val [.const '0', .const '1'] _ ≠ 0
      rw [divisor_word]
      decide +kernel
  intro id hid
  simp only [List.mem_cons, List.not_mem_nil, or_false] at hid
  rcases hid with rfl | rfl | rfl | rfl | rfl | rfl
  · exact wellDriven_of_place (.input "a" 2 0) hnone (by decide +kernel) fun _ => trivial
  · exact wellDriven_of_place (.input "a" 2 1) hnone (by decide +kernel) fun _ => trivial
  · exact wellDriven_of_place (.output ⟨"n", "Y", 0⟩) hnone (by decide +kernel) fun val => hnot val 0
  · exact wellDriven_of_place (.output ⟨"n", "Y", 1⟩) hnone (by decide +kernel) fun val => hnot val 1
  · exact wellDriven_of_place (.output ⟨"d", "Y", 0⟩) hnone (by decide +kernel) fun val => hdiv val 0
  · exact wellDriven_of_place (.output ⟨"d", "Y", 1⟩) hnone (by decide +kernel) fun val => hdiv val 1

end DefinednessAux

/-- The request for the output of that module settles. -/
theorem settles_divided : dividedByTwo.Settles dividedByTwo.start [.net 6, .net 7] dividedByTwo.moduleSource := by
  have hcone : dividedByTwo.ctx.DrivenCone [] [.net 6, .net 7] :=
    drivenCone_of_closed [[.net 2, .net 3], [.net 4, .net 5], [.const '0', .const '1'], [.net 6, .net 7]]
      (by decide +kernel) (by decide)
  have hread : ∀ id ∈ dividedByTwo.ctx.readNets, id ∈ [2, 3, 4, 5, 6, 7] := by decide +kernel
  have hdriven : ∀ id ∈ [2, 3, 4, 5, 6, 7], dividedByTwo.ctx.WellDrivenCone id := by
    intro id hid source hpath
    refine dividedByTwo_wellDriven source ?_
    rcases hpath.cases_head with rfl | ⟨next, hfeeds, -⟩
    · exact hid
    · exact hread source (Ctx.mem_readNets hfeeds)
  refine (settles_iff dividedByTwo Setting.Reachable.start _ _).2 ⟨hcone, fun bit hbit _ => ?_⟩
  simp only [List.mem_cons, List.not_mem_nil, or_false] at hbit
  rcases hbit with rfl | rfl
  · exact hdriven 6 (by decide)
  · exact hdriven 7 (by decide)

/-- A module with an output that nothing drives. -/
def undrivenOutput : Setting where
  name := "top"
  module := {
    src := "top.v:1.1-4.10"
    ports := ⟨[("a", ⟨"input", [.net 2]⟩), ("y", ⟨"output", [.net 3]⟩)], by decide⟩
    netnames := ⟨[("a", ⟨[.net 2], "top.v:1.18-1.19", none⟩), ("y", ⟨[.net 3], "top.v:1.28-1.29", none⟩)], by decide⟩
    cells := Dict.empty }
  modules := ["top"]
  policy := none
  sha256 := fun text => text

/-- A module that inverts one input. -/
def inverter (operand result : List Bit) : Setting where
  name := "top"
  module := {
    src := "top.v:1.1-5.10"
    ports := ⟨[("a", ⟨"input", [.net 2]⟩), ("b", ⟨"input", [.net 3]⟩), ("y", ⟨"output", result⟩)], by simp⟩
    netnames := Dict.empty
    cells := ⟨[("n", {
      type := "$not"
      src := "top.v:3.14-3.16"
      parameters := Dict.empty
      portDirections := ⟨[("A", "input"), ("Y", "output")], by decide⟩
      connections := ⟨[("A", operand), ("Y", result)], by simp⟩ })], by simp⟩ }
  modules := ["top"]
  policy := none
  sha256 := fun text => text

/-- The inverter drives the net of an input. -/
def drivenInput : Setting := inverter [.net 3] [.net 2]

/-- The inverter drives a vector with an unknown constant in it. -/
def hiddenUnknown : Setting := inverter [.net 2, .net 3] [.net 4, .const 'x']

/-- The input is divided by zero. -/
def dividedByZero : Setting := divider [.net 2, .net 3] [.const '0', .const '0']

namespace DefinednessAux

/-- A net of an input port that at most one cell drives is supported. -/
theorem supported_input {Γ : Ctx} {id : Nat} (vector : List Bit) (hvector : vector ∈ Γ.inputs.keys) (hid : .net id ∈ vector)
    (honce : (Γ.drivenBits.filter fun driven => driven.1 = .net id).length ≤ 1) : Γ.Supported id :=
  Ctx.Supported.named ⟨vector, Or.inl hvector, hid⟩ (not_drivenAgain honce)

theorem not_defined_driven : ¬drivenInput.ctx.Defined 2 := by
  intro h
  obtain ⟨place, hsole, -⟩ := h.wellDriven
  have hlength : (drivenInput.ctx.places.filter fun entry => entry.1 = .net 2).length = 2 := by decide +kernel
  rw [hsole.places_eq] at hlength
  cases hlength

theorem supported_zero : dividedByZero.ctx.Supported 6 := by
  have hvector : [Bit.net 2, Bit.net 3] ∈ dividedByZero.ctx.inputs.keys := by decide +kernel
  have hnamed : ¬dividedByZero.ctx.Named 6 := by
    rintro ⟨vector, hv, hid⟩
    have h : ∀ vector ∈ dividedByZero.ctx.inputs.keys ++ dividedByZero.ctx.registers.keys, Bit.net 6 ∉ vector := by
      decide +kernel
    exact h vector (List.mem_append.2 hv) hid
  have hdrives : dividedByZero.ctx.Drives ("d", "Y") 6 := ⟨_, rfl, by decide, by decide⟩
  refine Ctx.Supported.output hnamed hdrives (not_drivenAgain (by decide +kernel)) rfl (fun h => by cases h) ?_ ?_
  · have hconst : ∀ operand ∈ dividedByZero.ctx.operands ("d", "Y"), operand.1 ≠ [] ∧ ∀ bit ∈ operand.1, bit.isConst = true →
        dividedByZero.ctx.ConstantClaimed operand bit := by decide +kernel
    exact fun operand ho => ⟨(hconst operand ho).1, fun bit hbit hc => Or.inr ((hconst operand ho).2 bit hbit hc)⟩
  · intro operand ho id hid
    have hnets : ∀ operand ∈ dividedByZero.ctx.operands ("d", "Y"), ∀ bit ∈ operand.1, bit = .net 2 ∨ bit = .net 3 ∨
        bit.isConst = true := by decide +kernel
    rcases hnets operand ho _ hid with h | h | h
    · cases h
      exact supported_input _ hvector (by decide) (by decide +kernel)
    · cases h
      exact supported_input _ hvector (by decide) (by decide +kernel)
    · cases h

theorem not_defined_zero : ¬dividedByZero.ctx.Defined 6 := by
  intro h
  obtain ⟨b, hb⟩ := h ⟨fun _ _ => 0, fun _ _ _ => 0⟩
  obtain ⟨place, hsole⟩ := hb.soleDriver
  obtain rfl := hsole.eq_of_mem
    (show (Bit.net 6, Place.output ⟨"d", "Y", 0⟩) ∈ dividedByZero.ctx.places by decide +kernel)
  obtain ⟨val, ⟨cell, hcell, -, -, hdivisor⟩, -⟩ := hb.inv hsole
  cases hcell
  change dividedByZero.ctx.vectorWord val [.const '0', .const '0'] _ ≠ 0 at hdivisor
  rw [divisor_word] at hdivisor
  exact absurd (show _ = _ by decide +kernel) hdivisor

end DefinednessAux

/-- Requests that do not settle, each over a netlist the translator has no blocker for: a net that nothing drives, a net that an
input port and a cell drive, a division by zero, and an unknown constant in a vector that a cell drives as a whole. -/
theorem not_settles_missed :
    ¬undrivenOutput.Settles undrivenOutput.start [.net 3] undrivenOutput.moduleSource ∧
    ¬drivenInput.Settles drivenInput.start [.net 2] drivenInput.moduleSource ∧
    ¬dividedByZero.Settles dividedByZero.start [.net 6, .net 7] dividedByZero.moduleSource ∧
    ¬hiddenUnknown.Settles hiddenUnknown.start [.net 4, .const 'x'] hiddenUnknown.moduleSource := by
  refine ⟨?undriven, ?driven, ?zero, ?hidden⟩
  case undriven =>
    rintro ⟨⟨e, s', fuel, hreturns⟩, -⟩
    have hr : undrivenOutput.ctx.route [.net 3] = .split := by rfl
    rw [expr_undriven ⟨3, rfl, hr⟩] at hreturns
    cases hreturns
  case driven =>
    refine not_settles_of_supported List.mem_cons_self ?_ not_defined_driven
    exact supported_input [.net 2] (by decide +kernel) (by decide) (by decide +kernel)
  case zero =>
    exact not_settles_of_supported List.mem_cons_self supported_zero not_defined_zero
  case hidden =>
    have hunclaimed : ¬hiddenUnknown.ctx.ConstantClaimed ([.net 4, .const 'x'], hiddenUnknown.moduleSource) (.const 'x') := by
      decide +kernel
    refine not_settles_of_supported (List.mem_cons_of_mem _ List.mem_cons_self) ?_ hunclaimed
    exact Or.inl (Or.inr ⟨("n", "Y"), by decide +kernel⟩)

end LoomImport
