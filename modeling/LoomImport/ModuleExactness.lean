import LoomImport.ModuleLowering
import LoomImport.ModuleRuns
import LoomImport.NetlistMachine
import LoomImport.Translation

/-!
# What the parts of a lowered module do

The parts of a translated module that the lowering accepts, in a state and under the values it gives the nets: an output has the word
of its vector, a register is written the next value of its cell, and a memory the words its write ports leave. That the memories are
addressable and the vectors have the widths of the cell follows from the acceptance.
-/

namespace LoomImport

open ImportIR StateOption SoundnessAux TranslationAux LoweringAux WritesAux MemoriesAux RegistersAux DenotesAux MaskedWrites Words

/-! ## Expressions of vectors -/

/-- What is known of the expression of a vector in a module in which nothing is blocked. -/
structure KnownVector (Γ : Ctx) (σ : Hw.St) (val : Nat → Bool) (bits : List Bit) (src : SourceLocation) (e : Expr) : Prop where
  exact : VectorExact Γ σ val bits src e
  width : bits ≠ [] → e.width = bits.length
  literal : bits ≠ [] → bits.all Bit.isKnown = true → e = .literal bits.length (keyValue bits) src

namespace KnownVector

variable {Γ : Ctx} {σ : Hw.St} {val : Nat → Bool} {bits : List Bit} {src : SourceLocation} {e : Expr}

/-- An expression that lowers denotes the word of its vector. -/
theorem denotes (h : KnownVector Γ σ val bits src e) (hlow : Lowers e) : Denotes σ e (Γ.vectorWord val bits src) :=
  h.exact.denotes (h.exact.lowers hlow)

theorem denotesAt (h : KnownVector Γ σ val bits src e) (hlow : Lowers e) {w : Nat} (hw : e.width = w) :
    Denotes σ e (Γ.wordAt val bits src w) := by
  have hden := h.denotes hlow
  exact denotes_setWidth hden (hden.width_eq.symm.trans hw)

end KnownVector

/-- Two properties of the expressions of vectors. -/
def VectorSpec.and {expr : List Bit → SourceLocation → M Expr} (R R' : VectorSpec expr) : VectorSpec expr where
  Inv s := R.Inv s ∧ R'.Inv s
  Vec bits src e s := R.Vec bits src e s ∧ R'.Vec bits src e s
  run bits src s hs := wlp_mono (wlp_and (R.run bits src s hs.1) (R'.run bits src s hs.2)) fun _ _ h =>
    ⟨⟨h.1.1, h.2.1⟩, h.1.2.1, h.1.2.2, h.2.2.2⟩
  vec_grows hg h := ⟨R.vec_grows hg h.1, R'.vec_grows hg h.2⟩
  inv_record hs r := ⟨R.inv_record hs.1 r, R'.inv_record hs.2 r⟩

/-- A property of results, whatever the state. -/
def VectorSpec.strengthen {expr : List Bit → SourceLocation → M Expr} (R : VectorSpec expr) (P : List Bit → SourceLocation → Expr → Prop)
    (hP : ∀ {bits src s e s'}, expr bits src s = some (e, s') → P bits src e) : VectorSpec expr where
  Inv := R.Inv
  Vec bits src e s := R.Vec bits src e s ∧ P bits src e
  run bits src s hs := fun e s' hrun => by
    obtain ⟨hs', hg, hv⟩ := R.run bits src s hs e s' hrun
    exact ⟨hs', hg, hv, hP hrun⟩
  vec_grows hg h := ⟨R.vec_grows hg h.1, h.2⟩
  inv_record := R.inv_record

/-- A module in which nothing is blocked is the translation of its netlist, over what is known of its vectors. -/
theorem translated_known {Γ : Setting} {σ : Hw.St} {val : Nat → Bool} (h : Valuated Γ.ctx Γ.start σ val) {m : Module}
    (ht : Γ.Translates m) (hclean : m.unsupported = []) : Translated Γ.ctx (KnownVector Γ.ctx σ val) m := by
  obtain ⟨fuel, s', hrun⟩ := ht
  let R := (((exactSpec h).vectorSpec fuel).and ((widthSpec h.prepared).vectorSpec fuel)).strengthen
    (fun bits src e => bits ≠ [] → bits.all Bit.isKnown = true → e = .literal bits.length (keyValue bits) src)
    fun hrun hne hknown => expr_known hne hknown hrun
  have hstart : R.Inv Γ.start := by
    refine ⟨⟨List.Subset.refl _, fun {key e} he => ?_⟩, fun key e he => ?_⟩
    · rw [h.prepared.cache] at he
      cases he
    · rw [h.prepared.cache] at he
      cases he
  obtain ⟨-, -, hparts⟩ := R.translate hstart _ _ hrun
  obtain ⟨htranslated, hunsupported⟩ := hparts m rfl
  rw [hclean, eq_comm, List.map_eq_nil_iff] at hunsupported
  have hknown : ∀ {bits src e}, R.At s' bits src e → KnownVector Γ.ctx σ val bits src e :=
    fun hv => ⟨hv.1.1 hunsupported, hv.1.2, hv.2⟩
  exact htranslated.imp hknown

namespace ImportIR

/-- The widths of a selection that lowers. -/
theorem Lowers.mux_widths {width : Nat} {condition yes no : Expr} {source : SourceLocation}
    (h : Lowers (.mux width condition yes no source)) : condition.width = 1 ∧ yes.width = width ∧ no.width = width := by
  obtain ⟨x, h⟩ := h
  simp only [lowerExpr?] at h
  obtain ⟨c, hc, h⟩ := bind_eq_ok h
  obtain ⟨y, hy, h⟩ := bind_eq_ok h
  obtain ⟨n, hn, -⟩ := bind_eq_ok h
  have width_eq : ∀ {e : Expr} {w : Nat} {value : Hw.Expr w},
      (lowerExpr? e >>= fun value => expectWidth w value source) = .ok value → e.width = w := by
    intro e w value hvalue
    obtain ⟨lowered, hlowered, hexpected⟩ := bind_eq_ok hvalue
    rw [← lowerExpr?_width hlowered, expectWidth_eq_ok hexpected]
  exact ⟨width_eq hc, width_eq hy, width_eq hn⟩

/-- The width of an inversion that lowers. -/
theorem Lowers.bitNot_width {width : Nat} {value : Expr} {source : SourceLocation} (h : Lowers (.unary width .bitNot value source)) :
    value.width = width := by
  obtain ⟨x, h⟩ := h
  simp only [lowerExpr?] at h
  obtain ⟨lowered, hlowered, h⟩ := bind_eq_ok h
  obtain ⟨value', hvalue, -⟩ := bind_eq_ok h
  rw [← lowerExpr?_width hlowered, expectWidth_eq_ok hvalue]

/-- A register that is lowered is a write of its next value. -/
theorem lowerRegister?_ok {register : Register} {part : Hw.RegDecl × Hw.Act} (h : lowerRegister? register = .ok part) :
    ∃ next : Hw.Expr register.width, lowerExpr? register.next = .ok ⟨register.width, next⟩ ∧
      part = (register.decl, .write register.width register.name next) := by
  rw [ModuleLoweringAux.lowerRegister?_eq] at h
  obtain ⟨_, -, h⟩ := bind_eq_ok h
  obtain ⟨next, hnext, h⟩ := bind_eq_ok h
  obtain ⟨lowered, hlowered, hexpected⟩ := bind_eq_ok hnext
  cases h
  exact ⟨next, hlowered.trans (congrArg Except.ok (expectWidth_eq_ok hexpected)), rfl⟩

end ImportIR

namespace PartsAux

variable {Γ : Ctx} {s₀ : State} {σ : Hw.St} {val : Nat → Bool}

/-! ## Registers -/

theorem within_withPolarity (activeHigh : Bool) (e : Expr) (src : SourceLocation) : Within e (withPolarity activeHigh e src) := by
  unfold withPolarity
  split
  · exact Within.refl
  · exact within_unary Within.refl

/-- A control input that is one bit when it is active-high. -/
theorem width_of_withPolarity {activeHigh : Bool} {e : Expr} {src : SourceLocation} (hlow : Lowers (withPolarity activeHigh e src))
    (hwidth : (withPolarity activeHigh e src).width = 1) : e.width = 1 := by
  unfold withPolarity at hlow hwidth
  split at hlow
  · rwa [if_pos (by assumption)] at hwidth
  · exact hlow.bitNot_width

/-- The expressions of the inputs of a register whose next value lowers: they lower, and have the widths of the cell. -/
theorem nextExpr_lowers {kind : SequentialKind} {cell : Cell} {name : String} {src : SourceLocation} {operands : RegisterOperands}
    {next : Expr} (hnext : nextExpr kind cell name src operands = some next) (hlow : Lowers next)
    (hwidth : next.width = cell.registerWidth) :
    (Lowers operands.data ∧ operands.data.width = cell.registerWidth) ∧ (∀ e ∈ operands.enable, Lowers e ∧ e.width = 1) ∧
      ∀ e ∈ operands.reset, Lowers e ∧ e.width = 1 := by
  obtain ⟨data, enable, reset⟩ := operands
  have control : ∀ {activeHigh : Bool} {e yes no : Expr} {w : Nat},
      Lowers (.mux w (withPolarity activeHigh e src) yes no src) → Lowers e ∧ e.width = 1 := by
    intro activeHigh e yes no w h
    have hcondition := h.child (c := withPolarity activeHigh e src) List.mem_cons_self
    exact ⟨hcondition.within (within_withPolarity activeHigh e src), width_of_withPolarity hcondition h.mux_widths.1⟩
  have yes : ∀ {c y n : Expr} {w : Nat}, Lowers (.mux w c y n src) → Lowers y ∧ y.width = w :=
    fun h => ⟨h.child (List.mem_cons_of_mem _ List.mem_cons_self), h.mux_widths.2.1⟩
  have no : ∀ {c y n : Expr} {w : Nat}, Lowers (.mux w c y n src) → Lowers n ∧ n.width = w :=
    fun h => ⟨h.child (List.mem_cons_of_mem _ (List.mem_cons_of_mem _ List.mem_cons_self)), h.mux_widths.2.2⟩
  have none_ok : ∀ e ∈ (none : Option Expr), Lowers e ∧ e.width = 1 := fun e he => nomatch he
  have some_ok : ∀ {e : Expr}, Lowers e ∧ e.width = 1 → ∀ e' ∈ some e, Lowers e' ∧ e'.width = 1 := fun h e' he' => Option.some.inj he' ▸ h
  cases reset with
  | none =>
    cases enable with
    | none =>
      cases hnext
      exact ⟨⟨hlow, hwidth⟩, none_ok, none_ok⟩
    | some enable =>
      cases hnext
      exact ⟨yes hlow, some_ok (control hlow), none_ok⟩
  | some reset =>
    obtain ⟨literal, -, hnext⟩ := Option.bind_eq_some_iff.1 hnext
    cases enable with
    | none =>
      cases kind
      all_goals
        cases hnext
        exact ⟨no hlow, none_ok, some_ok (control hlow)⟩
    | some enable =>
      cases kind with
      | sdffce =>
        cases hnext
        have hinner := (yes hlow).1
        exact ⟨no hinner, some_ok (control hlow), some_ok (control hinner)⟩
      | dff | dffe | sdff | sdffe | adff | adffe =>
        cases hnext
        have hinner := (no hlow).1
        exact ⟨yes hinner, some_ok (control hinner), some_ok (control hlow)⟩

/-- Two cells do not share an output. -/
theorem cellName_eq_of_output (hsingle : Γ.SingleDriven) {cellName cellName' : String} {cell cell' : Cell}
    (hcell : Γ.module.cells.get? cellName = some cell) (hcell' : Γ.module.cells.get? cellName' = some cell') {port : String}
    (hport : port ∈ cell.outputs) (hport' : port ∈ cell'.outputs) (hbits : cell'.connection port = cell.connection port)
    (hne : cell.connection port ≠ []) : cellName' = cellName := by
  obtain ⟨bit, rest, hconnection⟩ := List.exists_cons_of_ne_nil hne
  have hbit : (cell.connection port)[0]? = some bit := by rw [hconnection]; rfl
  have hplace := ValuationAux.mem_places_output hcell hport hbit
  have hplace' := ValuationAux.mem_places_output hcell' hport' (hbits ▸ hbit)
  have hsame := (Dict.lookup_of_mem hsingle hplace').symm.trans (Dict.lookup_of_mem hsingle hplace)
  cases hsame
  rfl

/-- The register of a cell with an output has the name of the cell. -/
theorem registerOf_eq (h : Valuated Γ s₀ σ val) (hsingle : Γ.SingleDriven) {entry : String × Cell × SequentialKind}
    (hentry : entry ∈ Γ.sequentialCells) (hne : entry.2.1.connection "Q" ≠ []) :
    Γ.registerOf entry.1 entry.2.1 = Setting.registerName entry.1 := by
  obtain ⟨hcell, hkind⟩ := mem_sequentialCells.1 hentry
  have hQ : ∀ {cellName : String} {cell : Cell}, Γ.module.cells.get? cellName = some cell →
      (sequentialKind? cell.type).isSome = true → "Q" ∈ cell.outputs := by
    intro cellName cell hcell hkind
    rw [h.sequential_output hcell hkind]
    exact List.mem_singleton_self _
  unfold Ctx.registerOf Dict.getD
  cases hname : Γ.registers.get? (entry.2.1.connection "Q") with
  | none => rfl
  | some name =>
    rw [h.prepared.registers] at hname
    obtain ⟨cellName, cell, hcell', hkind', hbits, rfl⟩ := registers_mem hname
    rw [cellName_eq_of_output hsingle hcell hcell' (hQ hcell (Option.isSome_of_eq_some hkind)) (hQ hcell' hkind') hbits hne]
    rfl

/-- A reset value that has a literal is the known one. -/
theorem literal_denotes {cell : Cell} {src : SourceLocation} {literal : Expr} (hpos : 0 < cell.registerWidth)
    (h : integerLiteral? cell.registerWidth (cell.parameter "SRST_VALUE" 0) src = some literal) :
    Denotes σ literal (BitVec.ofNat cell.registerWidth (cell.parameter "SRST_VALUE" 0).toNat) ∧
      ∀ known ∈ cell.resetValue?, BitVec.ofNat cell.registerWidth (cell.parameter "SRST_VALUE" 0).toNat = known := by
  unfold integerLiteral? at h
  split at h
  · rename_i hsign
    cases h
    exact ⟨Denotes.literal hpos _ src, fun known hknown => resetValue_eq hknown hsign⟩
  · cases h

/-- A cell with a synchronous reset has a literal for its reset value. -/
theorem exists_literal {kind : SequentialKind} {cell : Cell} {name : String} {src : SourceLocation} {operands : RegisterOperands}
    {next : Expr} (hnext : nextExpr kind cell name src operands = some next) (hreset : operands.reset.isSome = true) :
    ∃ literal, integerLiteral? cell.registerWidth (cell.parameter "SRST_VALUE" 0) src = some literal := by
  obtain ⟨reset, hr⟩ := Option.isSome_iff_exists.1 hreset
  unfold nextExpr at hnext
  rw [hr] at hnext
  obtain ⟨literal, hliteral, -⟩ := Option.bind_eq_some_iff.1 hnext
  exact ⟨literal, hliteral⟩

/-- A register that is lowered is written the next value of its cell. -/
theorem register_next (h : Valuated Γ s₀ σ val) (hsingle : Γ.SingleDriven) {entry : String × Cell × SequentialKind}
    (hentry : entry ∈ Γ.sequentialCells) (hpolarities : entry.2.1.PolaritiesFormed) {operands : RegisterOperands}
    (hparts : RegisterParts (KnownVector Γ σ val) entry.2.1 entry.2.2 (Γ.sourceOf entry.2.1.src) operands) {register : Register}
    (hover : Γ.registerOver entry.1 entry.2.1 entry.2.2 operands = some register) {part : Hw.RegDecl × Hw.Act}
    (hlow : lowerRegister? register = .ok part) :
    ∃ next : Hw.Expr entry.2.1.registerWidth,
      part = (⟨Setting.registerName entry.1, entry.2.1.registerWidth, 0⟩, .write entry.2.1.registerWidth (Setting.registerName entry.1) next) ∧
      ∃ resetValue, (entry.2.2.hasSyncReset = true → ∀ known ∈ entry.2.1.resetValue?, resetValue = known) ∧
        next.eval σ = entry.2.2.next (σ.regs (Setting.registerName entry.1) entry.2.1.registerWidth) (Γ.registerValues val entry.2.1).data
          resetValue (isActive (entry.2.1.polarity "EN_POLARITY") (Γ.registerValues val entry.2.1).enable)
          (isActive (entry.2.1.polarity "SRST_POLARITY") (Γ.registerValues val entry.2.1).reset) := by
  obtain ⟨nextExpr', hnext, hregister⟩ := Option.bind_eq_some_iff.1 hover
  cases hregister
  obtain ⟨next, hlowered, rfl⟩ := lowerRegister?_ok hlow
  have hlowers : Lowers nextExpr' := ⟨_, hlowered⟩
  have hwidth : nextExpr'.width = entry.2.1.registerWidth := (lowerExpr?_width hlowered).symm
  obtain ⟨⟨hdata, hdwidth⟩, henable, hreset⟩ := nextExpr_lowers hnext hlowers hwidth
  have hdenotes := hparts.data.denotesAt hdata hdwidth
  have hne : entry.2.1.connection "Q" ≠ [] := List.length_pos_iff.1 hdenotes.pos
  have hname := registerOf_eq h hsingle hentry hne
  have hdata : Denotes σ operands.data (Γ.registerValues val entry.2.1).data := hdenotes
  refine ⟨next, ?_, BitVec.ofNat _ (entry.2.1.parameter "SRST_VALUE" 0).toNat, fun hsync => ?_, ?_⟩
  · simp only [hname]
    rfl
  · obtain ⟨literal, hliteral⟩ := exists_literal hnext (hparts.reset_isSome.trans hsync)
    exact (literal_denotes (σ := σ) hdata.pos hliteral).2
  · rw [hname] at hnext
    have hden := nextExpr_denotes_over hnext hparts.enable_isSome hparts.reset_isSome (registerName_ne entry.1)
      (fun _ literal hliteral => (literal_denotes hdata.pos hliteral).1) hdata
      (fun e he => (hparts.enable e he).denotesAt (henable e he).1 (henable e he).2)
      (fun e he => (hparts.reset e he).denotesAt (hreset e he).1 (hreset e he).2)
    rw [activeHigh_eq hpolarities (by simp), activeHigh_eq hpolarities (by simp)] at hden
    obtain ⟨le, hle, hvalue⟩ := hden
    have hsame : next = le := by
      have heq := hlowered.symm.trans hle
      cases heq
      rfl
    rw [hsame]
    exact hvalue

/-! ## Outputs -/

/-- An output that is lowered has the word of its vector. -/
theorem output_value {entry : String × ModulePort} {output : Output} (h : OutputExpr Γ (KnownVector Γ σ val) entry output)
    {lowered : Hw.CombOutput} (hlow : lowerOutput? output = .ok lowered) :
    (lowered.name, (⟨lowered.width, lowered.value.eval σ⟩ : (w : Nat) × BitVec w)) =
      (entry.1, ⟨entry.2.bits.length, Γ.vectorWord val entry.2.bits (Γ.sourceForBits entry.2.bits)⟩) := by
  obtain ⟨value, hknown, rfl⟩ := h
  obtain ⟨value', hvalue, hlow⟩ := bind_eq_ok hlow
  obtain ⟨x, hx, hexpected⟩ := bind_eq_ok hvalue
  cases hlow
  have heq := expectWidth_eq_ok hexpected
  subst heq
  obtain ⟨le, hle, heval⟩ := hknown.denotes ⟨_, hx⟩
  rw [hx] at hle
  cases hle
  rw [← heval]

/-! ## Memories -/

section Memories

variable {info : MemoryInfo}

/-- The mask and the data of a port are part of those of another. -/
structure Covers (port whole : WritePort) : Prop where
  mask : Within port.mask whole.mask
  data : Within port.data whole.data

theorem Covers.refl (port : WritePort) : Covers port port := ⟨Within.refl, Within.refl⟩

/-- A merge contains what it merges. -/
theorem within_mergeExpr (info : MemoryInfo) {c old mask data : Expr} (h : Within c old ∨ Within c data) :
    Within c (info.mergeExpr old mask data) := by
  unfold MemoryInfo.mergeExpr
  rcases h with h | h
  · exact within_binary (Or.inl (within_binary (Or.inl h)))
  · exact within_binary (Or.inr (within_binary (Or.inl h)))

theorem Covers.join {port old new : WritePort} (h : Covers port old ∨ Covers port new) : Covers port (info.joinPorts old new) := by
  rcases h with h | h
  · exact ⟨within_binary (Or.inl h.mask), within_mergeExpr info (Or.inl h.data)⟩
  · exact ⟨within_binary (Or.inr h.mask), within_mergeExpr info (Or.inr h.data)⟩

/-- A port that joins a group, and the ports that are in one, are covered by the groups. -/
theorem covered_groupPort {d : Dict (List Bit) WritePort} {port new : WritePort} (hkey : new.key.isSome = true)
    (h : port = new ∨ ∃ whole ∈ d.values, Covers port whole) : ∃ whole ∈ (info.groupPort d new).values, Covers port whole := by
  obtain ⟨key, hkey⟩ := Option.isSome_iff_exists.1 hkey
  have hgroup : info.groupPort d new = d.upsert info.joinPorts key new := by
    unfold MemoryInfo.groupPort
    rw [hkey]
  rw [hgroup]
  rcases h with rfl | ⟨whole, hwhole, hcovers⟩
  · obtain ⟨whole, hwhole, hjoined⟩ := Dict.mem_values_upsert_new info.joinPorts d key port
    rcases hjoined with rfl | ⟨old, rfl⟩
    · exact ⟨_, hwhole, Covers.refl _⟩
    · exact ⟨_, hwhole, Covers.join (Or.inr (Covers.refl _))⟩
  · rcases Dict.mem_values_upsert_old info.joinPorts key new hwhole with hmem | hmem
    · exact ⟨whole, hmem, hcovers⟩
    · exact ⟨_, hmem, Covers.join (Or.inl hcovers)⟩

/-- Every port is covered by one of the grouped ports, and one that has no key is there itself. -/
theorem covered_groupPorts {ports : List WritePort} {port : WritePort} (hport : port ∈ ports) :
    ∃ whole ∈ info.groupPorts ports, Covers port whole ∧ (port.key = none → whole.address = port.address) := by
  have hgroup : ∀ (l : List WritePort) (d : Dict (List Bit) WritePort), (∀ p ∈ l, p.key.isSome = true) →
      (port ∈ l ∨ ∃ whole ∈ d.values, Covers port whole) → ∃ whole ∈ (l.foldl info.groupPort d).values, Covers port whole := by
    intro l
    induction l with
    | nil => exact fun d _ h => h.resolve_left List.not_mem_nil
    | cons new l ih =>
      intro d hl h
      refine ih _ (fun p hp => hl p (List.mem_cons_of_mem _ hp)) ?_
      rcases h with h | h
      · rcases List.mem_cons.1 h with rfl | h
        · exact Or.inr (covered_groupPort (hl _ List.mem_cons_self) (Or.inl rfl))
        · exact Or.inl h
      · exact Or.inr (covered_groupPort (hl _ List.mem_cons_self) (Or.inr h))
  rw [← List.takeWhile_append_dropWhile (p := fun p : WritePort => p.key.isSome) (l := ports)] at hport
  rcases List.mem_append.1 hport with hport | hport
  · have hkeys : ∀ p ∈ ports.takeWhile fun p => p.key.isSome, p.key.isSome = true := List.all_eq_true.1 List.all_takeWhile
    obtain ⟨whole, hwhole, hcovers⟩ := hgroup _ Dict.empty hkeys (Or.inl hport)
    refine ⟨whole, List.mem_append_left _ hwhole, hcovers, fun hnone => ?_⟩
    have hsome := hkeys port hport
    rw [hnone] at hsome
    cases hsome
  · exact ⟨port, List.mem_append_right _ hport, Covers.refl port, fun _ => rfl⟩

/-- Every port has a write that contains it. -/
theorem mem_completeWrites {whole : WritePort} {rest : List WritePort} (h : whole ∈ rest) (earlier : List WritePort) :
    ∃ write ∈ info.completeWrites earlier rest, Within whole.mask write.enable ∧ Within whole.data write.data ∧
      write.address = whole.address := by
  induction rest generalizing earlier with
  | nil => cases h
  | cons port rest ih =>
    rcases List.mem_cons.1 h with rfl | h
    · exact ⟨_, List.mem_cons_self, within_unary Within.refl, within_mergeExpr info (Or.inr Within.refl), rfl⟩
    · obtain ⟨write, hwrite, hparts⟩ := ih h (earlier ++ [port])
      exact ⟨write, List.mem_cons_of_mem _ hwrite, hparts⟩

/-- The writes of a memory that is lowered lower. -/
theorem lowerMemory?_lowers {memory : Memory} {acts : List Hw.Act} (h : lowerMemory? memory = .ok acts) {write : MemoryWrite}
    (hwrite : write ∈ memory.writes) : Lowers write.enable ∧ Lowers write.address ∧ Lowers write.data := by
  obtain ⟨_, -, h⟩ := bind_eq_ok h
  obtain ⟨act, hact⟩ := ModuleLoweringAux.mapM_ok_of_mem h hwrite
  obtain ⟨enable, henable, hact⟩ := bind_eq_ok hact
  obtain ⟨address, haddress, hact⟩ := bind_eq_ok hact
  obtain ⟨data, hdata, -⟩ := bind_eq_ok hact
  obtain ⟨e, he, -⟩ := bind_eq_ok henable
  obtain ⟨a, ha, -⟩ := bind_eq_ok haddress
  obtain ⟨d, hd, -⟩ := bind_eq_ok hdata
  exact ⟨⟨e, he⟩, ⟨a, ha⟩, ⟨d, hd⟩⟩

/-- The expressions of the ports of a memory that is lowered lower. -/
theorem writeOperands_lower {operands : List WriteOperands}
    (hstatic : List.Forall₂ (StaticOperands info) (List.range info.writePorts) operands) {acts : List Hw.Act}
    (h : lowerMemory? (info.memory (List.zipWith info.writePort (List.range info.writePorts) operands)) = .ok acts) :
    ∀ o ∈ operands, Lowers o.full ∧ Lowers o.enable ∧ Lowers o.data := by
  intro o ho
  obtain ⟨i, hi, rfl⟩ := List.getElem_of_mem ho
  have hrange : i < (List.range info.writePorts).length := hstatic.length_eq ▸ hi
  have hport : info.writePort (List.range info.writePorts)[i] operands[i] ∈
      List.zipWith info.writePort (List.range info.writePorts) operands := by
    refine List.mem_of_getElem? (i := i) ?_
    rw [List.getElem?_zipWith, List.getElem?_eq_getElem hrange, List.getElem?_eq_getElem hi]
  obtain ⟨whole, hwhole, hcovers, haddress⟩ := @covered_groupPorts info _ _ hport
  obtain ⟨write, hwrite, hmask, hdata, hwriteAddress⟩ := mem_completeWrites hwhole []
  obtain ⟨hlowEnable, hlowAddress, hlowData⟩ := lowerMemory?_lowers h hwrite
  have hlowMask := hlowEnable.within (hcovers.mask.trans hmask)
  refine ⟨?_, ?_, hlowData.within (hcovers.data.trans hdata)⟩
  · by_cases hw : info.abits = info.addressWidth
    · cases hkey : info.staticKey (List.range info.writePorts)[i] with
      | none =>
        rw [hwriteAddress, haddress hkey] at hlowAddress
        exact hlowAddress.within (within_sliceExpr Within.refl 0 _)
      | some raw =>
        have hliteral : operands[i].full = _ := hstatic.get hrange hi raw hkey
        rw [hliteral]
        exact (Denotes.literal (σ := ⟨fun _ _ => 0, fun _ _ _ => 0⟩) info.shape.abits_pos _ _).lowers
    · unfold MemoryInfo.writePort at hlowMask
      simp only [if_neg hw] at hlowMask
      exact hlowMask.within ((within_binary (Or.inl Within.refl)).child List.mem_cons_self)
  · unfold MemoryInfo.writePort at hlowMask
    by_cases hw : info.abits = info.addressWidth
    · simpa only [if_pos hw] using hlowMask
    · simp only [if_neg hw] at hlowMask
      exact hlowMask.within (Within.refl.child (List.mem_cons_of_mem _ List.mem_cons_self))

/-- A memory powers up with the known bits of its image. -/
theorem image_bit {Γ : Setting} (h : Readable Γ info) {a i : Nat} (ha : a < info.size) (hi : i < info.width) {bit : Bit}
    (hbit : info.initBits[a * info.width + i]? = some bit) (hknown : bit.isKnown = true) :
    ((info.memory []).decl.init a).getLsbD i = bit.isOne := by
  have hlt : a * info.width + i < info.initBits.length := (List.getElem?_eq_some_iff.1 hbit).1
  have hne : info.initBits ≠ [] := List.length_pos_iff.1 (Nat.zero_lt_of_lt hlt)
  obtain ⟨n, hbits, hexpr⟩ := ConstantsAux.constantExpr_cases Γ hne h.init_const h.init_ok
  have hpacked : info.packedInit = n := by
    unfold MemoryInfo.packedInit
    rw [h.init_eq]
    rcases hexpr with hexpr | ⟨choice, -, rfl, hexpr⟩ <;> rw [hexpr]
  have hunknown : bit.isUnknown = false := by
    cases bit with
    | net id => rfl
    | const c =>
      simp only [Bit.isKnown, Bool.or_eq_true, decide_eq_true_eq] at hknown
      rcases hknown with rfl | rfl <;> rfl
  have hfilled : bit.filled (Γ.constantFill info.initBits info.source) = bit.isOne :=
    ConstantsAux.filled_known (List.all_eq_true.1 h.init_const bit (List.mem_of_getElem? hbit)) hunknown _
  have hword : (info.memory []).init.getD a 0 = (n >>> (a * info.width)) &&& (2 ^ info.width - 1) := by
    unfold MemoryInfo.memory
    rw [List.getD_eq_getElem?_getD, List.getElem?_map, List.getElem?_range ha, hpacked]
    rfl
  show (BitVec.ofNat info.width ((info.memory []).init.getD a 0)).getLsbD i = bit.isOne
  rw [hword, BitVec.getLsbD_ofNat, Nat.testBit_and, Nat.testBit_shiftRight, Nat.testBit_two_pow_sub_one, hbits _ hlt, hbit]
  simp [hi, hfilled]

/-- The actions of a memory leave it as its ports do, and everything else as it was. -/
structure MemoryEffect (Γ : Ctx) (σ : Hw.St) (val : Nat → Bool) (info : MemoryInfo) (acts : List Hw.Act) : Prop where
  view_eq : ∀ acc : Hw.St, view info acc = view info σ → view info (acts.foldl (fun s act => act.run σ s) acc) =
    sourceWrites ((List.range info.writePorts).map (Γ.portValue val info)) (view info σ)
  other : ∀ (acc : Hw.St) name a w, name ≠ info.loomName →
    (acts.foldl (fun s act => act.run σ s) acc).mems name a w = acc.mems name a w
  regs : ∀ acc : Hw.St, (acts.foldl (fun s act => act.run σ s) acc).regs = acc.regs

/-- The values of the ports, where their expressions lower. -/
theorem portValues_denote {l : List Nat} (hl : ∀ port ∈ l, port < info.writePorts) {operands : List WriteOperands}
    (hparts : List.Forall₂ (WriteParts (KnownVector Γ σ val) info) l operands)
    (hlow : ∀ o ∈ operands, Lowers o.full ∧ Lowers o.enable ∧ Lowers o.data) :
    List.Forall₂ (fun o (value : PortValue info) => Denotes σ o.full value.address ∧ Denotes σ o.enable value.enable ∧
      Denotes σ o.data value.data) operands (l.map (Γ.portValue val info)) := by
  have vector : ∀ {packed : List Bit} {width port : Nat} {src : SourceLocation} {e : Expr}, port < info.writePorts →
      packed.length = info.writePorts * width → 0 < width →
      KnownVector Γ σ val (portBits packed port width) src e → Lowers e → Denotes σ e (Γ.wordAt val (portBits packed port width) src width) := by
    intro packed width port src e hport hpacked hpos hknown hlow
    have hlength := portBits_length hpacked hport
    refine hknown.denotesAt hlow ((hknown.width ?_).trans hlength)
    rw [← List.length_pos_iff, hlength]
    exact hpos
  induction hparts with
  | nil => exact List.Forall₂.nil
  | @cons port o l operands hp _ ih =>
    obtain ⟨hfull, henable, hdata⟩ := hlow o List.mem_cons_self
    have hport := hl port List.mem_cons_self
    refine List.Forall₂.cons ⟨?_, ?_, ?_⟩ (ih (fun p hp => hl p (List.mem_cons_of_mem _ hp)) fun o ho => hlow o (List.mem_cons_of_mem _ ho))
    · exact vector hport info.shape.writeAddr_length info.shape.abits_pos hp.full hfull
    · exact vector hport info.shape.writeEn_length info.shape.width_pos hp.enable henable
    · exact vector hport info.shape.writeData_length info.shape.width_pos hp.data hdata

/-- The address of a port whose bits are known is a literal. -/
theorem static_of_known {l : List Nat} (hl : ∀ port ∈ l, port < info.writePorts) {operands : List WriteOperands}
    (hparts : List.Forall₂ (WriteParts (KnownVector Γ σ val) info) l operands) : List.Forall₂ (StaticOperands info) l operands := by
  refine ((List.forall₂_and_left l operands).2 ⟨hl, hparts⟩).imp ?_
  rintro port o ⟨hport, hp⟩ raw hraw
  have hlength := portBits_length info.shape.writeAddr_length hport
  unfold MemoryInfo.staticKey at hraw
  simp only at hraw
  split at hraw
  · rename_i hknown
    cases hraw
    have hne : portBits (info.cell.connection "WR_ADDR") port info.abits ≠ [] := by
      rw [← List.length_pos_iff, hlength]
      exact info.shape.abits_pos
    have hliteral := hp.full.literal hne hknown
    rw [hlength] at hliteral
    exact hliteral
  · cases hraw

/-- The actions a memory is lowered to. -/
theorem memory_effect (hw : info.writePorts ≠ 0) {operands : List WriteOperands}
    (hparts : List.Forall₂ (WriteParts (KnownVector Γ σ val) info) (List.range info.writePorts) operands) {acts : List Hw.Act}
    (hlow : lowerMemory? (info.memory (List.zipWith info.writePort (List.range info.writePorts) operands)) = .ok acts) :
    MemoryEffect Γ σ val info acts := by
  have hrange : ∀ port ∈ List.range info.writePorts, port < info.writePorts := fun port hport => List.mem_range.1 hport
  have hstatic := static_of_known hrange hparts
  have hlowers := writeOperands_lower hstatic hlow
  have hvalues := portValues_denote hrange hparts hlowers
  have hadd : info.Addressable := by
    have hlength : operands.length = info.writePorts := by rw [← hstatic.length_eq, List.length_range]
    refine addressable_of_lowerMemory ?_ (fun port hport => ?_) hlow
    · rw [← List.length_pos_iff, List.length_zipWith, List.length_range, hlength, Nat.min_self]
      exact Nat.pos_of_ne_zero hw
    · obtain ⟨i, hi⟩ := List.getElem?_of_mem hport
      obtain ⟨index, o, -, ho, rfl⟩ := List.getElem?_zipWith_eq_some.1 hi
      obtain ⟨value, -, hfull, -⟩ := exists_of_forall₂ hvalues (List.mem_of_getElem? ho)
      exact ⟨o.full, hfull.width_eq, rfl⟩
  obtain ⟨tagged, htagged, hwrites⟩ := ports_denote hadd hw hrange hstatic hvalues
  obtain ⟨grouped, hgrouped, hsame⟩ := groupPorts_denotes htagged
  obtain ⟨acts', hacts, hcommits⟩ := lowerWrites_commit (completeWrites_denotes hgrouped List.Forall₂.nil)
  have hsameActs : acts' = acts := by
    obtain ⟨_, -, hlow⟩ := bind_eq_ok hlow
    exact Except.ok.inj (hacts.symm.trans hlow)
  subst hsameActs
  have hdone : (completeAll MemoryInfo.skips (view info σ) [] grouped).foldl (fun memory word => word.commit memory)
      (view info σ) = sourceWrites ((List.range info.writePorts).map (Γ.portValue val info)) (view info σ) := by
    have hskip : ∀ x ∈ [] ++ grouped, ∀ y ∈ [] ++ grouped, MemoryInfo.skips x.1 y.1 = true → x.2.Apart y.2 :=
      fun x hx y hy => skips_apart hgrouped hx hy
    have happly := commit_completeAll (view info σ) hskip
    rw [List.map_nil, applyAll_nil, List.nil_append] at happly
    rw [happly, hsame, hwrites, sourceWrites_eq]
  refine ⟨fun acc hacc => ?_, fun acc name a w hne => ?_, fun acc => (sequence_commits hcommits acc).2.2⟩
  · rw [(sequence_commits hcommits acc).1, hacc, hdone]
  · exact (sequence_commits hcommits acc).2.1 name a w (Or.inl hne)

/-- The actions of several memories with distinct names. -/
theorem run_memories {l : List MemoryInfo} {actss : List (List Hw.Act)} (h : List.Forall₂ (MemoryEffect Γ σ val) l actss)
    (hl : (l.map MemoryInfo.loomName).Nodup) {acc : Hw.St} (hacc : ∀ info ∈ l, view info acc = view info σ) :
    (∀ info ∈ l, view info (actss.flatten.foldl (fun s act => act.run σ s) acc) =
        sourceWrites ((List.range info.writePorts).map (Γ.portValue val info)) (view info σ)) ∧
      (∀ name, name ∉ l.map MemoryInfo.loomName → ∀ a w,
        (actss.flatten.foldl (fun s act => act.run σ s) acc).mems name a w = acc.mems name a w) ∧
      (actss.flatten.foldl (fun s act => act.run σ s) acc).regs = acc.regs := by
  induction h generalizing acc with
  | nil => exact ⟨by simp, fun _ _ _ _ => rfl, rfl⟩
  | @cons info acts l actss heffect _ ih =>
    rw [List.map_cons, List.nodup_cons] at hl
    have hapart : ∀ info' ∈ l, info'.loomName ≠ info.loomName := by
      intro info' hmem heq
      exact hl.1 (List.mem_map.2 ⟨info', hmem, heq⟩)
    have hrest : ∀ info' ∈ l, view info' (acts.foldl (fun s act => act.run σ s) acc) = view info' σ := by
      intro info' hmem
      rw [← hacc info' (List.mem_cons_of_mem _ hmem)]
      funext a
      exact heffect.other acc info'.loomName a info'.width (hapart info' hmem)
    obtain ⟨hviews, hother, hregs⟩ := ih hl.2 hrest
    rw [List.flatten_cons, List.foldl_append]
    refine ⟨fun info' hmem => ?_, fun name hname a w => ?_, hregs.trans (heffect.regs acc)⟩
    · rcases List.mem_cons.1 hmem with rfl | hmem
      · rw [← heffect.view_eq acc (hacc _ List.mem_cons_self)]
        funext a
        exact hother info'.loomName hl.1 a info'.width
      · exact hviews info' hmem
    · rw [List.map_cons, List.mem_cons, not_or] at hname
      rw [hother name hname.2, heffect.other acc name a w hname.1]

end Memories

end PartsAux

end LoomImport
