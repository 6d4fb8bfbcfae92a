import LoomImport.Registers
import LoomImport.Parameters
import LoomImport.Soundness
import LoomImport.Widths

/-!
# Registers keep their next values, and not all power-up and reset values

The register of a sequential cell against the cell: its next value under the enable and the synchronous reset, the value it is reset
to, and its power-up value, which is an attribute of the net.
-/

namespace LoomImport

open ImportIR StateOption Words DenotesAux

/-! ## Sequential cells -/

namespace Cell

variable (cell : Cell)

/-- The width of the output of a sequential cell. -/
abbrev registerWidth : Nat := (cell.connection "Q").length

/-- The polarity of a control input: active-high unless the parameter has no ones. -/
def polarity (name : String) : Bool :=
  match cell.parameters.get? name with
  | none => true
  | some (.int n) => n ≠ 0
  | some (.str text) => '1' ∈ text.toList

/-- The polarities of the control inputs are numbers or constants. -/
abbrev PolaritiesFormed : Prop :=
  ∀ name ∈ ["EN_POLARITY", "SRST_POLARITY"], ∀ value ∈ cell.parameters.get? name, value.Formed

/-- The value of a synchronous reset, when `SRST_VALUE` gives every bit of it: it is an integer, or a text that stands for one and
has no unknown digit. -/
def resetValue? : Option (BitVec cell.registerWidth) :=
  match cell.parameters.get? "SRST_VALUE" with
  | none => none
  | some (.int n) => some (BitVec.ofInt _ n)
  | some (.str text) =>
    if HasUnknownDigit text.toList then none else (integerOf? text.toList).map (BitVec.ofInt _)

end Cell

/-- The values of the inputs of a sequential cell. -/
structure RegisterValues (w : Nat) where
  data : BitVec w
  enable : BitVec 1
  reset : BitVec 1

/-- A control input is active. -/
def isActive (polarity : Bool) (pin : BitVec 1) : Bool := pin = BitVec.ofBool polarity

/-- The next value of a sequential cell, apart from an asynchronous reset: what it holds, its data input, whether it is enabled and
whether it is reset. -/
def SequentialKind.next {w : Nat} (kind : SequentialKind) (held data resetValue : BitVec w) (enabled reset : Bool) : BitVec w :=
  match kind with
  | .dff | .adff => data
  | .dffe | .adffe => if enabled then data else held
  | .sdff => if reset then resetValue else data
  | .sdffe => if reset then resetValue else if enabled then data else held
  | .sdffce => if enabled then (if reset then resetValue else data) else held

/-- The digit of a number or a constant at a bit, least significant first, where there is one and it is 0 or 1. -/
def Param.bit? (value : Param) (i : Nat) : Option Bool :=
  match value with
  | .int n => some (n / 2 ^ i % 2 = 1)
  | .str text =>
    match text.toList.reverse[i]? with
    | some '0' => some false
    | some '1' => some true
    | _ => none

/-- The bits of nets that an `init` attribute gives, with their power-up values. A text gives as many bits as it has digits. -/
def Setting.initBits (Γ : Setting) : List (Nat × Bool) :=
  Γ.module.netnames.values.flatMap fun net => net.bits.zipIdx.filterMap fun bit =>
    match bit.1 with
    | .net id => (net.init.bind fun value => value.bit? bit.2).map fun b => (id, b)
    | .const _ => none

/-! ## Runs -/

/-- The translation of a control input, for the kinds of cells that have it. -/
inductive PinRun (translation : M Expr) (s : State) : Bool → Option Expr → State → Prop
  | absent : PinRun translation s false none s
  | present {e : Expr} {s' : State} : translation s = some (e, s') → PinRun translation s true (some e) s'

/-- A run that comes to a sequential cell without an asynchronous reset, from a state between two requests: through the translations
of D and, where the kind of cell has them, of EN and of SRST. -/
structure RegisterRun where
  Γ : Setting
  cellName : String
  cell : Cell
  kind : SequentialKind
  sequential : (cellName, cell, kind) ∈ Γ.sequentialCells
  synchronous : kind.hasAsyncReset = false
  polarities : cell.PolaritiesFormed
  fuel : Nat
  before : State
  reachable : Γ.Reachable before
  data : Expr
  afterData : State
  data_eq : expr Γ.ctx fuel (cell.connection "D") (Γ.ctx.sourceOf cell.src) before = some (data, afterData)
  enable : Option Expr
  afterEnable : State
  enable_eq : PinRun (expr Γ.ctx fuel (cell.connection "EN") (Γ.ctx.sourceOf cell.src)) afterData kind.hasEnable enable afterEnable
  reset : Option Expr
  afterReset : State
  reset_eq : PinRun (expr Γ.ctx fuel (cell.connection "SRST") (Γ.ctx.sourceOf cell.src)) afterEnable kind.hasSyncReset reset afterReset

namespace RegisterRun

/-- The cell is translated to a register, and leaves a state. -/
def Returns (run : RegisterRun) (register : Register) (after : State) : Prop :=
  run.Γ.ctx.register (expr run.Γ.ctx run.fuel) run.cellName run.cell run.kind run.before = some (some register, after)

/-- The values of the inputs in a state. -/
def Valued (run : RegisterRun) (σ : Hw.St) (values : RegisterValues run.cell.registerWidth) : Prop :=
  Denotes σ run.data values.data ∧ (∀ enable ∈ run.enable, Denotes σ enable values.enable) ∧
    ∀ reset ∈ run.reset, Denotes σ reset values.reset

/-- The inputs of a cell have the widths of the kind of cell. -/
abbrev RegularWidths (run : RegisterRun) : Prop :=
  0 < run.cell.registerWidth ∧ (run.cell.connection "D").length = run.cell.registerWidth ∧
    (run.kind.hasEnable = true → (run.cell.connection "EN").length = 1) ∧
    (run.kind.hasSyncReset = true → (run.cell.connection "SRST").length = 1)

/-- The lowering accepts the expressions of the inputs. -/
abbrev OperandsLower (run : RegisterRun) : Prop :=
  Lowers run.data ∧ (∀ enable ∈ run.enable, Lowers enable) ∧ ∀ reset ∈ run.reset, Lowers reset

/-- A register does what its cell does: its inputs have values in every state, it moves to the next value over them, with the reset
value that `SRST_VALUE` gives, and it powers up as the `init` attributes say. -/
structure Implements (run : RegisterRun) (register : Register) : Prop where
  width_eq : register.width = run.cell.registerWidth
  valued : run.RegularWidths → run.OperandsLower → ∀ σ, ∃ values, run.Valued σ values
  next : ∃ resetValue, (run.kind.hasSyncReset = true → run.cell.resetValue? = some resetValue) ∧
    ∀ (σ : Hw.St) (values : RegisterValues run.cell.registerWidth), run.Valued σ values →
      ∃ act, lowerRegister? register = .ok (register.decl, act) ∧ ∀ acc, act.run σ acc =
        { acc with regs := acc.regs.set register.name (run.kind.next (σ.regs register.name run.cell.registerWidth) values.data
          resetValue (isActive (run.cell.polarity "EN_POLARITY") values.enable)
          (isActive (run.cell.polarity "SRST_POLARITY") values.reset)) }
  init : ∀ i id b, (run.cell.connection "Q")[i]? = some (.net id) → (id, b) ∈ run.Γ.initBits → register.decl.init.getLsbD i = b

/-- The run returns a register, and the register does what the cell does. -/
def Exact (run : RegisterRun) : Prop := ∃ register after, run.Returns register after ∧ run.Implements register

/-- No `init` attribute gives a bit of the output the value one. -/
abbrev PowersUpAtZero (run : RegisterRun) : Prop := ∀ entry ∈ run.Γ.initBits, entry.2 = true → .net entry.1 ∉ run.cell.connection "Q"

/-- `SRST_VALUE` is a number that is not negative, or a text of one in which no digit is unknown. -/
def ResetKnown (run : RegisterRun) : Prop :=
  run.kind.hasSyncReset = true → match run.cell.parameters.get? "SRST_VALUE" with
  | none => False
  | some (.int n) => 0 ≤ n
  | some (.str text) => ¬HasUnknownDigit text.toList ∧ ∃ n : Nat, integerOf? text.toList = some (n : Int)

end RegisterRun

namespace PinRun

/-- A control input is there when the kind of cell has it. -/
theorem isSome {translation : M Expr} {s s' : State} {present : Bool} {o : Option Expr}
    (h : PinRun translation s present o s') : o.isSome = present := by
  cases h <;> rfl

theorem translateIf_eq {translation : M Expr} {s s' : State} {present : Bool} {o : Option Expr}
    (h : PinRun translation s present o s') : translateIf present translation s = some (o, s') := by
  cases h with
  | absent => rfl
  | present h => simp [translateIf, map_apply, h]

/-- The expression of a control input has the width of its vector, and the widths of what is kept stay right. -/
theorem width {Γ : Setting} {fuel : Nat} {bits : List Bit} {src : SourceLocation} {s s' : State} {present : Bool}
    {o : Option Expr} (h : PinRun (expr Γ.ctx fuel bits src) s present o s')
    (hs : (widthSpec (prepared_ctx Γ)).Inv s) :
    (widthSpec (prepared_ctx Γ)).Inv s' ∧ ∀ e ∈ o, bits ≠ [] → e.width = bits.length := by
  cases h with
  | absent => exact ⟨hs, fun e he => nomatch he⟩
  | present hrun =>
    obtain ⟨hs', -, hwidth⟩ := (widthSpec (prepared_ctx Γ)).run fuel bits src s hs _ _ hrun
    refine ⟨hs', fun e he => ?_⟩
    cases he
    exact hwidth

end PinRun

namespace RegistersAux

open ParametersAux ConstantsAux

variable {σ : Hw.St}

/-! ## Parameters -/

theorem onesOf_ne_zero {text : List Char} : onesOf text ≠ 0 ↔ '1' ∈ text := by
  unfold onesOf
  rw [Ne, natOfBits_eq_zero, not_not, List.mem_map]
  simp

/-- The polarity of a formed parameter is what it is decoded to. -/
theorem activeHigh_eq {cell : Cell} (h : cell.PolaritiesFormed) {name : String} (hname : name ∈ ["EN_POLARITY", "SRST_POLARITY"]) :
    cell.activeHigh name = cell.polarity name := by
  unfold Cell.activeHigh Cell.polarity Cell.parameter
  cases hp : cell.parameters.get? name with
  | none => rfl
  | some value =>
    have hformed := h name hname value hp
    cases value with
    | int n => rfl
    | str text =>
      simp only [decodeParameter_text hformed, decide_eq_decide, ← onesOf_ne_zero]
      exact not_congr Int.natCast_eq_zero

/-- The reset value is the number that `SRST_VALUE` is decoded to. -/
theorem resetValue_eq {cell : Cell} {value : BitVec cell.registerWidth} (h : cell.resetValue? = some value)
    (hsign : 0 ≤ cell.parameter "SRST_VALUE" 0) :
    BitVec.ofNat cell.registerWidth (cell.parameter "SRST_VALUE" 0).toNat = value := by
  have hint : BitVec.ofInt cell.registerWidth (cell.parameter "SRST_VALUE" 0) = value := by
    unfold Cell.resetValue? at h
    unfold Cell.parameter
    rcases hp : cell.parameters.get? "SRST_VALUE" with _ | (n | text)
    · rw [hp] at h
      cases h
    · rw [hp] at h
      exact Option.some.inj h
    · rw [hp] at h
      simp only at h
      split at h
      · cases h
      · rename_i hknown
        obtain ⟨n, hn, rfl⟩ := Option.map_eq_some_iff.1 h
        rw [decodeParameter_integer hknown, hn]
        rfl
  obtain ⟨n, hn⟩ := Int.eq_ofNat_of_zero_le hsign
  rw [← hint, hn, Int.toNat_natCast, BitVec.ofInt_natCast]

/-- A constant without unknown digits gives the reset value of its ones. -/
theorem resetValue_constant {cell : Cell} {text : String} (hp : cell.parameters.get? "SRST_VALUE" = some (.str text))
    (hconstant : IsConstantText text) (hknown : 'x' ∉ text.toList ∧ 'z' ∉ text.toList) :
    cell.resetValue? = some (BitVec.ofNat _ (onesOf text.toList)) := by
  have hdigits : ¬HasUnknownDigit text.toList := by
    rw [hasUnknownDigit_iff hconstant, not_or]
    exact hknown
  unfold Cell.resetValue?
  rw [hp]
  simp only [if_neg hdigits, integerOf_known hconstant hdigits, Option.map_some, BitVec.ofInt_natCast]

/-! ## Controls -/

/-- A control input, made active-high. -/
theorem withPolarity_denotes {e : Expr} {pin : BitVec 1} (h : Denotes σ e pin) (polarity : Bool) (src : SourceLocation) :
    Denotes σ (withPolarity polarity e src) (BitVec.ofBool (isActive polarity pin)) := by
  have hactive : ∀ pin : BitVec 1, BitVec.ofBool (isActive true pin) = pin ∧ BitVec.ofBool (isActive false pin) = ~~~pin := by
    decide
  unfold withPolarity
  cases polarity with
  | true =>
    rw [if_pos rfl, (hactive pin).1]
    exact h
  | false =>
    rw [if_neg Bool.false_ne_true, (hactive pin).2]
    exact h.bitNot src

/-! ## The next value -/

/-- The next value of a register, over the expressions of its inputs and the literal of its reset value. -/
theorem nextExpr_denotes_over {cell : Cell} {kind : SequentialKind} {name : String} {src : SourceLocation}
    {operands : RegisterOperands} {next : Expr} (hnext : nextExpr kind cell name src operands = some next)
    (henable : operands.enable.isSome = kind.hasEnable) (hreset : operands.reset.isSome = kind.hasSyncReset)
    (hname : name.isEmpty = false) {resetValue : BitVec cell.registerWidth}
    (hliteral : kind.hasSyncReset = true → ∀ literal,
      integerLiteral? cell.registerWidth (cell.parameter "SRST_VALUE" 0) src = some literal → Denotes σ literal resetValue)
    {values : RegisterValues cell.registerWidth} (hdata : Denotes σ operands.data values.data)
    (henabled : ∀ enable ∈ operands.enable, Denotes σ enable values.enable)
    (hisreset : ∀ reset ∈ operands.reset, Denotes σ reset values.reset) :
    Denotes σ next (kind.next (σ.regs name cell.registerWidth) values.data resetValue
      (isActive (cell.activeHigh "EN_POLARITY") values.enable) (isActive (cell.activeHigh "SRST_POLARITY") values.reset)) := by
  obtain ⟨data, enable, reset⟩ := operands
  simp only at henable hreset hdata henabled hisreset
  have hhold : Denotes σ (.signal cell.registerWidth name src) (σ.regs name cell.registerWidth) :=
    Denotes.signal hdata.pos hname src
  have hactive : ∀ e ∈ enable, Denotes σ (withPolarity (cell.activeHigh "EN_POLARITY") e src)
      (BitVec.ofBool (isActive (cell.activeHigh "EN_POLARITY") values.enable)) :=
    fun e he => withPolarity_denotes (henabled e he) _ src
  have hactive' : ∀ e ∈ reset, Denotes σ (withPolarity (cell.activeHigh "SRST_POLARITY") e src)
      (BitVec.ofBool (isActive (cell.activeHigh "SRST_POLARITY") values.reset)) :=
    fun e he => withPolarity_denotes (hisreset e he) _ src
  have absent : ∀ {o : Option Expr}, o.isSome = false → o = none := fun h => Option.not_isSome_iff_eq_none.1 (Bool.not_eq_true _ ▸ h)
  -- with a synchronous reset, the reset value has a literal
  have present : ∀ {o : Option Expr}, o.isSome = true → ∃ e, o = some e := Option.isSome_iff_exists.1
  cases kind with
  | dff | adff =>
    obtain rfl := absent henable
    obtain rfl := absent hreset
    cases hnext
    exact hdata
  | dffe | adffe =>
    obtain ⟨enable, rfl⟩ := present henable
    obtain rfl := absent hreset
    cases hnext
    exact Denotes.muxBool (hactive enable rfl) hdata hhold src
  | sdff =>
    obtain rfl := absent henable
    obtain ⟨reset, rfl⟩ := present hreset
    obtain ⟨literal, hlit, hnext⟩ := Option.bind_eq_some_iff.1 hnext
    cases hnext
    exact Denotes.muxBool (hactive' reset rfl) (hliteral rfl literal hlit) hdata src
  | sdffe =>
    obtain ⟨enable, rfl⟩ := present henable
    obtain ⟨reset, rfl⟩ := present hreset
    obtain ⟨literal, hlit, hnext⟩ := Option.bind_eq_some_iff.1 hnext
    cases hnext
    have henabled := Denotes.muxBool (hactive enable rfl) hdata hhold src
    exact Denotes.muxBool (hactive' reset rfl) (hliteral rfl literal hlit) henabled src
  | sdffce =>
    obtain ⟨enable, rfl⟩ := present henable
    obtain ⟨reset, rfl⟩ := present hreset
    obtain ⟨literal, hlit, hnext⟩ := Option.bind_eq_some_iff.1 hnext
    cases hnext
    have hisreset := Denotes.muxBool (hactive' reset rfl) (hliteral rfl literal hlit) hdata src
    exact Denotes.muxBool (hactive enable rfl) hisreset hhold src

/-- The next value of a register whose reset value is known. -/
theorem nextExpr_denotes {cell : Cell} {kind : SequentialKind} {name : String} {src : SourceLocation} {operands : RegisterOperands}
    {next : Expr} (hnext : nextExpr kind cell name src operands = some next) (henable : operands.enable.isSome = kind.hasEnable)
    (hreset : operands.reset.isSome = kind.hasSyncReset) (hname : name.isEmpty = false)
    {resetValue : BitVec cell.registerWidth} (hvalue : kind.hasSyncReset = true → cell.resetValue? = some resetValue)
    {values : RegisterValues cell.registerWidth} (hdata : Denotes σ operands.data values.data)
    (henabled : ∀ enable ∈ operands.enable, Denotes σ enable values.enable)
    (hisreset : ∀ reset ∈ operands.reset, Denotes σ reset values.reset) :
    Denotes σ next (kind.next (σ.regs name cell.registerWidth) values.data resetValue
      (isActive (cell.activeHigh "EN_POLARITY") values.enable) (isActive (cell.activeHigh "SRST_POLARITY") values.reset)) := by
  refine nextExpr_denotes_over hnext henable hreset hname (fun hsync literal hliteral => ?_) hdata henabled hisreset
  unfold integerLiteral? at hliteral
  split at hliteral
  · rename_i hsign
    cases hliteral
    rw [← resetValue_eq (hvalue hsync) hsign]
    exact Denotes.literal hdata.pos _ src
  · cases hliteral

/-! ## Runs -/

variable (run : RegisterRun)

/-- The expressions of the inputs. -/
def operands : RegisterOperands := ⟨run.data, run.enable, run.reset⟩

/-- The run translates the cell over the expressions of its inputs. -/
theorem register_eq : run.Γ.ctx.register (expr run.Γ.ctx run.fuel) run.cellName run.cell run.kind run.before =
    some (run.Γ.ctx.registerOver run.cellName run.cell run.kind (operands run), run.afterReset) := by
  unfold Ctx.register registerOperands
  simp only [bind_apply, run.data_eq, Option.bind_some, run.enable_eq.translateIf_eq, run.reset_eq.translateIf_eq]
  rfl

/-- A run returns the register over the expressions of its inputs. -/
theorem returns_iff {register : Register} {after : State} : run.Returns register after ↔
    run.Γ.ctx.registerOver run.cellName run.cell run.kind (operands run) = some register ∧ run.afterReset = after := by
  unfold RegisterRun.Returns
  rw [register_eq, Option.some_inj, Prod.mk.injEq]

theorem registerOf_ne : (run.Γ.ctx.registerOf run.cellName run.cell).isEmpty = false := by
  unfold Ctx.registerOf Dict.getD
  cases hname : run.Γ.ctx.registers.get? (run.cell.connection "Q") with
  | none => exact SoundnessAux.registerName_ne _
  | some name =>
    rw [(prepared run.Γ).registers] at hname
    obtain ⟨cellName, cell, -, -, -, rfl⟩ := SoundnessAux.registers_mem hname
    exact SoundnessAux.registerName_ne _

/-- A register has a next value, and the power-up value zero. -/
theorem of_returns {register : Register} {after : State} (h : run.Returns register after) :
    (∃ next, nextExpr run.kind run.cell register.name (run.Γ.ctx.sourceOf run.cell.src) (operands run) = some next ∧
      register.next = next) ∧ register.name = run.Γ.ctx.registerOf run.cellName run.cell ∧
      register.width = run.cell.registerWidth ∧ register.init = 0 := by
  obtain ⟨next, hnext, hregister⟩ := Option.bind_eq_some_iff.1 ((returns_iff run).1 h).1
  cases hregister
  exact ⟨⟨next, hnext, rfl⟩, rfl, rfl, rfl⟩

/-- A run with a reset value that is not negative returns a register. -/
theorem exists_returns (h : run.kind.hasSyncReset = true → 0 ≤ run.cell.parameter "SRST_VALUE" 0) :
    ∃ register after, run.Returns register after := by
  have hreset := run.reset_eq.isSome
  suffices hnext : ∀ name src, ∃ next, nextExpr run.kind run.cell name src (operands run) = some next by
    obtain ⟨next, hnext⟩ := hnext (run.Γ.ctx.registerOf run.cellName run.cell) (run.Γ.ctx.sourceOf run.cell.src)
    exact ⟨_, _, (returns_iff run).2 ⟨Option.bind_eq_some_iff.2 ⟨next, hnext, rfl⟩, rfl⟩⟩
  intro name src
  unfold nextExpr operands
  cases hr : run.reset with
  | none => cases run.enable <;> exact ⟨_, rfl⟩
  | some reset =>
    rw [hr] at hreset
    have hliteral : integerLiteral? run.cell.registerWidth (run.cell.parameter "SRST_VALUE" 0) src = some _ := if_pos (h hreset.symm)
    simp only [hliteral]
    cases run.enable <;> cases run.kind <;> exact ⟨_, rfl⟩

/-- A register whose next value denotes lowers to a write of that value. -/
theorem lowerRegister_run {σ : Hw.St} {register : Register} (hname : register.name.isEmpty = false) {w : Nat}
    (hwidth : register.width = w) {v : BitVec w} (h : Denotes σ register.next v) :
    ∃ act, lowerRegister? register = .ok (register.decl, act) ∧
      ∀ acc, act.run σ acc = { acc with regs := acc.regs.set register.name v } := by
  subst hwidth
  have hpos := h.pos
  obtain ⟨next, hnext, rfl⟩ := h
  refine ⟨.write register.width register.name next, ?_, fun acc => rfl⟩
  have hdeclared : ¬(register.width = 0 ∨ register.name.isEmpty = true) := by
    simp [hname, Nat.ne_of_gt hpos]
  unfold lowerRegister?
  rw [if_neg hdeclared, hnext]
  simp [ok_bind]

/-- A register whose literal is there has a reset value that is not negative. -/
theorem sign_of_returns {register : Register} {after : State} (h : run.Returns register after)
    (hsync : run.kind.hasSyncReset = true) : 0 ≤ run.cell.parameter "SRST_VALUE" 0 := by
  obtain ⟨⟨next, hnext, -⟩, -⟩ := of_returns run h
  obtain ⟨reset, hr⟩ := Option.isSome_iff_exists.1 (run.reset_eq.isSome.trans hsync)
  unfold nextExpr operands at hnext
  rw [hr] at hnext
  obtain ⟨literal, hliteral, -⟩ := Option.bind_eq_some_iff.1 hnext
  unfold integerLiteral? at hliteral
  split at hliteral
  · assumption
  · cases hliteral

/-- A known reset value is given by `SRST_VALUE` and decoded to a number that is not negative, and the other way round. -/
theorem resetKnown_iff : run.ResetKnown ↔ (run.kind.hasSyncReset = true →
    (∃ value, run.cell.resetValue? = some value) ∧ 0 ≤ run.cell.parameter "SRST_VALUE" 0) := by
  unfold RegisterRun.ResetKnown
  refine imp_congr_right fun _ => ?_
  unfold Cell.resetValue? Cell.parameter
  rcases run.cell.parameters.get? "SRST_VALUE" with _ | (n | text)
  · simp
  · simp [decodeParameter]
  · by_cases hunknown : HasUnknownDigit text.toList
    · simp [hunknown]
    · rw [decodeParameter_integer hunknown]
      simp only [hunknown, not_false_eq_true, true_and, if_false]
      constructor
      · rintro ⟨n, hn⟩
        rw [hn]
        exact ⟨⟨_, rfl⟩, Int.natCast_nonneg n⟩
      · rintro ⟨⟨value, hvalue⟩, hsign⟩
        obtain ⟨n, hn, -⟩ := Option.map_eq_some_iff.1 hvalue
        rw [hn] at hsign
        obtain ⟨m, rfl⟩ := Int.eq_ofNat_of_zero_le hsign
        exact ⟨m, hn⟩

/-! ## Values -/

/-- The expressions of the inputs have the widths of the vectors. -/
theorem operands_widths (hdata : run.cell.connection "D" ≠ []) :
    run.data.width = (run.cell.connection "D").length ∧
      (∀ enable ∈ run.enable, run.cell.connection "EN" ≠ [] → enable.width = (run.cell.connection "EN").length) ∧
      ∀ reset ∈ run.reset, run.cell.connection "SRST" ≠ [] → reset.width = (run.cell.connection "SRST").length := by
  let R := widthSpec (prepared_ctx run.Γ)
  have hstart : R.Inv run.Γ.start := by
    intro key e he
    rw [(prepared run.Γ).cache, Dict.get?_empty] at he
    cases he
  obtain ⟨hs₁, -, hd⟩ := R.run run.fuel _ _ _ (run.reachable.inv R hstart) _ _ run.data_eq
  obtain ⟨hs₂, he⟩ := run.enable_eq.width hs₁
  exact ⟨hd hdata, he, (run.reset_eq.width hs₂).2⟩

/-- The inputs of a cell of regular widths have values in every state, when their expressions lower. -/
theorem exists_registerValued (hwidths : run.RegularWidths) (hlower : run.OperandsLower) (σ : Hw.St) :
    ∃ values, run.Valued σ values := by
  obtain ⟨hpos, hdata, henable, hreset⟩ := hwidths
  have hne : run.cell.connection "D" ≠ [] := by
    rw [← List.length_pos_iff, hdata]
    exact hpos
  obtain ⟨hd, he, hr⟩ := operands_widths run hne
  obtain ⟨data, hdenotes⟩ := hlower.1.denotes (hd.trans hdata) σ
  have hpin : ∀ {port : String} {o : Option Expr}, (o.isSome = true → (run.cell.connection port).length = 1) →
      (∀ e ∈ o, run.cell.connection port ≠ [] → e.width = (run.cell.connection port).length) → (∀ e ∈ o, Lowers e) →
      ∃ pin : BitVec 1, ∀ e ∈ o, Denotes σ e pin := by
    intro port o hlen hwidth hlow
    cases o with
    | none => exact ⟨0, fun e he => nomatch he⟩
    | some e =>
      have hone := hlen rfl
      have hport : run.cell.connection port ≠ [] := by
        rw [← List.length_pos_iff, hone]
        exact Nat.one_pos
      obtain ⟨pin, hpin⟩ := (hlow e rfl).denotes ((hwidth e rfl hport).trans hone) σ
      refine ⟨pin, fun e' he' => ?_⟩
      cases he'
      exact hpin
  obtain ⟨enable, henabled⟩ := hpin (fun h => henable (run.enable_eq.isSome ▸ h)) he hlower.2.1
  obtain ⟨reset, hisreset⟩ := hpin (fun h => hreset (run.reset_eq.isSome ▸ h)) hr hlower.2.2
  exact ⟨⟨data, enable, reset⟩, hdenotes, henabled, hisreset⟩

end RegistersAux

open RegistersAux

/-- A register does what its cell does exactly when its reset value is known and no `init` attribute gives it a one. -/
theorem register_exact_iff (run : RegisterRun) : run.Exact ↔ run.PowersUpAtZero ∧ run.ResetKnown := by
  rw [resetKnown_iff]
  constructor
  · rintro ⟨register, after, hreturns, himplements⟩
    obtain ⟨-, -, -, hinit⟩ := of_returns run hreturns
    obtain ⟨resetValue, hdefined, -⟩ := himplements.next
    refine ⟨?_, fun hsync => ⟨⟨resetValue, hdefined hsync⟩, sign_of_returns run hreturns hsync⟩⟩
    rintro ⟨id, b⟩ hmem rfl hnet
    obtain ⟨i, hi⟩ := List.getElem?_of_mem hnet
    have hbit := himplements.init i id true hi hmem
    simp [Register.decl, hinit] at hbit
  · rintro ⟨hzero, hknown⟩
    obtain ⟨register, after, hreturns⟩ := exists_returns run fun hsync => (hknown hsync).2
    obtain ⟨⟨next, hnext, hregister⟩, hname, hwidth, hinit⟩ := of_returns run hreturns
    obtain ⟨resetValue, hvalue⟩ : ∃ resetValue, run.kind.hasSyncReset = true → run.cell.resetValue? = some resetValue := by
      cases hsync : run.kind.hasSyncReset with
      | true => exact (hknown hsync).1.imp fun _ hv _ => hv
      | false => exact ⟨0, nofun⟩
    refine ⟨register, after, hreturns, hwidth, exists_registerValued run, ⟨resetValue, hvalue, ?_⟩, ?_⟩
    · rintro σ values ⟨hdata, henabled, hisreset⟩
      have hne : register.name.isEmpty = false := by rw [hname]; exact registerOf_ne run
      have hden := nextExpr_denotes hnext run.enable_eq.isSome run.reset_eq.isSome hne hvalue hdata henabled hisreset
      rw [activeHigh_eq run.polarities (by simp), activeHigh_eq run.polarities (by simp)] at hden
      exact lowerRegister_run hne hwidth (hregister ▸ hden)
    · rintro i id b hi hmem
      have hb : b = false := by
        rw [← Bool.not_eq_true]
        exact fun hb => hzero (id, b) hmem hb (List.mem_of_getElem? hi)
      simp [Register.decl, hinit, hb]

/-- The translation of a control input for a kind of cell, when it returns. -/
def pinRun? (translation : M Expr) (s : State) (present : Bool) :
    Option { r : Option Expr × State // PinRun translation s present r.1 r.2 } :=
  match present with
  | false => some ⟨(none, s), .absent⟩
  | true =>
    match h : translation s with
    | none => none
    | some (e, s') => some ⟨(some e, s'), .present h⟩

/-- The run that comes to a sequential cell before anything else, when its expressions take no more than some nested calls. -/
def registerRun? (Γ : Setting) (cellName : String) (fuel : Nat) : Option RegisterRun :=
  match hcell : Γ.module.cells.get? cellName with
  | none => none
  | some cell =>
    match hkind : sequentialKind? cell.type with
    | none => none
    | some kind =>
      match hdata : expr Γ.ctx fuel (cell.connection "D") (Γ.ctx.sourceOf cell.src) Γ.start with
      | none => none
      | some (data, afterData) =>
        match pinRun? (expr Γ.ctx fuel (cell.connection "EN") (Γ.ctx.sourceOf cell.src)) afterData kind.hasEnable with
        | none => none
        | some ⟨(enable, afterEnable), henable⟩ =>
          match pinRun? (expr Γ.ctx fuel (cell.connection "SRST") (Γ.ctx.sourceOf cell.src)) afterEnable kind.hasSyncReset with
          | none => none
          | some ⟨(reset, afterReset), hreset⟩ =>
            if hformed : kind.hasAsyncReset = false ∧ cell.PolaritiesFormed then
              some {
                Γ := Γ
                cellName := cellName
                cell := cell
                kind := kind
                sequential := SoundnessAux.mem_sequentialCells.2 ⟨hcell, hkind⟩
                synchronous := hformed.1
                polarities := hformed.2
                fuel := fuel
                before := Γ.start
                reachable := Setting.Reachable.start
                data := data
                afterData := afterData
                data_eq := hdata
                enable := enable
                afterEnable := afterEnable
                enable_eq := henable
                reset := reset
                afterReset := afterReset
                reset_eq := hreset }
            else none

/-- A module of one register of two bits, of some kind, with some parameters and some `init` attribute. -/
def flop (type : String) (parameters : Dict String Param) (init : Option Param) : Setting where
  name := "flop"
  module := {
    src := "flop.v:1.1-9.10"
    ports := ⟨[("d", ⟨"input", [.net 2, .net 3]⟩), ("en", ⟨"input", [.net 4]⟩), ("rst", ⟨"input", [.net 5]⟩),
      ("clk", ⟨"input", [.net 6]⟩), ("q", ⟨"output", [.net 7, .net 8]⟩)], by simp⟩
    netnames := ⟨[("q", ⟨[.net 7, .net 8], "flop.v:4.5-4.6", init⟩)], by simp⟩
    cells := ⟨[("u", {
      type := type
      src := "flop.v:5.14-5.20"
      parameters := parameters
      portDirections := ⟨[("Q", "output")], by decide⟩
      connections := ⟨[("CLK", [.net 6]), ("D", [.net 2, .net 3]), ("EN", [.net 4]), ("Q", [.net 7, .net 8]), ("SRST", [.net 5])],
        by simp⟩ })], by simp⟩ }
  modules := ["flop"]
  policy := none
  sha256 := fun text => text

/-- A reset with an active-low enable, and a power-up value of zero. -/
def flopKnown : Setting :=
  flop "$sdffce" ⟨[("EN_POLARITY", .str "0"), ("SRST_POLARITY", .str "1"), ("SRST_VALUE", .str "10")], by simp⟩ (some (.str "0x"))

/-- A power-up value of one. -/
def flopInit : Setting := flop "$dff" Dict.empty (some (.str "01"))

/-- A reset value with an unknown bit. -/
def flopReset : Setting := flop "$sdff" ⟨[("SRST_POLARITY", .str "1"), ("SRST_VALUE", .str "1x")], by simp⟩ none

/-- The first of these registers does what its cell does, is reset to two, and its inputs have values in every state. -/
theorem register_exact_known : ∃ run ∈ registerRun? flopKnown "u" 3, run.Exact ∧ run.cell.resetValue? = some (BitVec.ofNat _ 2) ∧
    ∀ σ, ∃ values, run.Valued σ values := by
  have hrun : ∃ run ∈ registerRun? flopKnown "u" 3, run.PowersUpAtZero ∧
      (run.cell.parameters.get? "SRST_VALUE" = some (.str "10")) ∧ run.RegularWidths ∧ run.OperandsLower := by decide +kernel
  obtain ⟨run, hmem, hzero, hvalue, hwidths, hlower⟩ := hrun
  have hknown : run.ResetKnown := by
    unfold RegisterRun.ResetKnown
    rw [hvalue]
    exact fun _ => ⟨by decide, 2, by decide⟩
  have hreset : run.cell.resetValue? = some (BitVec.ofNat _ 2) := resetValue_constant hvalue (by decide) (by decide)
  exact ⟨run, hmem, (register_exact_iff run).2 ⟨hzero, hknown⟩, hreset, exists_registerValued run hwidths hlower⟩

/-- Nothing is blocked in the other two; the first powers up at zero instead of one, the second resets an unknown bit to zero. -/
theorem not_register_exact :
    (∃ run ∈ registerRun? flopInit "u" 3, run.afterReset.unsupported = [] ∧ ¬run.Exact) ∧
      ∃ run ∈ registerRun? flopReset "u" 3, run.afterReset.unsupported = [] ∧ ¬run.Exact := by
  have hinit : ∃ run ∈ registerRun? flopInit "u" 3, run.afterReset.unsupported = [] ∧
      (run.cell.connection "Q")[0]? = some (.net 7) ∧ (7, true) ∈ run.Γ.initBits := by decide +kernel
  have hreset : ∃ run ∈ registerRun? flopReset "u" 3, run.afterReset.unsupported = [] ∧ run.kind.hasSyncReset = true ∧
      run.cell.resetValue? = none := by decide +kernel
  constructor
  · obtain ⟨run, hmem, hclean, hnet, hone⟩ := hinit
    refine ⟨run, hmem, hclean, ?_⟩
    rintro ⟨register, after, hreturns, himplements⟩
    have hbit := himplements.init 0 7 true hnet hone
    rw [Register.decl, (of_returns run hreturns).2.2.2] at hbit
    simp at hbit
  · obtain ⟨run, hmem, hclean, hsync, hnone⟩ := hreset
    refine ⟨run, hmem, hclean, ?_⟩
    rintro ⟨register, after, -, himplements⟩
    obtain ⟨resetValue, hdefined, -⟩ := himplements.next
    rw [hdefined hsync] at hnone
    cases hnone

end LoomImport
