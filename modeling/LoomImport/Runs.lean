import LoomImport.Translator

/-!
# What a run of the translator preserves

One rule for all properties of the results of a run. A property is given by an invariant of the state and by what is to hold of a
translated vector and of a finished cell output; the rule asks one question for each way a vector or a cell output is translated,
and answers for every run. The branch a vector takes is `Ctx.route`, which depends neither on the state nor on the position.
-/

namespace LoomImport

open ImportIR StateOption

/-! ## Routes -/

/-- A vector, or a single net of it, is a named one. -/
def isAlias (aliases : Dict (List Bit) String) (bits : List Bit) : Bool :=
  (aliases.get? bits).isSome ||
    match bits with
    | [.net id] => aliases.keys.any fun vector => .net id ∈ vector
    | _ => false

/-- The branches of the translation of a vector. -/
inductive Route where
  | empty
  | constant
  | named
  | output (key : String × String)
  | bit (driver : Driver)
  | split
  deriving DecidableEq

/-- The branch a vector takes. -/
def Ctx.route (Γ : Ctx) (bits : List Bit) : Route :=
  if bits = [] then .empty
  else if bits.all Bit.isConst then .constant
  else if isAlias Γ.inputs bits || isAlias Γ.registers bits then .named
  else match Γ.exactDriver bits with
    | some key => .output key
    | none =>
      match Γ.bitDriver bits with
      | some driver => .bit driver
      | none => .split

/-- What a branch means for a vector that takes it. -/
def Route.Means (Γ : Ctx) (bits : List Bit) : Route → Prop
  | .empty => bits = []
  | .constant => bits ≠ [] ∧ bits.all Bit.isConst = true
  | .named => bits.all Bit.isConst = false ∧ (isAlias Γ.inputs bits || isAlias Γ.registers bits) = true
  | .output key => bits.all Bit.isConst = false ∧ Γ.exactDriver bits = some key
  | .bit driver => Γ.bitDriver bits = some driver
  | .split => bits ≠ [] ∧ bits.all Bit.isConst = false ∧ (isAlias Γ.inputs bits || isAlias Γ.registers bits) = false ∧
      Γ.exactDriver bits = none ∧ Γ.bitDriver bits = none

theorem Ctx.route_means (Γ : Ctx) (bits : List Bit) : (Γ.route bits).Means Γ bits := by
  unfold Ctx.route
  by_cases h0 : bits = []
  · rw [if_pos h0]
    exact h0
  rw [if_neg h0]
  cases hc : bits.all Bit.isConst with
  | true => exact ⟨h0, hc⟩
  | false =>
    rw [if_neg Bool.false_ne_true]
    cases ha : isAlias Γ.inputs bits || isAlias Γ.registers bits with
    | true => exact ⟨hc, ha⟩
    | false =>
      rw [if_neg Bool.false_ne_true]
      cases he : Γ.exactDriver bits with
      | some key => exact ⟨hc, he⟩
      | none =>
        cases hd : Γ.bitDriver bits with
        | some driver => exact hd
        | none => exact ⟨h0, hc, ha, he, hd⟩

/-- A branch of a vector, with what it means. -/
theorem Ctx.route_of_eq {Γ : Ctx} {bits : List Bit} {route : Route} (h : Γ.route bits = route) : route.Means Γ bits :=
  h ▸ Γ.route_means bits

/-- The expression of a named vector. -/
def Ctx.aliasExpr (Γ : Ctx) (bits : List Bit) (src : SourceLocation) : Option Expr :=
  (vectorAlias bits Γ.inputs src).or (vectorAlias bits Γ.registers src)

/-- What a branch means for a cell output that takes it. -/
def CellSource.Means (Γ : Ctx) (cellName : String) (cell : Cell) (port : String) : CellSource → Prop
  | .register => (sequentialKind? cell.type).isSome = true
  | .child => cell.type ∈ Γ.modules
  | .memory info => cell.type = "$mem_v2" ∧ port = "RD_DATA" ∧ Γ.memoryCells.get? cellName = some info
  | .blocked _ _ => (sequentialKind? cell.type).isSome = false ∧ cell.type ∉ Γ.modules
  | .comb kind => cell.type ∉ Γ.modules ∧ supportedComb? cell.type = some kind

theorem Ctx.cellSource_means (Γ : Ctx) (cellName : String) (cell : Cell) (port : String) :
    (Γ.cellSource cellName cell port).Means Γ cellName cell port := by
  unfold Ctx.cellSource
  cases hs : (sequentialKind? cell.type).isSome with
  | true => exact hs
  | false =>
    rw [if_neg Bool.false_ne_true]
    by_cases hm : cell.type ∈ Γ.modules
    · rw [if_pos hm]
      exact hm
    rw [if_neg hm]
    cases ho : Γ.memoryOutput? cellName cell port with
    | some info =>
      unfold Ctx.memoryOutput? at ho
      split at ho
      · rename_i hc
        exact ⟨hc.1, hc.2, ho⟩
      · cases ho
    | none =>
      simp only
      split
      · exact ⟨hs, hm⟩
      · cases hk : supportedComb? cell.type with
        | none => exact ⟨hs, hm⟩
        | some kind => exact ⟨hm, hk⟩

/-- A branch of a cell output, with what it means. -/
theorem Ctx.cellSource_of_eq {Γ : Ctx} {cellName : String} {cell : Cell} {port : String} {source : CellSource}
    (h : Γ.cellSource cellName cell port = source) : source.Means Γ cellName cell port :=
  h ▸ Γ.cellSource_means cellName cell port

/-- The ports a kind of cell reads, in the order they are translated. -/
def CombKind.operandPorts : CombKind → List String
  | .unary _ => ["A"]
  | .binary _ | .shiftx => ["A", "B"]
  | .mux => ["B", "A", "S"]

/-- The vectors a cell output calls for, with the positions they are translated at. -/
def Ctx.operands (Γ : Ctx) (key : String × String) : List (List Bit × SourceLocation) :=
  match Γ.module.cells.get? key.1 with
  | none => []
  | some cell =>
    match Γ.cellSource key.1 cell key.2 with
    | .memory info => (List.range info.readPorts).map fun port =>
        (portBits (info.cell.connection "RD_ADDR") port info.abits, info.source)
    | .comb kind => kind.operandPorts.map fun port => (cell.connection port, Γ.sourceOf cell.src)
    | .register | .child | .blocked _ _ => []

namespace Setting

variable (Γ : Setting)

/-- The value of a constant is known, or claimed by exactly one rule. -/
def constantOk (bits : List Bit) (src : SourceLocation) : Bool :=
  !bits.any Bit.isUnknown || (Γ.policyMatches (Γ.constantSite bits src) src).length = 1

/-- The expression of a vector of constants. -/
def constantExpr (bits : List Bit) (src : SourceLocation) : Expr :=
  if bits.any Bit.isUnknown then
    match Γ.policyMatches (Γ.constantSite bits src) src with
    | [rule] => .partialLiteral bits.length (partialConstant (Γ.constantSite bits src) rule bits) src
    | _ => .literal bits.length 0 src
  else .literal bits.length (natOfBits (bits.map Bit.isOne)) src

/-- A read outside a memory is claimed by exactly one rule. -/
def fillOk (info : MemoryInfo) : Bool := (Γ.policyMatches (Γ.memorySite info) info.source).length = 1

/-- What a read outside a memory gives. -/
def fillExpr (info : MemoryInfo) : Expr :=
  match Γ.policyMatches (Γ.memorySite info) info.source with
  | [rule] => .partialLiteral info.width (partialUnknown (Γ.memorySite info) rule info.width) info.source
  | _ => .literal info.width 0 info.source

/-- The one rule that claims a variable part-select. -/
def shiftxRule? (cellName : String) (src : SourceLocation) : Option PolicyRule :=
  match Γ.policyMatches (Γ.shiftxSite cellName src) src with
  | [rule] => some rule
  | _ => none

/-- A variable part-select is accepted: its amount is unsigned, and one rule fills it with zeros. -/
def shiftxOk (cellName : String) (amountSigned : Bool) (src : SourceLocation) : Bool :=
  !amountSigned && (Γ.shiftxRule? cellName src).any fun rule => rule.fill = .zero

/-- The expression of a variable part-select. -/
def shiftxExpr (cellName : String) (amountSigned : Bool) (width : Nat) (src : SourceLocation) (value amount : Expr) : Expr :=
  if amountSigned then .literal (max width 1) 0 src
  else match Γ.shiftxRule? cellName src with
    | some rule =>
      partSelect value amount (.partialLiteral width (partialUnknown (Γ.shiftxSite cellName src) rule width) src) width src
    | none => .literal (max width 1) 0 src

/-- What blocks a variable part-select that is not accepted. -/
def shiftxRecord (cellName : String) (amountSigned : Bool) (width : Nat) (src : SourceLocation) : UnsupportedRecord :=
  let found := Γ.policyMatches (Γ.shiftxSite cellName src) src
  if amountSigned then
    { kind := "signed_shiftx", detail := "signed variable part-select requires negative-index refinement", source := src
      metadata := none }
  else if (Γ.shiftxRule? cellName src).isSome then
    { kind := "four_state_shiftx_fill"
      detail := "Yosys formal `$shiftx` only has a validated zero-fill normalization", source := src
      metadata := some (Γ.shiftxMetadata cellName width src) }
  else
    { kind := Γ.unmatchedKind "four_state_variable_part_select" found
      detail := "variable part-select " ++ Γ.shiftxSite cellName src ++ " matched " ++ toString found.length ++ " policy rules"
      source := src
      metadata := some (Γ.shiftxMetadata cellName width src) }

end Setting

namespace RunsAux

/-- Record, unless all is well, and return. -/
def checked (ok : Bool) (r : UnsupportedRecord) (e : Expr) : M Expr := do
  if ok then pure e
  else do
    modify fun s => s.record r
    pure e

variable {Q : Expr → State → Prop} {s : State}

theorem wlp_checked {ok : Bool} {r : UnsupportedRecord} {e : Expr} :
    wlp (checked ok r e) Q s ↔ if ok then Q e s else Q e (s.record r) := by
  unfold checked
  cases ok <;> simp

theorem wp_checked {ok : Bool} {r : UnsupportedRecord} {e : Expr} :
    wp (checked ok r e) Q s ↔ if ok then Q e s else Q e (s.record r) := by
  unfold checked
  cases ok <;> simp

/-- A vector of constants, with its effect. -/
theorem constant_eq (Γ : Setting) {bits : List Bit} (h : bits.all Bit.isConst = true) (src : SourceLocation) :
    Γ.constant bits src =
      some <$> checked (Γ.constantOk bits src) (Γ.constantRecord bits src) (Γ.constantExpr bits src) := by
  unfold Setting.constant Setting.constantOk Setting.constantExpr checked
  rw [if_pos h]
  by_cases hu : bits.any Bit.isUnknown
  · rw [if_pos hu, if_pos hu, hu]
    rcases hm : Γ.policyMatches (Γ.constantSite bits src) src with _ | ⟨rule, _ | ⟨rule', rest⟩⟩
    · simp [hm]
    · simp [hm]
    · simp [hm]
  · rw [if_neg hu, if_neg hu]
    simp [hu]

theorem constant_eq_none (Γ : Setting) {bits : List Bit} (h : ¬bits.all Bit.isConst = true) (src : SourceLocation) :
    Γ.constant bits src = pure none := by
  unfold Setting.constant
  rw [if_neg h]

theorem memoryOobFill_eq (Γ : Setting) (info : MemoryInfo) :
    Γ.memoryOobFill info = checked (Γ.fillOk info) (Γ.memoryRecord info) (Γ.fillExpr info) := by
  unfold Setting.memoryOobFill Setting.fillOk Setting.fillExpr checked
  rcases hm : Γ.policyMatches (Γ.memorySite info) info.source with _ | ⟨rule, _ | ⟨rule', rest⟩⟩
  · simp [hm]
  · simp [hm]
  · simp [hm]

theorem shiftxResult_eq (Γ : Setting) (cellName : String) (amountSigned : Bool) (width : Nat) (src : SourceLocation)
    (value amount : Expr) :
    Γ.shiftxResult cellName amountSigned width src value amount =
      checked (Γ.shiftxOk cellName amountSigned src) (Γ.shiftxRecord cellName amountSigned width src)
        (Γ.shiftxExpr cellName amountSigned width src value amount) := by
  unfold Setting.shiftxResult Setting.shiftxOk Setting.shiftxExpr Setting.shiftxRecord Setting.shiftxRule? checked block
  cases amountSigned with
  | true => simp
  | false =>
    rcases hm : Γ.policyMatches (Γ.shiftxSite cellName src) src with _ | ⟨rule, _ | ⟨rule', rest⟩⟩
    · simp [hm]
    · cases hf : rule.fill <;> simp [hm, hf]
    · simp [hm]

/-- A named vector is one whatever the position. -/
theorem vectorAlias_isSome (aliases : Dict (List Bit) String) (bits : List Bit) (src : SourceLocation) :
    (vectorAlias bits aliases src).isSome = isAlias aliases bits := by
  unfold vectorAlias isAlias
  rcases aliases.get? bits with _ | name
  · simp only [Option.isSome_none, Bool.false_or]
    rcases bits with _ | ⟨id | c, _ | ⟨b, rest⟩⟩
    · rfl
    · simp only [List.isSome_findSome?, Dict.keys, List.any_map]
      congr 1
      funext entry
      by_cases hm : Bit.net id ∈ entry.1 <;> simp [hm]
    · rfl
    · rfl
    · rfl
  · rfl

theorem aliasExpr_isSome (Γ : Ctx) (bits : List Bit) (src : SourceLocation) :
    (Γ.aliasExpr bits src).isSome = (isAlias Γ.inputs bits || isAlias Γ.registers bits) := by
  rw [Ctx.aliasExpr, Option.isSome_or, vectorAlias_isSome, vectorAlias_isSome]

end RunsAux

open RunsAux

/-- The translation of a vector, by its route. -/
theorem exprBody_eq (Γ : Ctx) (expr : List Bit → SourceLocation → M Expr) (bits : List Bit) (src : SourceLocation) :
    exprBody Γ expr bits src = (match Γ.route bits with
      | .empty => do
        block "zero_width" "empty signal vector" src none
        pure (.literal 1 0 src)
      | .constant => checked (Γ.constantOk bits src) (Γ.constantRecord bits src) (Γ.constantExpr bits src)
      | .named => StateT.lift (Γ.aliasExpr bits src)
      | .output key => cellExprBody Γ expr key.1 key.2
      | .bit driver => do
        let whole ← cellExprBody Γ expr driver.cellName driver.port
        pure (sliceExpr whole driver.offset 1 src)
      | .split => do
        let parts ← bits.reverse.mapM fun bit => expr [bit] src
        StateT.lift (joinParts src parts)) := by
  unfold exprBody Ctx.route
  by_cases h0 : bits = []
  · rw [if_pos h0, if_pos h0]
  rw [if_neg h0, if_neg h0]
  by_cases hc : bits.all Bit.isConst = true
  · rw [if_pos hc, constant_eq Γ.toSetting hc]
    simp
  rw [if_neg hc, constant_eq_none Γ.toSetting hc, pure_bind]
  have hsome := aliasExpr_isSome Γ bits src
  by_cases ha : (isAlias Γ.inputs bits || isAlias Γ.registers bits) = true
  · rw [if_pos ha]
    rw [ha, Option.isSome_iff_exists] at hsome
    obtain ⟨e, he⟩ := hsome
    unfold Ctx.aliasExpr at he
    simp only [Ctx.aliasExpr, he]
    rfl
  · rw [if_neg ha]
    have hnone : Γ.aliasExpr bits src = none := by
      rw [← Option.not_isSome_iff_eq_none, hsome]
      exact ha
    unfold Ctx.aliasExpr at hnone
    simp only [hnone]
    rcases Γ.exactDriver bits with _ | ⟨cellName, port⟩
    · rcases Γ.bitDriver bits with _ | driver
      · rfl
      · rfl
    · rfl

/-! ## Growth -/

/-- A later state of a run: the same outputs are in progress, and no record is gone. -/
structure State.Grows (s s' : State) : Prop where
  inProgress : s'.inProgress = s.inProgress
  unsupported : s.unsupported ⊆ s'.unsupported

namespace State

theorem Grows.refl (s : State) : s.Grows s := ⟨rfl, List.Subset.refl _⟩

theorem Grows.trans {s₁ s₂ s₃ : State} (h : s₁.Grows s₂) (h' : s₂.Grows s₃) : s₁.Grows s₃ :=
  ⟨h'.inProgress.trans h.inProgress, List.Subset.trans h.unsupported h'.unsupported⟩

theorem mem_record (s : State) (r : UnsupportedRecord) : r ∈ (s.record r).unsupported := by
  unfold record
  split
  · assumption
  · exact List.mem_append_right _ List.mem_cons_self

theorem grows_record (s : State) (r : UnsupportedRecord) : s.Grows (s.record r) := by
  unfold record
  split
  · exact Grows.refl s
  · exact ⟨rfl, List.subset_append_left _ _⟩

@[simp] theorem cache_record (s : State) (r : UnsupportedRecord) : (s.record r).cache = s.cache := by
  unfold record
  split <;> rfl

@[simp] theorem inProgress_record (s : State) (r : UnsupportedRecord) : (s.record r).inProgress = s.inProgress :=
  (grows_record s r).inProgress

theorem unsupported_record_ne_nil (s : State) (r : UnsupportedRecord) : (s.record r).unsupported ≠ [] :=
  List.ne_nil_of_mem (mem_record s r)

/-- Entering and leaving an output, with a run in between. -/
theorem Grows.leave {s s' : State} {key : String × String} (h : (s.enter key).Grows s') (e : Expr) :
    s.Grows (s'.leave key e) := by
  refine ⟨?_, h.unsupported⟩
  show s'.inProgress.erase key = s.inProgress
  rw [h.inProgress]
  exact List.erase_cons_head key s.inProgress

end State

/-! ## The rule -/

/-- A property of the results of runs, with what has to be shown for it. `Inv` is the invariant of the state, `Vec` holds of the
expression of a vector and `Out` of that of a cell output; `Res` holds of the expression of an output that is about to be left, and
`Port` of that of a memory's read port. -/
structure RunSpec (Γ : Ctx) where
  Inv : State → Prop
  Vec : List Bit → SourceLocation → Expr → State → Prop
  Out : String × String → Expr → State → Prop
  Res : String × String → Cell → Expr → State → Prop
  Port : MemoryInfo → Nat → Expr → State → Prop
  -- results survive the rest of the run
  vec_grows : ∀ {bits src e s s'}, s.Grows s' → Vec bits src e s → Vec bits src e s'
  port_grows : ∀ {info port e s s'}, s.Grows s' → Port info port e s → Port info port e s'
  -- the state
  inv_record : ∀ {s}, Inv s → ∀ r, Inv (s.record r)
  inv_enter : ∀ {s key}, Inv s → key ∉ s.inProgress → Inv (s.enter key)
  cached : ∀ {s key e}, Inv s → s.cache.get? key = some e → Out key e s
  cycle : ∀ {s key cell}, Inv s → key ∈ s.inProgress → Γ.module.cells.get? key.1 = some cell →
    Out key (.literal (max (cell.connection key.2).length 1) 0 (Γ.sourceOf cell.src))
      (s.record ⟨"combinational_cycle", "cycle at " ++ key.1 ++ "." ++ key.2, Γ.sourceOf cell.src, none⟩)
  leave : ∀ {s key rest cell e}, Inv s → s.inProgress = key :: rest → key ∉ rest →
    Γ.module.cells.get? key.1 = some cell → Res key cell e s → Inv (s.leave key e) ∧ Out key e (s.leave key e)
  -- vectors
  empty : ∀ {s} src, Inv s → Vec [] src (.literal 1 0 src) (s.record ⟨"zero_width", "empty signal vector", src, none⟩)
  constant : ∀ {s bits src}, Inv s → Γ.route bits = .constant → Γ.constantOk bits src = true →
    Vec bits src (Γ.constantExpr bits src) s
  constantBlocked : ∀ {s bits src}, Inv s → Γ.route bits = .constant → Γ.constantOk bits src = false →
    Vec bits src (Γ.constantExpr bits src) (s.record (Γ.constantRecord bits src))
  named : ∀ {s bits src e}, Inv s → Γ.route bits = .named → Γ.aliasExpr bits src = some e → Vec bits src e s
  output : ∀ {s bits src key e}, Inv s → Γ.route bits = .output key → Out key e s → Vec bits src e s
  bit : ∀ {s bits src driver e}, Inv s → Γ.route bits = .bit driver → Out (driver.cellName, driver.port) e s →
    Vec bits src (sliceExpr e driver.offset 1 src) s
  split : ∀ {s bits src es e}, Inv s → Γ.route bits = .split →
    List.Forall₂ (fun bit part => Vec [bit] src part s) bits.reverse es → joinParts src es = some e → Vec bits src e s
  -- cell outputs
  register : ∀ {s cellName port cell}, Inv s → Γ.cellSource cellName cell port = .register →
    Res (cellName, port) cell (.signal (cell.connection port).length (Γ.registers.getD (cell.connection port)
      (Γ.publicName (cell.connection port) (stripName cellName))) (Γ.sourceOf cell.src)) s
  child : ∀ {s cellName port cell}, Inv s → Γ.cellSource cellName cell port = .child →
    Res (cellName, port) cell
      (.signal (max (cell.connection port).length 1) (instanceNet cellName port) (Γ.sourceOf cell.src)) s
  blocked : ∀ {s cellName port cell kind detail}, Inv s → Γ.cellSource cellName cell port = .blocked kind detail →
    Res (cellName, port) cell (.literal (max (cell.connection port).length 1) 0 (Γ.sourceOf cell.src))
      (s.record ⟨kind, detail, Γ.sourceOf cell.src, none⟩)
  unary : ∀ {s cellName port cell kind e}, Inv s → Γ.cellSource cellName cell port = .comb (.unary kind) →
    Vec (cell.connection "A") (Γ.sourceOf cell.src) e s →
    Res (cellName, port) cell (unaryCell kind (cell.shape (cell.connection port).length) (Γ.sourceOf cell.src) e) s
  binary : ∀ {s cellName port cell kind l r}, Inv s → Γ.cellSource cellName cell port = .comb (.binary kind) →
    Vec (cell.connection "A") (Γ.sourceOf cell.src) l s → Vec (cell.connection "B") (Γ.sourceOf cell.src) r s →
    Res (cellName, port) cell (binaryCell kind (cell.shape (cell.connection port).length) (Γ.sourceOf cell.src) l r) s
  mux : ∀ {s cellName port cell yes no condition}, Inv s → Γ.cellSource cellName cell port = .comb .mux →
    Vec (cell.connection "B") (Γ.sourceOf cell.src) yes s → Vec (cell.connection "A") (Γ.sourceOf cell.src) no s →
    Vec (cell.connection "S") (Γ.sourceOf cell.src) condition s →
    Res (cellName, port) cell (muxCell (cell.connection port).length (Γ.sourceOf cell.src) yes no condition) s
  shiftx : ∀ {s cellName port cell value amount}, Inv s → Γ.cellSource cellName cell port = .comb .shiftx →
    Γ.shiftxOk cellName (cell.flag "B_SIGNED") (Γ.sourceOf cell.src) = true →
    Vec (cell.connection "A") (Γ.sourceOf cell.src) value s → Vec (cell.connection "B") (Γ.sourceOf cell.src) amount s →
    Res (cellName, port) cell (Γ.shiftxExpr cellName (cell.flag "B_SIGNED") (cell.connection port).length
      (Γ.sourceOf cell.src) value amount) s
  shiftxBlocked : ∀ {s cellName port cell value amount}, Inv s → Γ.cellSource cellName cell port = .comb .shiftx →
    Γ.shiftxOk cellName (cell.flag "B_SIGNED") (Γ.sourceOf cell.src) = false →
    Vec (cell.connection "A") (Γ.sourceOf cell.src) value s → Vec (cell.connection "B") (Γ.sourceOf cell.src) amount s →
    Res (cellName, port) cell (Γ.shiftxExpr cellName (cell.flag "B_SIGNED") (cell.connection port).length
      (Γ.sourceOf cell.src) value amount) (s.record
        (Γ.shiftxRecord cellName (cell.flag "B_SIGNED") (cell.connection port).length (Γ.sourceOf cell.src)))
  readInRange : ∀ {s info port full}, Inv s → info.abits = info.addressWidth →
    Vec (portBits (info.cell.connection "RD_ADDR") port info.abits) info.source full s →
    Port info port (info.readWord (sliceExpr full 0 info.addressWidth info.source)) s
  readChecked : ∀ {s info port full}, Inv s → info.abits ≠ info.addressWidth → Γ.fillOk info = true →
    Vec (portBits (info.cell.connection "RD_ADDR") port info.abits) info.source full s →
    Port info port (.mux info.width
      (.binary 1 .unsignedLessThan full (.literal info.abits info.size info.source) info.source)
      (info.readWord (sliceExpr full 0 info.addressWidth info.source)) (Γ.fillExpr info) info.source) s
  readBlocked : ∀ {s info port full}, Inv s → info.abits ≠ info.addressWidth → Γ.fillOk info = false →
    Vec (portBits (info.cell.connection "RD_ADDR") port info.abits) info.source full s →
    Port info port (.mux info.width
      (.binary 1 .unsignedLessThan full (.literal info.abits info.size info.source) info.source)
      (info.readWord (sliceExpr full 0 info.addressWidth info.source)) (Γ.fillExpr info) info.source)
      (s.record (Γ.memoryRecord info))
  memory : ∀ {s cellName port cell info es e}, Inv s → Γ.cellSource cellName cell port = .memory info →
    List.Forall₂ (fun readPort part => Port info readPort part s) (List.range info.readPorts).reverse es →
    joinParts (Γ.sourceOf cell.src) es = some e → Res (cellName, port) cell e s

namespace RunSpec

variable {Γ : Ctx} (R : RunSpec Γ)

/-- The translation of vectors keeps the invariant and gives what is to hold of a vector. -/
def Vectors (expr : List Bit → SourceLocation → M Expr) : Prop :=
  ∀ bits src s, R.Inv s → wlp (expr bits src) (fun e s' => R.Inv s' ∧ s.Grows s' ∧ R.Vec bits src e s') s

variable {expr : List Bit → SourceLocation → M Expr} {s : State}

/-- A check after which both outcomes are answered for. -/
theorem wlp_checked {ok : Bool} {r : UnsupportedRecord} {e : Expr} {Q : Expr → State → Prop} (hs : R.Inv s)
    (hok : ok = true → Q e s) (hno : ok = false → Q e (s.record r)) :
    wlp (checked ok r e) (fun e s' => R.Inv s' ∧ s.Grows s' ∧ Q e s') s := by
  rw [RunsAux.wlp_checked]
  cases ok with
  | true => exact ⟨hs, State.Grows.refl s, hok rfl⟩
  | false => exact ⟨R.inv_record hs r, State.grows_record s r, hno rfl⟩

/-- A read port of a memory. -/
theorem memoryRead (hrec : R.Vectors expr) (info : MemoryInfo) (port : Nat) (hs : R.Inv s) :
    wlp (LoomImport.memoryRead Γ.toSetting expr info port) (fun e s' => R.Inv s' ∧ s.Grows s' ∧ R.Port info port e s') s := by
  unfold LoomImport.memoryRead memoryAddress
  simp only [wlp_bind, Bool.false_eq_true, if_false]
  refine wlp_mono (hrec _ _ s hs) ?_
  rintro full s₁ ⟨hs₁, hg₁, hfull⟩
  by_cases hw : info.abits = info.addressWidth
  · simp only [if_pos hw, wlp_pure]
    exact ⟨hs₁, hg₁, R.readInRange hs₁ hw hfull⟩
  · simp only [if_neg hw, wlp_pure, wlp_bind, memoryOobFill_eq, RunsAux.wlp_checked]
    cases hf : Γ.fillOk info with
    | true =>
      rw [if_pos rfl]
      exact ⟨hs₁, hg₁, R.readChecked hs₁ hw hf hfull⟩
    | false =>
      rw [if_neg Bool.false_ne_true]
      exact ⟨R.inv_record hs₁ _, hg₁.trans (State.grows_record _ _), R.readBlocked hs₁ hw hf hfull⟩

/-- The ports of a memory, joined. -/
theorem memoryResult (hrec : R.Vectors expr) {cellName port : String} {cell : Cell} {info : MemoryInfo}
    (hc : Γ.cellSource cellName cell port = .memory info) (hs : R.Inv s) :
    wlp (LoomImport.memoryResult Γ.toSetting expr info (Γ.sourceOf cell.src))
      (fun e s' => R.Inv s' ∧ s.Grows s' ∧ R.Res (cellName, port) cell e s') s := by
  unfold LoomImport.memoryResult
  rw [wlp_bind]
  refine wlp_mono (wlp_mapM (I := R.Inv) (P := fun port e s' => R.Port info port e s') State.Grows.refl State.Grows.trans R.port_grows _
    (fun readPort _ s' hs' => R.memoryRead hrec info readPort hs') s hs) ?_
  rintro es s₁ ⟨hs₁, hg₁, hes⟩
  rw [wlp_lift]
  intro e he
  exact ⟨hs₁, hg₁, R.memory hs₁ hc hes he⟩

/-- A combinational cell. -/
theorem combResult (hrec : R.Vectors expr) {cellName port : String} {cell : Cell} {kind : CombKind}
    (hc : Γ.cellSource cellName cell port = .comb kind) (hs : R.Inv s) :
    wlp (LoomImport.combResult Γ.toSetting expr cellName cell kind (cell.connection port).length (Γ.sourceOf cell.src))
      (fun e s' => R.Inv s' ∧ s.Grows s' ∧ R.Res (cellName, port) cell e s') s := by
  unfold LoomImport.combResult
  cases kind with
  | unary kind =>
    simp only [wlp_bind, wlp_pure]
    refine wlp_mono (hrec _ _ s hs) ?_
    rintro a s₁ ⟨hs₁, hg₁, ha⟩
    exact ⟨hs₁, hg₁, R.unary hs₁ hc ha⟩
  | binary kind =>
    simp only [wlp_bind, wlp_pure]
    refine wlp_mono (hrec _ _ s hs) ?_
    rintro l s₁ ⟨hs₁, hg₁, hl⟩
    refine wlp_mono (hrec _ _ s₁ hs₁) ?_
    rintro r s₂ ⟨hs₂, hg₂, hr⟩
    exact ⟨hs₂, hg₁.trans hg₂, R.binary hs₂ hc (R.vec_grows hg₂ hl) hr⟩
  | mux =>
    simp only [wlp_bind, wlp_pure]
    refine wlp_mono (hrec _ _ s hs) ?_
    rintro yes s₁ ⟨hs₁, hg₁, hyes⟩
    refine wlp_mono (hrec _ _ s₁ hs₁) ?_
    rintro no s₂ ⟨hs₂, hg₂, hno⟩
    refine wlp_mono (hrec _ _ s₂ hs₂) ?_
    rintro condition s₃ ⟨hs₃, hg₃, hcondition⟩
    exact ⟨hs₃, (hg₁.trans hg₂).trans hg₃,
      R.mux hs₃ hc (R.vec_grows (hg₂.trans hg₃) hyes) (R.vec_grows hg₃ hno) hcondition⟩
  | shiftx =>
    simp only [wlp_bind, shiftxResult_eq]
    refine wlp_mono (hrec _ _ s hs) ?_
    rintro value s₁ ⟨hs₁, hg₁, hvalue⟩
    refine wlp_mono (hrec _ _ s₁ hs₁) ?_
    rintro amount s₂ ⟨hs₂, hg₂, hamount⟩
    refine wlp_mono (R.wlp_checked (Q := R.Res (cellName, port) cell) hs₂ (fun hok => ?_) (fun hno => ?_)) ?_
    · exact R.shiftx hs₂ hc hok (R.vec_grows hg₂ hvalue) hamount
    · exact R.shiftxBlocked hs₂ hc hno (R.vec_grows hg₂ hvalue) hamount
    · rintro e s₃ ⟨hs₃, hg₃, he⟩
      exact ⟨hs₃, (hg₁.trans hg₂).trans hg₃, he⟩

/-- A cell output, while it is in progress. -/
theorem cellResult (hrec : R.Vectors expr) {cellName port : String} {cell : Cell} (hs : R.Inv s) :
    wlp (LoomImport.cellResult Γ expr cellName cell port)
      (fun e s' => R.Inv s' ∧ s.Grows s' ∧ R.Res (cellName, port) cell e s') s := by
  unfold LoomImport.cellResult
  cases hc : Γ.cellSource cellName cell port with
  | register =>
    rw [wlp_pure]
    exact ⟨hs, State.Grows.refl s, R.register hs hc⟩
  | child =>
    rw [wlp_pure]
    exact ⟨hs, State.Grows.refl s, R.child hs hc⟩
  | memory info => exact R.memoryResult hrec hc hs
  | blocked kind detail =>
    simp only [block, wlp_bind, wlp_modify, wlp_pure]
    exact ⟨R.inv_record hs _, State.grows_record s _, R.blocked hs hc⟩
  | comb kind => exact R.combResult hrec hc hs

/-- A finished cell output. -/
theorem cellExprBody (hrec : R.Vectors expr) (key : String × String) (hs : R.Inv s) :
    wlp (LoomImport.cellExprBody Γ expr key.1 key.2) (fun e s' => R.Inv s' ∧ s.Grows s' ∧ R.Out key e s') s := by
  unfold LoomImport.cellExprBody
  rw [wlp_bind, wlp_get]
  cases hcache : s.cache.get? (key.1, key.2) with
  | some e =>
    rw [wlp_pure]
    exact ⟨hs, State.Grows.refl s, R.cached hs hcache⟩
  | none =>
    cases hcell : Γ.module.cells.get? key.1 with
    | none =>
      rw [wlp_lift]
      intro a ha
      cases ha
    | some cell =>
      by_cases hp : (key.1, key.2) ∈ s.inProgress
      · simp only [if_pos hp, block, wlp_bind, wlp_modify, wlp_pure]
        exact ⟨R.inv_record hs _, State.grows_record s _, R.cycle hs hp hcell⟩
      · simp only [if_neg hp, wlp_bind, wlp_modify, wlp_pure]
        refine wlp_mono (R.cellResult hrec (R.inv_enter hs hp)) ?_
        rintro e s₁ ⟨hs₁, hg₁, he⟩
        obtain ⟨hinv, hout⟩ := R.leave hs₁ hg₁.inProgress hp hcell he
        exact ⟨hinv, hg₁.leave e, hout⟩

/-- One more nested call. -/
theorem exprBody (hrec : R.Vectors expr) : R.Vectors (LoomImport.exprBody Γ expr) := by
  intro bits src s hs
  rw [exprBody_eq]
  cases hr : Γ.route bits with
  | empty =>
    simp only [block, wlp_bind, wlp_modify, wlp_pure]
    have hbits : bits = [] := Ctx.route_of_eq hr
    subst hbits
    exact ⟨R.inv_record hs _, State.grows_record s _, R.empty src hs⟩
  | constant =>
    exact R.wlp_checked hs (R.constant hs hr) (R.constantBlocked hs hr)
  | named =>
    rw [wlp_lift]
    intro e he
    exact ⟨hs, State.Grows.refl s, R.named hs hr he⟩
  | output key =>
    refine wlp_mono (R.cellExprBody hrec key hs) ?_
    rintro e s₁ ⟨hs₁, hg₁, he⟩
    exact ⟨hs₁, hg₁, R.output hs₁ hr he⟩
  | bit driver =>
    simp only [wlp_bind, wlp_pure]
    refine wlp_mono (R.cellExprBody hrec (driver.cellName, driver.port) hs) ?_
    rintro e s₁ ⟨hs₁, hg₁, he⟩
    exact ⟨hs₁, hg₁, R.bit hs₁ hr he⟩
  | split =>
    simp only [wlp_bind, wlp_lift]
    refine wlp_mono (wlp_mapM (I := R.Inv) (P := fun bit e s' => R.Vec [bit] src e s') State.Grows.refl State.Grows.trans R.vec_grows _
      (fun bit _ s' hs' => hrec [bit] src s' hs') s hs) ?_
    rintro es s₁ ⟨hs₁, hg₁, hes⟩ e he
    exact ⟨hs₁, hg₁, R.split hs₁ hr hes he⟩

/-- Every run keeps the invariant and gives what is to hold of its vector. -/
theorem run (fuel : Nat) : R.Vectors (LoomImport.expr Γ fuel) := by
  induction fuel with
  | zero =>
    intro bits src s _
    rw [LoomImport.expr, wlp_lift]
    intro a ha
    cases ha
  | succ fuel ih => exact R.exprBody ih

end RunSpec

end LoomImport
