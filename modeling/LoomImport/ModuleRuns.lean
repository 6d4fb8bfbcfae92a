import LoomImport.Translate
import LoomImport.WriteExactness

/-!
# Runs that translate a module

A property of the expressions of vectors, whatever it is, holds of every expression a translated module is built from: each part of
the module is the one its cell or its port asks for, over the expressions of the vectors it is connected to.
-/

namespace LoomImport

open ImportIR StateOption

/-! ## Vectors -/

/-- A property of the expressions of vectors, in the states a translation goes through. -/
structure VectorSpec (expr : List Bit → SourceLocation → M Expr) where
  Inv : State → Prop
  Vec : List Bit → SourceLocation → Expr → State → Prop
  run : ∀ bits src s, Inv s → wlp (expr bits src) (fun e s' => Inv s' ∧ s.Grows s' ∧ Vec bits src e s') s
  vec_grows : ∀ {bits src e s s'}, s.Grows s' → Vec bits src e s → Vec bits src e s'
  inv_record : ∀ {s}, Inv s → ∀ r, Inv (s.record r)

/-- What holds of all runs holds of those that translate a module. -/
def RunSpec.vectorSpec {Γ : Ctx} (R : RunSpec Γ) (fuel : Nat) : VectorSpec (expr Γ fuel) where
  Inv := R.Inv
  Vec := R.Vec
  run := R.run fuel
  vec_grows := R.vec_grows
  inv_record := R.inv_record

/-- The expressions of the inputs of a sequential cell are those of its vectors. -/
structure RegisterParts (V : List Bit → SourceLocation → Expr → Prop) (cell : Cell) (kind : SequentialKind) (src : SourceLocation)
    (operands : RegisterOperands) : Prop where
  data : V (cell.connection "D") src operands.data
  enable : ∀ e ∈ operands.enable, V (cell.connection "EN") src e
  reset : ∀ e ∈ operands.reset, V (cell.connection "SRST") src e
  enable_isSome : operands.enable.isSome = kind.hasEnable
  reset_isSome : operands.reset.isSome = kind.hasSyncReset

/-- The expressions of a write port are those of its vectors. -/
structure WriteParts (V : List Bit → SourceLocation → Expr → Prop) (info : MemoryInfo) (port : Nat) (operands : WriteOperands) :
    Prop where
  full : V (portBits (info.cell.connection "WR_ADDR") port info.abits) info.source operands.full
  enable : V (portBits (info.cell.connection "WR_EN") port info.width) info.source operands.enable
  data : V (portBits (info.cell.connection "WR_DATA") port info.width) info.source operands.data

/-- A connection of a child, over the expression of its vector. -/
structure ConnectionParts (V : List Bit → SourceLocation → Expr → Prop) (entry : String × Cell) (src : SourceLocation)
    (connection : String × List Bit) (result : InstanceConnection) : Prop where
  port_eq : result.port = connection.1
  direction_eq : portDirection? (entry.2.portDirections.getD connection.1 "unknown") = some result.direction
  signal_eq : result.signal = instanceNet entry.1 connection.1
  width_eq : result.width = connection.2.length
  value_isSome : result.value.isSome = decide (entry.2.portDirections.getD connection.1 "unknown" = "input")
  value : ∀ e ∈ result.value, V connection.2 src e

/-- A child instance, over the expressions of the vectors of its inputs. -/
structure InstanceParts (Γ : Ctx) (V : List Bit → SourceLocation → Expr → Prop) (entry : String × Cell) (inst : Instance) : Prop where
  name_eq : inst.name = entry.1
  moduleName_eq : inst.moduleName = entry.2.type
  connections : List.Forall₂ (ConnectionParts V entry (Γ.sourceOf entry.2.src)) entry.2.writtenConnections inst.connections

/-- The output of a port is the expression of its vector. -/
def OutputExpr (Γ : Ctx) (V : List Bit → SourceLocation → Expr → Prop) (entry : String × ModulePort) (output : Output) : Prop :=
  ∃ value, V entry.2.bits (Γ.sourceForBits entry.2.bits) value ∧
    output = ⟨entry.1, entry.2.bits.length, value, Γ.sourceForBits entry.2.bits⟩

/-- The output of a port, when the port is one. -/
structure OutputParts (Γ : Ctx) (V : List Bit → SourceLocation → Expr → Prop) (entry : String × ModulePort) (result : Option Output) :
    Prop where
  output : entry.2.direction = "output" → ∃ output, OutputExpr Γ V entry output ∧ result = some output
  other : entry.2.direction ≠ "output" → result = none

/-- A module is the translation of its netlist: every part is the one of its cell or its port. -/
structure Translated (Γ : Ctx) (V : List Bit → SourceLocation → Expr → Prop) (m : Module) : Prop where
  domains_eq : m.domains = Γ.orderedDomains.map Γ.importDomain
  ports : List.Forall₂ (fun entry port => Γ.importPort entry = some port) Γ.module.ports.entries m.ports
  memories : List.Forall₂ (fun info memory => ∃ operands, List.Forall₂ (WriteParts V info) (List.range info.writePorts) operands ∧
    memory = info.memory (List.zipWith info.writePort (List.range info.writePorts) operands)) Γ.writableMemories m.memories
  registers : List.Forall₂ (fun entry register => ∃ operands, RegisterParts V entry.2.1 entry.2.2 (Γ.sourceOf entry.2.1.src) operands ∧
    Γ.registerOver entry.1 entry.2.1 entry.2.2 operands = some register) Γ.sequentialCells m.registers
  instances : List.Forall₂ (InstanceParts Γ V) Γ.childCells m.instances
  outputs : List.Forall₂ (OutputExpr Γ V) (Γ.module.ports.entries.filter fun entry => entry.2.direction = "output") m.outputs

/-- A weaker property of the expressions of vectors. -/
theorem Translated.imp {Γ : Ctx} {V V' : List Bit → SourceLocation → Expr → Prop} {m : Module} (h : Translated Γ V m)
    (hV : ∀ {bits src e}, V bits src e → V' bits src e) : Translated Γ V' m where
  domains_eq := h.domains_eq
  ports := h.ports
  memories := h.memories.imp fun _ _ ⟨operands, hparts, hmemory⟩ =>
    ⟨operands, hparts.imp fun _ _ hp => ⟨hV hp.full, hV hp.enable, hV hp.data⟩, hmemory⟩
  registers := h.registers.imp fun _ _ ⟨operands, hp, hregister⟩ =>
    ⟨operands, ⟨hV hp.data, fun e he => hV (hp.enable e he), fun e he => hV (hp.reset e he), hp.enable_isSome, hp.reset_isSome⟩,
      hregister⟩
  instances := h.instances.imp fun _ _ hi => ⟨hi.name_eq, hi.moduleName_eq, hi.connections.imp fun _ _ hc =>
    ⟨hc.port_eq, hc.direction_eq, hc.signal_eq, hc.width_eq, hc.value_isSome, fun e he => hV (hc.value e he)⟩⟩
  outputs := h.outputs.imp fun _ _ ⟨value, hv, houtput⟩ => ⟨value, hV hv, houtput⟩

namespace VectorSpec

variable {expr : List Bit → SourceLocation → M Expr} (R : VectorSpec expr) {s : State}

/-- The property of a vector, in a state. -/
abbrev At (s : State) : List Bit → SourceLocation → Expr → Prop := fun bits src e => R.Vec bits src e s

/-- A blocker keeps the invariant. -/
theorem blockIf (condition : Bool) (kind detail : String) (source : SourceLocation) (hs : R.Inv s) :
    wlp (LoomImport.blockIf condition kind detail source) (fun _ s' => R.Inv s' ∧ s.Grows s') s := by
  unfold LoomImport.blockIf block
  cases condition with
  | true =>
    rw [if_pos rfl, wlp_modify]
    exact ⟨R.inv_record hs _, State.grows_record s _⟩
  | false =>
    rw [if_neg Bool.false_ne_true, wlp_pure]
    exact ⟨hs, State.Grows.refl s⟩

/-- A loop that only blocks. -/
theorem forM {α : Type} {u : α → M PUnit} {l : List α}
    (hu : ∀ a ∈ l, ∀ s, R.Inv s → wlp (u a) (fun _ s' => R.Inv s' ∧ s.Grows s') s) (hs : R.Inv s) :
    wlp (l.forM u) (fun _ s' => R.Inv s' ∧ s.Grows s') s := by
  refine wlp_forM (I := fun s' => R.Inv s' ∧ s.Grows s') l (fun a ha s₁ h₁ => ?_) ⟨hs, State.Grows.refl s⟩
  exact wlp_mono (hu a ha s₁ h₁.1) fun _ s₂ h₂ => ⟨h₂.1, h₁.2.trans h₂.2⟩

/-- A loop over what has a property that lasts. -/
theorem mapM {α β : Type} {f : α → M β} {P : α → β → State → Prop}
    (hstable : ∀ {a b s s'}, s.Grows s' → P a b s → P a b s') (l : List α)
    (hf : ∀ a ∈ l, ∀ s, R.Inv s → wlp (f a) (fun b s' => R.Inv s' ∧ s.Grows s' ∧ P a b s') s) (hs : R.Inv s) :
    wlp (l.mapM f) (fun bs s' => R.Inv s' ∧ s.Grows s' ∧ List.Forall₂ (fun a b => P a b s') l bs) s :=
  wlp_mapM (P := P) State.Grows.refl State.Grows.trans hstable l hf s hs

/-- A vector that some cells need. -/
theorem translateIf (condition : Bool) (bits : List Bit) (src : SourceLocation) (hs : R.Inv s) :
    wlp (LoomImport.translateIf condition (expr bits src)) (fun result s' => R.Inv s' ∧ s.Grows s' ∧ result.isSome = condition ∧
      ∀ e ∈ result, R.Vec bits src e s') s := by
  unfold LoomImport.translateIf
  cases condition with
  | true =>
    rw [if_pos rfl, wlp_map]
    refine wlp_mono (R.run bits src s hs) ?_
    rintro e s' ⟨hs', hg, he⟩
    refine ⟨hs', hg, rfl, fun e' he' => ?_⟩
    cases he'
    exact he
  | false =>
    rw [if_neg Bool.false_ne_true, wlp_pure]
    exact ⟨hs, State.Grows.refl s, rfl, fun e he => nomatch he⟩

/-! ## Parts -/

theorem registerParts_grows {s s' : State} (hg : s.Grows s') {cell : Cell} {kind : SequentialKind} {src : SourceLocation}
    {operands : RegisterOperands} (h : RegisterParts (R.At s) cell kind src operands) :
    RegisterParts (R.At s') cell kind src operands :=
  ⟨R.vec_grows hg h.data, fun e he => R.vec_grows hg (h.enable e he), fun e he => R.vec_grows hg (h.reset e he), h.enable_isSome,
    h.reset_isSome⟩

theorem registerOperands (cell : Cell) (kind : SequentialKind) (src : SourceLocation) (hs : R.Inv s) :
    wlp (LoomImport.registerOperands expr cell kind src)
      (fun operands s' => R.Inv s' ∧ s.Grows s' ∧ RegisterParts (R.At s') cell kind src operands) s := by
  unfold LoomImport.registerOperands
  simp only [wlp_bind, wlp_pure]
  refine wlp_mono (R.run _ src s hs) ?_
  rintro data s₁ ⟨hs₁, hg₁, hdata⟩
  refine wlp_mono (R.translateIf _ _ src hs₁) ?_
  rintro enable s₂ ⟨hs₂, hg₂, hsome, henable⟩
  refine wlp_mono (R.translateIf _ _ src hs₂) ?_
  rintro reset s₃ ⟨hs₃, hg₃, hsome', hreset⟩
  exact ⟨hs₃, (hg₁.trans hg₂).trans hg₃, R.vec_grows (hg₂.trans hg₃) hdata, fun e he => R.vec_grows hg₃ (henable e he), hreset,
    hsome, hsome'⟩

theorem writeParts_grows {s s' : State} (hg : s.Grows s') {info : MemoryInfo} {port : Nat} {operands : WriteOperands}
    (h : WriteParts (R.At s) info port operands) : WriteParts (R.At s') info port operands :=
  ⟨R.vec_grows hg h.full, R.vec_grows hg h.enable, R.vec_grows hg h.data⟩

theorem writeOperands (info : MemoryInfo) (port : Nat) (hs : R.Inv s) :
    wlp (LoomImport.writeOperands expr info port)
      (fun operands s' => R.Inv s' ∧ s.Grows s' ∧ WriteParts (R.At s') info port operands) s := by
  unfold LoomImport.writeOperands
  simp only [wlp_bind, wlp_pure]
  refine wlp_mono (R.run _ info.source s hs) ?_
  rintro full s₁ ⟨hs₁, hg₁, hfull⟩
  refine wlp_mono (R.run _ info.source s₁ hs₁) ?_
  rintro enable s₂ ⟨hs₂, hg₂, henable⟩
  refine wlp_mono (R.run _ info.source s₂ hs₂) ?_
  rintro data s₃ ⟨hs₃, hg₃, hdata⟩
  exact ⟨hs₃, (hg₁.trans hg₂).trans hg₃, R.vec_grows (hg₂.trans hg₃) hfull, R.vec_grows hg₃ henable, hdata⟩

/-- The declaration of a memory with write ports. -/
theorem writableMemory (info : MemoryInfo) (hs : R.Inv s) :
    wlp (LoomImport.writableMemory expr info) (fun memory s' => R.Inv s' ∧ s.Grows s' ∧
      ∃ operands, List.Forall₂ (WriteParts (R.At s') info) (List.range info.writePorts) operands ∧
        memory = info.memory (List.zipWith info.writePort (List.range info.writePorts) operands)) s := by
  rw [WritesAux.writableMemory_eq, wlp_map]
  refine wlp_mono (R.mapM (P := fun port operands s' => WriteParts (R.At s') info port operands)
    (fun hg h => R.writeParts_grows hg h) (List.range info.writePorts) (fun port _ s hs => R.writeOperands info port hs) hs) ?_
  rintro operands s' ⟨hs', hg, hparts⟩
  exact ⟨hs', hg, operands, hparts, rfl⟩

/-- The register of a sequential cell. -/
theorem register (Γ : Ctx) (entry : String × Cell × SequentialKind) (hs : R.Inv s) :
    wlp (Γ.register expr entry.1 entry.2.1 entry.2.2) (fun result s' => R.Inv s' ∧ s.Grows s' ∧
      ∃ operands, RegisterParts (R.At s') entry.2.1 entry.2.2 (Γ.sourceOf entry.2.1.src) operands ∧
        Γ.registerOver entry.1 entry.2.1 entry.2.2 operands = result) s := by
  unfold Ctx.register
  rw [wlp_bind]
  refine wlp_mono (R.registerOperands entry.2.1 entry.2.2 _ hs) ?_
  rintro operands s' ⟨hs', hg, hparts⟩
  rw [wlp_pure]
  exact ⟨hs', hg, operands, hparts, rfl⟩

theorem connectionParts_grows {s s' : State} (hg : s.Grows s') {entry : String × Cell} {src : SourceLocation}
    {connection : String × List Bit} {result : InstanceConnection} (h : ConnectionParts (R.At s) entry src connection result) :
    ConnectionParts (R.At s') entry src connection result :=
  ⟨h.port_eq, h.direction_eq, h.signal_eq, h.width_eq, h.value_isSome, fun e he => R.vec_grows hg (h.value e he)⟩

/-- A connection of a child, when its direction is known. -/
theorem instanceConnection (entry : String × Cell) (src : SourceLocation) (connection : String × List Bit) (hs : R.Inv s) :
    wlp (LoomImport.instanceConnection expr entry.1 entry.2 src connection) (fun result s' => R.Inv s' ∧ s.Grows s' ∧
      ∀ c ∈ result, ConnectionParts (R.At s') entry src connection c) s := by
  unfold LoomImport.instanceConnection
  simp only [wlp_bind, wlp_pure]
  refine wlp_mono (R.translateIf _ _ src hs) ?_
  rintro value s' ⟨hs', hg, hsome, hvalue⟩
  refine ⟨hs', hg, fun c hc => ?_⟩
  obtain ⟨direction, hdirection, rfl⟩ := Option.map_eq_some_iff.1 hc
  exact ⟨rfl, hdirection, rfl, rfl, hsome, hvalue⟩

/-- Parts that are all there. -/
theorem forall₂_of_mapM_id {α β : Type} {P : α → β → Prop} {as : List α} {os : List (Option β)} {bs : List β}
    (h : List.Forall₂ (fun a o => ∀ b ∈ o, P a b) as os) (hall : os.mapM id = some bs) : List.Forall₂ P as bs := by
  induction h generalizing bs with
  | nil =>
    cases hall
    exact List.Forall₂.nil
  | cons hao _ ih =>
    rw [List.mapM_cons] at hall
    obtain ⟨b, hb, hall⟩ := Option.bind_eq_some_iff.1 hall
    obtain ⟨bs', hbs', hall⟩ := Option.bind_eq_some_iff.1 hall
    cases hall
    exact List.Forall₂.cons (hao b hb) (ih hbs')

theorem instanceParts_grows {Γ : Ctx} {s s' : State} (hg : s.Grows s') {entry : String × Cell} {inst : Instance}
    (h : InstanceParts Γ (R.At s) entry inst) : InstanceParts Γ (R.At s') entry inst :=
  ⟨h.name_eq, h.moduleName_eq, h.connections.imp fun _ _ hc => R.connectionParts_grows hg hc⟩

/-- A child instance, when the directions of its connections are known. -/
theorem importInstance (Γ : Ctx) (entry : String × Cell) (hs : R.Inv s) :
    wlp (Γ.importInstance expr entry) (fun result s' => R.Inv s' ∧ s.Grows s' ∧ ∀ inst ∈ result, InstanceParts Γ (R.At s') entry inst) s := by
  unfold Ctx.importInstance
  simp only [wlp_bind, wlp_pure]
  refine wlp_mono (R.blockIf _ _ _ _ hs) ?_
  rintro _ s₁ ⟨hs₁, hg₁⟩
  refine wlp_mono (R.forM (fun connection _ s hs => R.blockIf _ _ _ _ hs) hs₁) ?_
  rintro _ s₂ ⟨hs₂, hg₂⟩
  refine wlp_mono (R.mapM (P := fun connection result s' => ∀ c ∈ result, ConnectionParts (R.At s') entry (Γ.sourceOf entry.2.src) connection c)
    (fun hg h c hc => R.connectionParts_grows hg (h c hc)) entry.2.writtenConnections
    (fun connection _ s hs => R.instanceConnection entry _ connection hs) hs₂) ?_
  rintro connections s₃ ⟨hs₃, hg₃, hparts⟩
  refine ⟨hs₃, (hg₁.trans hg₂).trans hg₃, fun inst hinst => ?_⟩
  obtain ⟨cs, hcs, rfl⟩ := Option.map_eq_some_iff.1 hinst
  exact ⟨rfl, rfl, forall₂_of_mapM_id hparts hcs⟩

/-- The output of a port. -/
theorem importOutput (Γ : Ctx) (entry : String × ModulePort) (hs : R.Inv s) :
    wlp (Γ.importOutput expr entry) (fun result s' => R.Inv s' ∧ s.Grows s' ∧
      OutputParts Γ (R.At s') entry result) s := by
  unfold Ctx.importOutput
  by_cases hdirection : entry.2.direction = "output"
  · simp only [if_pos hdirection, wlp_bind, wlp_pure]
    refine wlp_mono (R.run _ _ s hs) ?_
    rintro value s' ⟨hs', hg, hvalue⟩
    exact ⟨hs', hg, fun _ => ⟨_, ⟨value, hvalue, rfl⟩, rfl⟩, fun hno => absurd hdirection hno⟩
  · simp only [if_neg hdirection, wlp_bind, wlp_pure]
    refine wlp_mono (R.blockIf _ _ _ _ hs) ?_
    rintro _ s' ⟨hs', hg⟩
    exact ⟨hs', hg, fun hyes => absurd hyes hdirection, fun _ => rfl⟩

/-- Elements that all have a result. -/
theorem forall₂_of_mapM {α β : Type} {f : α → Option β} {as : List α} {bs : List β} (h : as.mapM f = some bs) :
    List.Forall₂ (fun a b => f a = some b) as bs := by
  induction as generalizing bs with
  | nil =>
    cases h
    exact List.Forall₂.nil
  | cons a as ih =>
    rw [List.mapM_cons] at h
    obtain ⟨b, hb, h⟩ := Option.bind_eq_some_iff.1 h
    obtain ⟨bs', hbs', h⟩ := Option.bind_eq_some_iff.1 h
    cases h
    exact List.Forall₂.cons hb (ih hbs')

theorem outputParts_grows {Γ : Ctx} {s s' : State} (hg : s.Grows s') {entry : String × ModulePort} {result : Option Output}
    (h : OutputParts Γ (R.At s) entry result) : OutputParts Γ (R.At s') entry result := by
  refine ⟨fun hdirection => ?_, h.other⟩
  obtain ⟨output, ⟨value, hvalue, houtput⟩, hresult⟩ := h.output hdirection
  exact ⟨output, ⟨value, R.vec_grows hg hvalue, houtput⟩, hresult⟩

/-- The outputs of the ports that are outputs. -/
theorem forall₂_outputs {Γ : Ctx} {V : List Bit → SourceLocation → Expr → Prop} {ports : List (String × ModulePort)}
    {results : List (Option Output)} (h : List.Forall₂ (OutputParts Γ V) ports results) :
    List.Forall₂ (OutputExpr Γ V) (ports.filter fun entry => entry.2.direction = "output") results.reduceOption := by
  induction h with
  | nil => exact List.Forall₂.nil
  | @cons entry result ports results hentry _ ih =>
    by_cases hdirection : entry.2.direction = "output"
    · obtain ⟨output, houtput, rfl⟩ := hentry.output hdirection
      rw [List.filter_cons, if_pos (decide_eq_true hdirection)]
      exact List.Forall₂.cons houtput ih
    · rw [hentry.other hdirection, List.filter_cons, if_neg (by simpa using hdirection)]
      exact ih

end VectorSpec

open VectorSpec

/-- What a run that translates a module gives. -/
theorem VectorSpec.translate {Γ : Ctx} {fuel : Nat} (R : VectorSpec (expr Γ fuel)) {s : State} (hs : R.Inv s) :
    wlp (Γ.translate fuel) (fun result s' => R.Inv s' ∧ s.Grows s' ∧
      ∀ m ∈ result, Translated Γ (R.At s') m ∧ m.unsupported = s'.unsupported.map UnsupportedRecord.construct) s := by
  unfold Ctx.translate
  simp only [wlp_bind, wlp_pure, wlp_get]
  refine wlp_mono (R.mapM (P := fun info memory s' => ∃ operands,
      List.Forall₂ (WriteParts (R.At s') info) (List.range info.writePorts) operands ∧
        memory = info.memory (List.zipWith info.writePort (List.range info.writePorts) operands)) ?_ Γ.writableMemories
    (fun info _ s hs => R.writableMemory info hs) hs) ?_
  · rintro info memory s s' hg ⟨operands, hparts, hmemory⟩
    exact ⟨operands, hparts.imp fun _ _ h => R.writeParts_grows hg h, hmemory⟩
  rintro memories s₁ ⟨hs₁, hg₁, hmemories⟩
  refine wlp_mono (R.mapM (P := fun entry result s' => ∃ operands,
      RegisterParts (R.At s') entry.2.1 entry.2.2 (Γ.sourceOf entry.2.1.src) operands ∧
        Γ.registerOver entry.1 entry.2.1 entry.2.2 operands = result) ?_ Γ.sequentialCells
    (fun entry _ s hs => R.register Γ entry hs) hs₁) ?_
  · rintro entry result s s' hg ⟨operands, hparts, hresult⟩
    exact ⟨operands, R.registerParts_grows hg hparts, hresult⟩
  rintro registers s₂ ⟨hs₂, hg₂, hregisters⟩
  refine wlp_mono (R.mapM (P := fun entry result s' => ∀ inst ∈ result, InstanceParts Γ (R.At s') entry inst)
    (fun hg h inst hinst => R.instanceParts_grows hg (h inst hinst)) Γ.childCells (fun entry _ s hs => R.importInstance Γ entry hs) hs₂) ?_
  rintro instances s₃ ⟨hs₃, hg₃, hinstances⟩
  refine wlp_mono (R.forM (fun entry _ s hs => R.blockIf _ _ _ _ hs) hs₃) ?_
  rintro _ s₄ ⟨hs₄, hg₄⟩
  refine wlp_mono (R.mapM (P := fun entry result s' => OutputParts Γ (R.At s') entry result)
    (fun hg h => R.outputParts_grows hg h) Γ.module.ports.entries (fun entry _ s hs => R.importOutput Γ entry hs) hs₄) ?_
  rintro outputs s₅ ⟨hs₅, hg₅, houtputs⟩
  refine ⟨hs₅, (((hg₁.trans hg₂).trans hg₃).trans hg₄).trans hg₅, fun m hm => ?_⟩
  obtain ⟨registers', hregisters', hm⟩ := Option.bind_eq_some_iff.1 hm
  obtain ⟨instances', hinstances', hm⟩ := Option.bind_eq_some_iff.1 hm
  obtain ⟨ports, hports, hm⟩ := Option.bind_eq_some_iff.1 hm
  cases hm
  have hrest : s₃.Grows s₅ := hg₄.trans hg₅
  refine ⟨⟨rfl, forall₂_of_mapM hports, ?_, ?_, ?_, forall₂_outputs houtputs⟩, rfl⟩
  · refine hmemories.imp ?_
    rintro info memory ⟨operands, hparts, hmemory⟩
    exact ⟨operands, hparts.imp fun _ _ h => R.writeParts_grows ((hg₂.trans hg₃).trans hrest) h, hmemory⟩
  · refine forall₂_of_mapM_id (hregisters.imp ?_) hregisters'
    rintro entry result ⟨operands, hparts, hresult⟩ register hregister
    exact ⟨operands, R.registerParts_grows (hg₃.trans hrest) hparts, hresult.trans hregister⟩
  · refine forall₂_of_mapM_id (hinstances.imp ?_) hinstances'
    intro entry result h inst hinst
    exact R.instanceParts_grows hrest (h inst hinst)

/-- The parts of a translated module, whatever is known of its expressions. Nothing is blocked before the first of them where nothing of
the module is unsupported. -/
theorem Setting.parts_of_translates {Γ : Setting} {m : Module} (h : Γ.Translates m) :
    Translated Γ.ctx (fun bits _ e => bits ≠ [] → e.width = bits.length) m ∧ (m.unsupported = [] → Γ.start.unsupported = []) := by
  obtain ⟨fuel, s', hrun⟩ := h
  have hstart : (widthSpec (prepared_ctx Γ)).Inv Γ.start := by
    intro key e he
    rw [(prepared Γ).cache] at he
    cases he
  obtain ⟨-, hgrows, hparts⟩ := ((widthSpec (prepared_ctx Γ)).vectorSpec fuel).translate hstart _ _ hrun
  obtain ⟨htranslated, hblocked⟩ := hparts m rfl
  refine ⟨htranslated, fun hclean => ?_⟩
  rw [hclean, eq_comm, List.map_eq_nil_iff] at hblocked
  exact List.subset_nil.1 (hblocked ▸ hgrows.unsupported)

end LoomImport
