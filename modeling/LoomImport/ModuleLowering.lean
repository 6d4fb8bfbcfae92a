import LoomImport.Denotes
import LoomImport.Designs
import LoomImport.Lib.Cursor
import LoomImport.Lib.Dict

/-!
# The lowering of a module

A module is checked at its boundary, then its expressions are lowered in one batch and handed out in order to its registers, the
writes of its memories and its outputs. What is accepted becomes a design with one rule, or a stateless one.
-/

namespace LoomImport

namespace SourceLocation

def validB (location : SourceLocation) : Bool :=
  !location.file.isEmpty && location.startLine > 0 && location.endLine ≥ location.startLine

end SourceLocation

namespace ImportIR

/-- Refuse, at a source position, unless a condition holds. -/
def requireAt (source : SourceLocation) (condition : Bool) (message : String) : Except String Unit :=
  Hw.require condition s!"{source.render}: {message}"

@[simp] theorem requireAt_eq_ok {source : SourceLocation} {condition : Bool} {message : String} {u : Unit} :
    requireAt source condition message = .ok u ↔ condition = true := Hw.require_eq_ok

/-! ## Reads of what is declared -/

/-- Every signal and every memory an expression reads is declared, at its width. -/
def Expr.readsDeclaredB (regWidths memWidths : Dict String Nat) : Expr → Bool
  | .literal .. | .partialLiteral .. => true
  | .signal width name _ => regWidths.get? name == some width
  | .unary _ _ value _ | .slice _ value _ _ | .zeroExtend _ value _ | .signExtend _ value _ =>
    value.readsDeclaredB regWidths memWidths
  | .binary _ _ left right _ | .concat _ left right _ =>
    left.readsDeclaredB regWidths memWidths && right.readsDeclaredB regWidths memWidths
  | .mux _ condition yes no _ =>
    condition.readsDeclaredB regWidths memWidths && yes.readsDeclaredB regWidths memWidths &&
      no.readsDeclaredB regWidths memWidths
  | .memoryRead width memory address _ => memWidths.get? memory == some width && address.readsDeclaredB regWidths memWidths

namespace Module

variable (module : Module)

/-- The expressions of a module, in the order they are lowered. -/
def expressionRoots : List Expr :=
  module.registers.map Register.next ++
    (module.memories.flatMap fun memory => memory.writes.flatMap fun write => [write.enable, write.address, write.data]) ++
    module.outputs.map Output.value

/-- The widths of the registers and the input ports; a port hides a register of its name. -/
def regWidths : Dict String Nat :=
  module.ports.foldl (fun widths port => if port.direction = .input then widths.set port.name port.width else widths)
    (module.registers.foldl (fun widths register => widths.set register.name register.width) Dict.empty)

def memWidths : Dict String Nat :=
  module.memories.foldl (fun widths memory => widths.set memory.name memory.dataWidth) Dict.empty

def sourceReadsDeclaredB : Bool :=
  module.expressionRoots.all fun expression => expression.readsDeclaredB module.regWidths module.memWidths

end Module

/-! ## The boundary -/

/-- An input port other than the clock and the reset. -/
def inputPort (domain : ClockDomain) (port : Port) : Bool :=
  port.direction = .input && port.name ≠ domain.clockPort && domain.reset.port ≠ some port.name

/-- Refuse a module with an unsupported construct. -/
def checkSupported (module : Module) : Except String Unit :=
  match module.unsupported with
  | first :: _ => failAt first.source s!"unsupported imported construct '{first.kind}': {first.detail}"
  | [] => .ok ()

theorem unsupported_of_check {module : Module} {u : Unit} (h : checkSupported module = .ok u) : module.unsupported = [] := by
  unfold checkSupported at h
  split at h
  · cases h
  · assumption

/-- A one-bit input port of some name. -/
def Module.hasInputBit (module : Module) (name : String) : Bool :=
  module.ports.any fun port => port.name = name && port.direction = .input && port.width = 1

/-- The reset of a clock domain: none, or a synchronous one on a port of its own. -/
def checkReset (module : Module) (domain : ClockDomain) : Except String Unit :=
  match domain.reset.kind with
  | .asynchronous | .asynchronousAssertSynchronousRelease =>
    failAt domain.source "asynchronous-reset state must remain behind an ExternalComponent contract"
  | .synchronous =>
    match domain.reset.port with
    | none => failAt domain.source "synchronous reset has no port"
    | some resetPort => do
      requireAt domain.source (module.hasInputBit resetPort) s!"reset port '{resetPort}' is absent or not a one-bit input"
      requireAt domain.source (resetPort ≠ domain.clockPort) "clock and reset ports must be distinct"
  | .resetless => requireAt domain.source domain.reset.port.isNone "resetless clock domain must not name a reset port"

/-- The one clock domain of a module. -/
def onlyDomain (module : Module) : Except String ClockDomain :=
  match module.domains with
  | [domain] => .ok domain
  | domains => failAt module.source s!"ordinary Design lowering requires exactly one clock domain, found {domains.length}"

def checkModuleBoundary (module : Module) : Except String ClockDomain := do
  requireAt module.source module.source.validB "invalid module source location"
  requireAt module.source (!module.name.isEmpty) "module name is empty"
  checkSupported module
  let domain ← onlyDomain module
  requireAt domain.source (!(domain.name.isEmpty || domain.clockPort.isEmpty)) "clock domain name/port is empty"
  requireAt domain.source (module.hasInputBit domain.clockPort)
    s!"clock port '{domain.clockPort}' is absent or not a one-bit input"
  checkReset module domain
  requireAt module.source (!module.ports.any fun port => port.direction = .inout)
    "inout ports require an explicit external pad/tri-state contract"
  requireAt module.source (Hw.Inventory.uniqueB (module.ports.map Port.name)) "duplicate port names"
  requireAt module.source (Hw.Inventory.uniqueB (module.registers.map Register.name)) "duplicate register names"
  requireAt module.source (module.registers.all fun register => register.domain.all (· == domain.name))
    "register names a clock domain other than the lowered domain"
  requireAt module.source (Hw.Inventory.uniqueB (module.memories.map Memory.name)) "duplicate memory names"
  requireAt module.source (Hw.Inventory.uniqueB (module.outputs.map Output.name)) "duplicate output drivers"
  return domain

/-- What passes at the boundary. -/
structure Boundary (module : Module) (domain : ClockDomain) : Prop where
  supported : module.unsupported = []
  domains : module.domains = [domain]
  clock : module.hasInputBit domain.clockPort = true
  ports : (module.ports.map Port.name).Nodup
  registers : (module.registers.map Register.name).Nodup
  memories : (module.memories.map Memory.name).Nodup
  outputs : (module.outputs.map Output.name).Nodup

open DenotesAux in
theorem boundary_of_check {module : Module} {domain : ClockDomain} (h : checkModuleBoundary module = .ok domain) :
    Boundary module domain := by
  obtain ⟨_, -, h⟩ := bind_eq_ok h
  obtain ⟨_, -, h⟩ := bind_eq_ok h
  obtain ⟨_, hsupported, h⟩ := bind_eq_ok h
  obtain ⟨only, honly, h⟩ := bind_eq_ok h
  obtain ⟨_, -, h⟩ := bind_eq_ok h
  obtain ⟨_, hclock, h⟩ := bind_eq_ok h
  obtain ⟨_, -, h⟩ := bind_eq_ok h
  obtain ⟨_, -, h⟩ := bind_eq_ok h
  obtain ⟨_, hports, h⟩ := bind_eq_ok h
  obtain ⟨_, hregisters, h⟩ := bind_eq_ok h
  obtain ⟨_, -, h⟩ := bind_eq_ok h
  obtain ⟨_, hmemories, h⟩ := bind_eq_ok h
  obtain ⟨_, houtputs, h⟩ := bind_eq_ok h
  cases h
  simp only [requireAt_eq_ok, Hw.Inventory.uniqueB_iff] at hclock hports hregisters hmemories houtputs
  refine ⟨unsupported_of_check hsupported, ?_, hclock, hports, hregisters, hmemories, houtputs⟩
  unfold onlyDomain at honly
  split at honly
  · cases honly
    assumption
  · cases honly

/-! ## Parts -/

/-- A memory declaration: the words of its image, and zeros. -/
def Memory.decl (memory : Memory) : Hw.MemDecl where
  name := memory.name
  addrWidth := memory.addressWidth
  dataWidth := memory.dataWidth
  init := fun address => BitVec.ofNat memory.dataWidth (memory.init.getD address 0)

/-- A memory by itself. -/
def lowerMemoryDecl? (memory : Memory) : Except String (Hw.MemDecl × List Hw.Act) := (memory.decl, ·) <$> lowerMemory? memory

/-- An output by itself. -/
def lowerOutput? (output : Output) : Except String Hw.CombOutput := do
  let value ← lowerExpr? output.value >>= fun value => expectWidth output.width value output.source
  return ⟨output.name, output.width, value⟩

/-- The lowered parts of a module. -/
structure LoweredParts where
  registers : List (Hw.RegDecl × Hw.Act)
  memories : List (Hw.MemDecl × List Hw.Act)
  outputs : List Hw.CombOutput

/-- Every part by itself. -/
def lowerParts? (module : Module) : Except String LoweredParts := do
  let registers ← module.registers.mapM lowerRegister?
  let memories ← module.memories.mapM lowerMemoryDecl?
  let outputs ← module.outputs.mapM lowerOutput?
  return ⟨registers, memories, outputs⟩

/-! ### From one batch of roots -/

def lowerExprs? (expressions : List Expr) : Except String (List LoweredExpr) := expressions.mapM lowerExpr?

/-- A computation that hands out the lowered roots. The state is the index of the next one. -/
abbrev RootM := StateT Nat (Except String)

variable (roots : List LoweredExpr)

def nextRoot (source : SourceLocation) : RootM LoweredExpr :=
  Cursor.next roots s!"{source.render}: internal expression-root inventory mismatch"

/-- The next root, at the width it is expected to have. -/
def rootOf (expected : Nat) (source : SourceLocation) : RootM (Hw.Expr expected) := do
  let lowered ← nextRoot roots source
  StateT.lift (expectWidth expected lowered source)

def lowerRegisterAt (register : Register) : RootM (Hw.RegDecl × Hw.Act) := do
  StateT.lift (requireAt register.source (!(register.width = 0 || register.name.isEmpty)) "invalid register declaration")
  let next ← rootOf roots register.width register.source
  return (register.decl, .write register.width register.name next)

/-- The three roots of a write are handed out before their widths are checked. -/
def lowerWriteAt (memory : Memory) (write : MemoryWrite) : RootM Hw.Act := do
  let loweredEnable ← nextRoot roots write.source
  let loweredAddress ← nextRoot roots write.source
  let loweredData ← nextRoot roots write.source
  let enable ← StateT.lift (expectWidth 1 loweredEnable write.source)
  let address ← StateT.lift (expectWidth memory.addressWidth loweredAddress write.source)
  let data ← StateT.lift (expectWidth memory.dataWidth loweredData write.source)
  return .ite enable (.memWrite memory.addressWidth memory.dataWidth memory.name write.port address data) .skip

def lowerMemoryAt (memory : Memory) : RootM (Hw.MemDecl × List Hw.Act) := do
  StateT.lift (checkMemory? memory)
  let actions ← memory.writes.mapM (lowerWriteAt roots memory)
  return (memory.decl, actions)

def lowerOutputAt (output : Output) : RootM Hw.CombOutput := do
  let value ← rootOf roots output.width output.source
  return ⟨output.name, output.width, value⟩

def lowerPartsAt (module : Module) : RootM LoweredParts := do
  let registers ← module.registers.mapM (lowerRegisterAt roots)
  let memories ← module.memories.mapM (lowerMemoryAt roots)
  let outputs ← module.outputs.mapM (lowerOutputAt roots)
  return ⟨registers, memories, outputs⟩

/-! ## Modules -/

/-- A lowered module with its clock and its reset. -/
structure LoweredModule where
  design : Hw.Design
  edge : ClockEdge
  clockPort : String
  reset : Reset
  source : SourceLocation

/-- The design of a module: one rule writes the registers, then the memories. -/
def Module.designOf (module : Module) (domain : ClockDomain) (parts : LoweredParts) : Hw.Design where
  name := module.name
  regs := parts.registers.map Prod.fst
  mems := parts.memories.map Prod.fst
  rules := [⟨"imported_next_state", Hw.sequence (parts.registers.map Prod.snd ++ parts.memories.flatMap Prod.snd)⟩]
  inputs := (module.ports.filter (inputPort domain)).map fun port => ⟨port.name, port.width⟩
  outputs := []
  combOutputs := parts.outputs

def Module.lowerLocalDesign? (module : Module) : Except String LoweredModule := do
  requireAt module.source module.instances.isEmpty
    "hierarchical imports require checked package lowering; single-module lowering cannot bind child nets"
  let domain ← checkModuleBoundary module
  requireAt module.source module.sourceReadsDeclaredB
    "source expression reads an undeclared or wrong-width register/input/memory"
  let roots ← lowerExprs? module.expressionRoots
  let (parts, rootIndex) ← lowerPartsAt roots module 0
  requireAt module.source (rootIndex == roots.length) "internal expression-root inventory has unused entries"
  let design := module.designOf domain parts
  design.emitCheckAfterImportReads
  return ⟨design, domain.edge, domain.clockPort, domain.reset, module.source⟩

/-! ## Stateless modules -/

structure LoweredStatelessModule where
  implementation : Hw.StatelessDesign
  source : SourceLocation

def checkStatelessBoundary (module : Module) : Except String Unit := do
  requireAt module.source module.source.validB "invalid module source location"
  requireAt module.source (!module.name.isEmpty) "module name is empty"
  checkSupported module
  requireAt module.source module.domains.isEmpty "stateless lowering requires no clock domains"
  requireAt module.source (module.registers.isEmpty && module.memories.isEmpty)
    "stateless lowering cannot contain registers or memories"
  requireAt module.source (!module.ports.any fun port => port.direction = .inout)
    "inout ports require an explicit external pad/tri-state contract"
  requireAt module.source (module.ports.all fun port => port.source.validB && !port.name.isEmpty && port.width > 0)
    "invalid stateless port declaration"
  requireAt module.source (Hw.Inventory.uniqueB (module.ports.map Port.name)) "duplicate port names"
  requireAt module.source (Hw.Inventory.uniqueB (module.outputs.map Output.name)) "duplicate output drivers"
  requireAt module.source (module.outputs.all fun output => module.ports.any fun port =>
      port.name = output.name && port.direction = .output && port.width = output.width)
    "an output driver does not match an output port"
  requireAt module.source ((module.ports.filter fun port => port.direction = .output).all fun port =>
      module.outputs.any fun output => output.name = port.name && output.width = port.width)
    "an output port has no exact driver"

/-- The design of a module without state. -/
def Module.statelessDesignOf (module : Module) (outputs : List Hw.CombOutput) : Hw.Design where
  name := module.name
  regs := []
  mems := []
  rules := []
  inputs := (module.ports.filter fun port => port.direction = .input).map fun port => ⟨port.name, port.width⟩
  outputs := []
  combOutputs := outputs

def Module.lowerStatelessDesign? (module : Module) : Except String LoweredStatelessModule := do
  requireAt module.source module.instances.isEmpty
    "hierarchical imports require checked package lowering; single-module lowering cannot bind child nets"
  checkStatelessBoundary module
  let outputs ← module.outputs.mapM lowerOutput?
  let implementation ← Hw.StatelessDesign.check? (module.statelessDesignOf outputs)
  return ⟨implementation, module.source⟩

/-! ## The batch and the parts -/

namespace ModuleLoweringAux

open DenotesAux Cursor

/-- The lowering of an expression that has one. -/
def low (e : Expr) : LoweredExpr :=
  match lowerExpr? e with
  | .ok lowered => lowered
  | .error _ => ⟨0, .lit 0⟩

theorem low_eq {e : Expr} {lowered : LoweredExpr} (h : lowerExpr? e = .ok lowered) : low e = lowered := by
  simp [low, h]

/-- A batch that is lowered has a lowering for each of its expressions. -/
theorem lowerExprs?_ok {expressions : List Expr} {roots : List LoweredExpr} (h : lowerExprs? expressions = .ok roots) :
    (∀ e ∈ expressions, lowerExpr? e = .ok (low e)) ∧ roots = expressions.map low := by
  induction expressions generalizing roots with
  | nil =>
    cases h
    simp
  | cons e expressions ih =>
    unfold lowerExprs? at h
    rw [List.mapM_cons] at h
    obtain ⟨first, hfirst, h⟩ := bind_eq_ok h
    obtain ⟨rest, hrest, h⟩ := bind_eq_ok h
    cases h
    obtain ⟨hall, rfl⟩ := ih hrest
    have hlow := low_eq hfirst
    refine ⟨fun e' he' => ?_, by rw [List.map_cons, hlow]⟩
    rcases List.mem_cons.1 he' with rfl | he'
    · rw [hlow, hfirst]
    · exact hall e' he'

/-- Expressions that lower are lowered as a batch. -/
theorem lowerExprs?_map {expressions : List Expr} (h : ∀ e ∈ expressions, lowerExpr? e = .ok (low e)) :
    lowerExprs? expressions = .ok (expressions.map low) := by
  induction expressions with
  | nil => rfl
  | cons e expressions ih =>
    have hrest := ih fun e' he' => h e' (List.mem_cons_of_mem e he')
    unfold lowerExprs? at hrest ⊢
    rw [List.mapM_cons, h e List.mem_cons_self, ok_bind, hrest, ok_bind]
    rfl

variable {roots : List LoweredExpr}

theorem takes_root {e : Expr} (h : lowerExpr? e = .ok (low e)) (expected : Nat) (source : SourceLocation) :
    Takes roots (rootOf roots expected source) [low e] (lowerExpr? e >>= fun value => expectWidth expected value source) := by
  rw [h]
  exact (takes_next roots _ (low e)).bind fun lowered _ => takes_lift roots _

/-- One register: the check on its declaration comes first. -/
theorem lowerRegister?_eq (register : Register) : lowerRegister? register =
    (requireAt register.source (!(register.width = 0 || register.name.isEmpty)) "invalid register declaration" >>= fun _ => do
      let next ← lowerExpr? register.next >>= fun value => expectWidth register.width value register.source
      return (register.decl, .write register.width register.name next)) := by
  unfold lowerRegister? requireAt Hw.require failAt
  by_cases hbad : register.width = 0 ∨ register.name.isEmpty = true
  · have hrefused : (!(decide (register.width = 0) || register.name.isEmpty)) = false := by
      rcases hbad with hzero | hempty <;> simp [*]
    rw [if_pos hbad, hrefused]
    rfl
  · have haccepted : (!(decide (register.width = 0) || register.name.isEmpty)) = true := by simpa using hbad
    rw [if_neg hbad, haccepted]
    rfl

theorem takes_register {register : Register} (h : lowerExpr? register.next = .ok (low register.next)) :
    Takes roots (lowerRegisterAt roots register) [low register.next] (lowerRegister? register) := by
  rw [lowerRegister?_eq]
  refine (takes_lift roots _).bind fun _ _ => ?_
  exact (takes_root h register.width register.source).andThen fun next => takes_pure roots _

theorem takes_write (memory : Memory) {write : MemoryWrite}
    (h : ∀ e ∈ [write.enable, write.address, write.data], lowerExpr? e = .ok (low e)) :
    Takes roots (lowerWriteAt roots memory write) ([write.enable, write.address, write.data].map low) (lowerWrite? memory write) := by
  have hbatch : lowerWrite? memory write = (.ok (low write.enable) >>= fun loweredEnable => .ok (low write.address) >>= fun loweredAddress =>
      .ok (low write.data) >>= fun loweredData => do
        let enable ← expectWidth 1 loweredEnable write.source
        let address ← expectWidth memory.addressWidth loweredAddress write.source
        let data ← expectWidth memory.dataWidth loweredData write.source
        return .ite enable (.memWrite memory.addressWidth memory.dataWidth memory.name write.port address data) .skip) := by
    unfold lowerWrite?
    rw [h write.enable (by simp), h write.address (by simp), h write.data (by simp)]
    rfl
  rw [hbatch]
  refine (takes_next roots _ (low write.enable)).bind fun loweredEnable _ => ?_
  refine (takes_next roots _ (low write.address)).bind fun loweredAddress _ => ?_
  refine (takes_next roots _ (low write.data)).andThen fun loweredData => ?_
  refine (takes_lift roots _).andThen fun enable => ?_
  refine (takes_lift roots _).andThen fun address => ?_
  exact (takes_lift roots _).andThen fun data => takes_pure roots _

theorem takes_memory {memory : Memory}
    (h : ∀ write ∈ memory.writes, ∀ e ∈ [write.enable, write.address, write.data], lowerExpr? e = .ok (low e)) :
    Takes roots (lowerMemoryAt roots memory)
      ((memory.writes.flatMap fun write => [write.enable, write.address, write.data]).map low) (lowerMemoryDecl? memory) := by
  have hparts : lowerMemoryDecl? memory = (checkMemory? memory >>= fun _ => (memory.decl, ·) <$> memory.writes.mapM (lowerWrite? memory)) := by
    unfold lowerMemoryDecl? lowerMemory?
    cases checkMemory? memory <;> rfl
  rw [hparts, List.map_flatMap]
  refine (takes_lift roots _).bind fun _ _ => ?_
  exact (takes_mapM fun write hwrite => takes_write memory (h write hwrite)).andThen fun actions => takes_pure roots _

theorem takes_output {output : Output} (h : lowerExpr? output.value = .ok (low output.value)) :
    Takes roots (lowerOutputAt roots output) [low output.value] (lowerOutput? output) :=
  (takes_root h output.width output.source).andThen fun _ => takes_pure roots _

/-- The batch hands every part its own roots, and none is left over. -/
theorem takes_parts {module : Module} (h : ∀ e ∈ module.expressionRoots, lowerExpr? e = .ok (low e)) :
    Takes roots (lowerPartsAt roots module) (module.expressionRoots.map low) (lowerParts? module) := by
  unfold Module.expressionRoots at h
  simp only [List.mem_append, or_imp, forall_and, List.mem_map, List.mem_flatMap, forall_exists_index, and_imp,
    forall_apply_eq_imp_iff₂] at h
  obtain ⟨⟨hregisters, hmemories⟩, houtputs⟩ := h
  unfold Module.expressionRoots
  rw [List.map_append, List.map_append, List.map_map, List.map_map, List.map_flatMap, List.append_assoc, List.map_eq_flatMap,
    List.map_eq_flatMap]
  unfold lowerPartsAt lowerParts?
  refine (takes_mapM fun register hregister => takes_register (hregisters register hregister)).bind fun registers _ => ?_
  refine (takes_mapM fun memory hmemory => takes_memory ?_).bind fun memories _ => ?_
  · exact fun write hwrite e he => hmemories e memory hmemory write hwrite he
  exact (takes_mapM fun output houtput => takes_output (houtputs output houtput)).andThen fun outputs => takes_pure roots _

theorem map_eq_ok {ε α β : Type} {x : Except ε α} {f : α → β} {b : β} (h : f <$> x = .ok b) : ∃ a, x = .ok a ∧ f a = b := by
  cases x with
  | error e => cases h
  | ok a => exact ⟨a, rfl, Except.ok.inj h⟩

theorem bind_ok {ε α β : Type} {x : Except ε α} {a : α} (h : x = .ok a) (f : α → Except ε β) : (x >>= f) = f a := by
  rw [h]
  rfl

theorem mapM_ok_of_mem {ε α β : Type} {f : α → Except ε β} {l : List α} {bs : List β} (h : l.mapM f = .ok bs) {a : α} (ha : a ∈ l) :
    ∃ b, f a = .ok b := by
  induction l generalizing bs with
  | nil => cases ha
  | cons x l ih =>
    rw [List.mapM_cons] at h
    obtain ⟨b, hb, h⟩ := bind_eq_ok h
    obtain ⟨rest, hrest, -⟩ := bind_eq_ok h
    rcases List.mem_cons.1 ha with rfl | ha
    · exact ⟨b, hb⟩
    · exact ih hrest ha

/-- Elements that all have a result. -/
theorem forall₂_of_mapM {ε α β : Type} {f : α → Except ε β} {as : List α} {bs : List β} (h : as.mapM f = .ok bs) :
    List.Forall₂ (fun a b => f a = .ok b) as bs := by
  induction as generalizing bs with
  | nil =>
    cases h
    exact List.Forall₂.nil
  | cons a as ih =>
    rw [List.mapM_cons] at h
    obtain ⟨b, hb, h⟩ := bind_eq_ok h
    obtain ⟨rest, hrest, h⟩ := bind_eq_ok h
    cases h
    exact List.Forall₂.cons hb (ih hrest)

/-- The expressions of a module whose parts are lowered are lowered. -/
theorem lowers_of_parts {module : Module} {parts : LoweredParts} (h : lowerParts? module = .ok parts) :
    ∀ e ∈ module.expressionRoots, lowerExpr? e = .ok (low e) := by
  have lowers : ∀ {e : Expr} {w : Nat} {source : SourceLocation} {value : Hw.Expr w},
      (lowerExpr? e >>= fun value => expectWidth w value source) = .ok value → lowerExpr? e = .ok (low e) := by
    intro e w source value hvalue
    obtain ⟨lowered, hlowered, -⟩ := bind_eq_ok hvalue
    rw [low_eq hlowered, hlowered]
  obtain ⟨registers, hregisters, h⟩ := bind_eq_ok h
  obtain ⟨memories, hmemories, h⟩ := bind_eq_ok h
  obtain ⟨outputs, houtputs, -⟩ := bind_eq_ok h
  intro e he
  rcases List.mem_append.1 he with he | he
  · rcases List.mem_append.1 he with he | he
    · obtain ⟨register, hmem, rfl⟩ := List.mem_map.1 he
      obtain ⟨lowered, hlowered⟩ := mapM_ok_of_mem hregisters hmem
      rw [lowerRegister?_eq] at hlowered
      obtain ⟨_, -, hlowered⟩ := bind_eq_ok hlowered
      obtain ⟨next, hnext, -⟩ := bind_eq_ok hlowered
      exact lowers hnext
    · obtain ⟨memory, hmem, he⟩ := List.mem_flatMap.1 he
      obtain ⟨write, hwrite, he⟩ := List.mem_flatMap.1 he
      obtain ⟨lowered, hlowered⟩ := mapM_ok_of_mem hmemories hmem
      obtain ⟨actions, hactions, -⟩ := map_eq_ok hlowered
      obtain ⟨_, -, hactions⟩ := bind_eq_ok hactions
      obtain ⟨action, haction⟩ := mapM_ok_of_mem hactions hwrite
      obtain ⟨enable, henable, haction⟩ := bind_eq_ok haction
      obtain ⟨address, haddress, haction⟩ := bind_eq_ok haction
      obtain ⟨data, hdata, -⟩ := bind_eq_ok haction
      rcases List.mem_cons.1 he with rfl | he
      · exact lowers henable
      · rcases List.mem_cons.1 he with rfl | he
        · exact lowers haddress
        · exact List.mem_singleton.1 he ▸ lowers hdata
  · obtain ⟨output, hmem, rfl⟩ := List.mem_map.1 he
    obtain ⟨lowered, hlowered⟩ := mapM_ok_of_mem houtputs hmem
    obtain ⟨value, hvalue, -⟩ := bind_eq_ok hlowered
    exact lowers hvalue

/-- Handing out the roots gives every part by itself, and uses them up. -/
theorem lowerPartsAt_eq {module : Module} (h : ∀ e ∈ module.expressionRoots, lowerExpr? e = .ok (low e)) :
    lowerPartsAt (module.expressionRoots.map low) module 0 =
      (lowerParts? module).map fun parts => (parts, (module.expressionRoots.map low).length) := by
  have htakes := @takes_parts (module.expressionRoots.map low) module h 0 (by simp)
  rwa [Nat.zero_add] at htakes

end ModuleLoweringAux

open ModuleLoweringAux DenotesAux

/-- A module is lowered as its parts are, each by itself: the roots that are handed out in order are those of the part that asks for
them, and none is missing or left over. -/
theorem lowerLocalDesign?_batch (module : Module) : module.lowerLocalDesign? = (do
    requireAt module.source module.instances.isEmpty
      "hierarchical imports require checked package lowering; single-module lowering cannot bind child nets"
    let domain ← checkModuleBoundary module
    requireAt module.source module.sourceReadsDeclaredB
      "source expression reads an undeclared or wrong-width register/input/memory"
    let _ ← lowerExprs? module.expressionRoots
    let parts ← lowerParts? module
    (module.designOf domain parts).emitCheckAfterImportReads
    return ⟨module.designOf domain parts, domain.edge, domain.clockPort, domain.reset, module.source⟩) := by
  unfold Module.lowerLocalDesign?
  refine bind_congr fun _ => bind_congr fun domain => bind_congr fun _ => ?_
  cases hroots : lowerExprs? module.expressionRoots with
  | error message => rfl
  | ok roots =>
    obtain ⟨hlow, rfl⟩ := lowerExprs?_ok hroots
    rw [ok_bind, ok_bind, lowerPartsAt_eq hlow]
    cases lowerParts? module with
    | error message => rfl
    | ok parts =>
      have hused : requireAt module.source ((module.expressionRoots.map low).length == (module.expressionRoots.map low).length)
          "internal expression-root inventory has unused entries" = .ok () := requireAt_eq_ok.2 (beq_self_eq_true _)
      show (requireAt _ _ _ >>= _) = _
      rw [hused]
      rfl

/-- A module is lowered exactly when it passes at its boundary, its source reads are declared, each of its parts is lowered by
itself and the design passes the gate: the batch of roots refuses nothing more, and mixes nothing up. -/
theorem lowerLocalDesign?_eq_ok {module : Module} {lowered : LoweredModule} :
    module.lowerLocalDesign? = .ok lowered ↔
      ∃ domain parts, module.instances = [] ∧ checkModuleBoundary module = .ok domain ∧ module.sourceReadsDeclaredB = true ∧
        lowerParts? module = .ok parts ∧ (module.designOf domain parts).emitCheckAfterImportReads = .ok () ∧
        lowered = ⟨module.designOf domain parts, domain.edge, domain.clockPort, domain.reset, module.source⟩ := by
  unfold Module.lowerLocalDesign?
  constructor
  · intro h
    obtain ⟨_, hinstances, h⟩ := bind_eq_ok h
    obtain ⟨domain, hdomain, h⟩ := bind_eq_ok h
    obtain ⟨_, hreads, h⟩ := bind_eq_ok h
    obtain ⟨roots, hroots, h⟩ := bind_eq_ok h
    obtain ⟨hlow, rfl⟩ := lowerExprs?_ok hroots
    obtain ⟨⟨parts, rootIndex⟩, hparts, h⟩ := bind_eq_ok h
    obtain ⟨_, -, h⟩ := bind_eq_ok h
    obtain ⟨_, hgate, h⟩ := bind_eq_ok h
    cases h
    rw [lowerPartsAt_eq hlow] at hparts
    obtain ⟨parts', hparts', heq⟩ := map_eq_ok hparts
    cases heq
    exact ⟨domain, parts, List.isEmpty_iff.1 (requireAt_eq_ok.1 hinstances), hdomain, requireAt_eq_ok.1 hreads, hparts', hgate, rfl⟩
  · rintro ⟨domain, parts, hinstances, hdomain, hreads, hparts, hgate, rfl⟩
    have hlow := lowers_of_parts hparts
    have hbatch := lowerPartsAt_eq hlow
    rw [hparts] at hbatch
    have accepted : ∀ {source : SourceLocation} {condition : Bool} {message : String}, condition = true →
        requireAt source condition message = .ok () := requireAt_eq_ok.2
    rw [bind_ok (accepted (List.isEmpty_iff.2 hinstances)), bind_ok hdomain, bind_ok (accepted hreads),
      bind_ok (lowerExprs?_map hlow), bind_ok hbatch]
    simp only
    rw [bind_ok (accepted (beq_self_eq_true _)), bind_ok hgate]
    rfl

end ImportIR

end LoomImport
