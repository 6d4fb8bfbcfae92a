import LoomImport.Hw
import LoomImport.Lib.Machines
import LoomImport.Lib.Uniqueness

/-!
# Synchronous designs

A design declares registers, memories, inputs and outputs; its rules write them at the end of a cycle. Designs are run cycle by cycle
under what the environment drives on their inputs, and checked before they are emitted.
-/

namespace LoomImport

namespace Hw

/-! ## Designs -/

/-- A memory declaration, with its power-up words. -/
structure MemDecl where
  name : String
  addrWidth : Nat
  dataWidth : Nat
  init : Nat → BitVec dataWidth

/-- A named atomic rule. -/
structure Rule where
  name : String
  body : Act

/-- An input port. Expressions read it as they read registers. -/
structure InputDecl where
  name : String
  width : Nat

/-- A named expression over the state and the inputs of a cycle. -/
structure CombOutput where
  name : String
  width : Nat
  value : Expr width

/-- A synchronous design. `outputs` names the registers it exports. -/
structure Design where
  name : String
  regs : List RegDecl
  mems : List MemDecl
  rules : List Rule
  inputs : List InputDecl
  outputs : List String
  combOutputs : List CombOutput

/-! ## Registers of distinct names -/

/-- Registers of distinct names that are set one after the other, and the other registers. -/
theorem RegEnv.foldl_set {α : Type} (name : α → String) (width : α → Nat) (value : ∀ a, BitVec (width a)) {l : List α}
    (hl : (l.map name).Nodup) (ρ : RegEnv) :
    (∀ a ∈ l, (l.foldl (fun ρ a => ρ.set (name a) (value a)) ρ) (name a) (width a) = value a) ∧
      ∀ n w, n ∉ l.map name → (l.foldl (fun ρ a => ρ.set (name a) (value a)) ρ) n w = ρ n w := by
  induction l generalizing ρ with
  | nil => exact ⟨by simp, fun n w _ => rfl⟩
  | cons a l ih =>
    rw [List.map_cons, List.nodup_cons] at hl
    obtain ⟨hset, hother⟩ := ih hl.2 (ρ.set (name a) (value a))
    refine ⟨fun b hb => ?_, fun n w hn => ?_⟩
    · rcases List.mem_cons.1 hb with rfl | hb
      · rw [List.foldl_cons, hother _ _ hl.1, set_self]
      · exact hset b hb
    · rw [List.map_cons, List.mem_cons, not_or] at hn
      rw [List.foldl_cons, hother n w hn.2, set_ne ρ _ w hn.1]

/-- Actions that each write a register of their own, with a value that has a property. -/
theorem run_writes {α : Type} {name : α → String} {width : α → Nat} {P : ∀ a, BitVec (width a) → Prop} {σ : St} {l : List α}
    {acts : List Act}
    (h : List.Forall₂ (fun a act => ∃ v, P a v ∧ ∀ acc : St, act.run σ acc = { acc with regs := acc.regs.set (name a) v }) l acts)
    (hl : (l.map name).Nodup) (acc : St) :
    (acts.foldl (fun s act => act.run σ s) acc).mems = acc.mems ∧
      (∀ a ∈ l, P a ((acts.foldl (fun s act => act.run σ s) acc).regs (name a) (width a))) ∧
      ∀ n w, n ∉ l.map name → (acts.foldl (fun s act => act.run σ s) acc).regs n w = acc.regs n w := by
  induction h generalizing acc with
  | nil => exact ⟨rfl, by simp, fun n w _ => rfl⟩
  | @cons a act l acts hact _ ih =>
    rw [List.map_cons, List.nodup_cons] at hl
    obtain ⟨v, hv, hrun⟩ := hact
    obtain ⟨hmems, hset, hother⟩ := ih hl.2 (act.run σ acc)
    refine ⟨?_, fun b hb => ?_, fun n w hn => ?_⟩
    · rw [List.foldl_cons, hmems, hrun]
    · rcases List.mem_cons.1 hb with rfl | hb
      · rw [List.foldl_cons, hother _ _ hl.1, hrun]
        simpa only [RegEnv.set_self] using hv
      · exact hset b hb
    · rw [List.map_cons, List.mem_cons, not_or] at hn
      rw [List.foldl_cons, hother n w hn.2, hrun]
      exact RegEnv.set_ne acc.regs v w hn.1

namespace Design

/-- The registers a design exports, in declaration order. -/
def exportedRegs (d : Design) : List RegDecl := d.regs.filter fun r => d.outputs.contains r.name

/-! ## Cycles -/

/-- One cycle: the rules run in order, and all read the state before the cycle. -/
def cycle (d : Design) (σ : St) : St := d.rules.foldl (fun acc r => r.body.run σ acc) σ

/-- The state at reset. -/
def reset (d : Design) : St where
  regs := d.regs.foldl (fun ρ r => ρ.set r.name r.init) (fun _ w => 0#w)
  mems := d.mems.foldl (fun μ m => fun n a w =>
    if n = m.name ∧ w = m.dataWidth ∧ a < 2 ^ m.addrWidth then (m.init a).setWidth w else μ n a w) (fun _ _ w => 0#w)

end Design

namespace Design

/-- The registers at reset: the power-up values of those that are declared, and zeros. -/
theorem reset_regs {d : Design} (hd : (d.regs.map RegDecl.name).Nodup) :
    (∀ r ∈ d.regs, d.reset.regs r.name r.width = r.init) ∧ ∀ n w, n ∉ d.regs.map RegDecl.name → d.reset.regs n w = 0 :=
  RegEnv.foldl_set RegDecl.name RegDecl.width RegDecl.init hd _

/-- The words of the memories at reset. -/
theorem reset_mems {d : Design} (hd : (d.mems.map MemDecl.name).Nodup) {m : MemDecl} (hm : m ∈ d.mems) {a : Nat}
    (ha : a < 2 ^ m.addrWidth) : d.reset.mems m.name a m.dataWidth = m.init a := by
  -- a later memory of another name leaves the words as they are
  have other : ∀ (l : List MemDecl) (μ : String → Nat → (w : Nat) → BitVec w) (n : String) (x w : Nat), n ∉ l.map MemDecl.name →
      (l.foldl (fun μ m => fun n a w =>
        if n = m.name ∧ w = m.dataWidth ∧ a < 2 ^ m.addrWidth then (m.init a).setWidth w else μ n a w) μ) n x w = μ n x w := by
    intro l
    induction l with
    | nil => exact fun _ _ _ _ _ => rfl
    | cons m' l ih =>
      intro μ n x w hn
      rw [List.map_cons, List.mem_cons, not_or] at hn
      rw [List.foldl_cons, ih _ n x w hn.2, if_neg fun h => hn.1 h.1]
  obtain ⟨before, after, hmems⟩ := List.append_of_mem hm
  rw [hmems, List.map_append, List.map_cons] at hd
  have hafter : m.name ∉ after.map MemDecl.name := (List.nodup_cons.1 (List.nodup_append.1 hd).2.1).1
  show (d.mems.foldl (fun (μ : String → Nat → (w : Nat) → BitVec w) m => fun n a w =>
    if n = m.name ∧ w = m.dataWidth ∧ a < 2 ^ m.addrWidth then (m.init a).setWidth w else μ n a w) (fun _ _ w => 0#w))
      m.name a m.dataWidth = m.init a
  rw [hmems, List.foldl_append, List.foldl_cons]
  refine (other after _ m.name a m.dataWidth hafter).trans ?_
  rw [if_pos ⟨rfl, rfl, ha⟩, BitVec.setWidth_eq]

end Design

/-- What the environment drives on the inputs. -/
def InEnv := String → (w : Nat) → BitVec w

/-- A state with its inputs driven. -/
def St.setInputs (σ : St) (ins : List InputDecl) (ι : InEnv) : St :=
  { σ with regs := ins.foldl (fun ρ i => ρ.set i.name (ι i.name i.width)) σ.regs }

namespace Design

/-- The value of an output during a cycle. -/
def evalCombOutput (d : Design) (ι : InEnv) (σ : St) (output : CombOutput) : BitVec output.width :=
  output.value.eval (σ.setInputs d.inputs ι)

/-- One cycle under what the environment drives. -/
def cycleOpen (d : Design) (ι : InEnv) (σ : St) : St := d.cycle (σ.setInputs d.inputs ι)

/-- Some cycles, each under its inputs. -/
def runOpen (d : Design) (ιs : Nat → InEnv) : Nat → St → St
  | 0, σ => σ
  | n + 1, σ => d.runOpen (fun k => ιs (k + 1)) n (d.cycleOpen (ιs 0) σ)

end Design

/-- What is seen of a cycle: the outputs, by name. -/
abbrev Observation := List (String × (w : Nat) × BitVec w)

namespace Design

def observe (d : Design) (ι : InEnv) (σ : St) : Observation :=
  d.combOutputs.map fun output => (output.name, ⟨output.width, d.evalCombOutput ι σ output⟩)

/-- A design as a machine: it starts at reset. -/
def machine (d : Design) : Machines.Machine InEnv Observation := .ofFun d.reset d.observe d.cycleOpen

/-- The cycles of `runOpen` are a run of the machine. -/
theorem run_machine (d : Design) (ιs : Nat → InEnv) (n : Nat) (σ : St) :
    d.machine.Run σ ((List.range n).map ιs) ((List.range n).map fun k => d.observe (ιs k) (d.runOpen ιs k σ)) (d.runOpen ιs n σ) := by
  induction n generalizing ιs σ with
  | zero => exact Machines.Machine.Run.nil (M := d.machine) σ
  | succ n ih =>
    rw [List.range_succ_eq_map, List.map_cons, List.map_cons, List.map_map, List.map_map]
    exact Machines.Machine.Run.cons (M := d.machine) ⟨rfl, rfl⟩ (ih (fun k => ιs (k + 1)) (d.cycleOpen (ιs 0) σ))

end Design

/-! ## What is read -/

/-- The registers, and the memories, an expression reads, with the widths it reads them at. -/
def Expr.readSites : {w : Nat} → Expr w → List (String × Nat) × List (String × Nat)
  | _, .lit _ => ([], [])
  | w, .reg _ n => ([(n, w)], [])
  | _, .memRead dw m a => (a.readSites.1, (m, dw) :: a.readSites.2)
  | _, .and a b | _, .or a b | _, .xor a b | _, .add a b | _, .sub a b | _, .mul a b | _, .udiv a b | _, .urem a b
  | _, .shl a b | _, .shr a b | _, .eq a b | _, .ult a b | _, .slt a b =>
    (a.readSites.1 ++ b.readSites.1, a.readSites.2 ++ b.readSites.2)
  | _, .mux c t f => (c.readSites.1 ++ t.readSites.1 ++ f.readSites.1, c.readSites.2 ++ t.readSites.2 ++ f.readSites.2)
  | _, .not a | _, .slice a _ _ | _, .zext a _ | _, .sext a _ => a.readSites

/-- The registers and memories an action reads. -/
def Act.readSites : Act → List (String × Nat) × List (String × Nat)
  | .skip => ([], [])
  | .seq a b => (a.readSites.1 ++ b.readSites.1, a.readSites.2 ++ b.readSites.2)
  | .ite c t e => (c.readSites.1 ++ t.readSites.1 ++ e.readSites.1, c.readSites.2 ++ t.readSites.2 ++ e.readSites.2)
  | .write _ _ v => v.readSites
  | .memWrite _ _ _ _ a v => (a.readSites.1 ++ v.readSites.1, a.readSites.2 ++ v.readSites.2)

namespace Design

/-- The registers and memories a design reads. -/
def readSites (d : Design) : List (String × Nat) × List (String × Nat) :=
  let ruleSites := d.rules.foldl (fun acc rule => (acc.1 ++ rule.body.readSites.1, acc.2 ++ rule.body.readSites.2)) ([], [])
  d.combOutputs.foldl (fun acc output => (acc.1 ++ output.value.readSites.1, acc.2 ++ output.value.readSites.2)) ruleSites

/-- The reads of what is neither a register nor an input, or has another width. -/
def badRegReads (d : Design) : List (String × Nat) :=
  d.readSites.1.filter fun site =>
    !((d.regs.any fun r => r.name = site.1 && r.width = site.2) || d.inputs.any fun i => i.name = site.1 && i.width = site.2)

/-- The reads of what is no memory, or has another width. -/
def badMemReads (d : Design) : List (String × Nat) :=
  d.readSites.2.filter fun site => !d.mems.any fun m => m.name = site.1 && m.dataWidth = site.2

/-- Every read is of a declaration, at its width. -/
def readsOkB (d : Design) : Bool := d.badRegReads.isEmpty && d.badMemReads.isEmpty

/-! ## What is written -/

def registerDeclOk (d : Design) (width : Nat) (name : String) : Bool := d.regs.any fun reg => reg.name == name && reg.width == width

def memoryDeclOk (d : Design) (addrWidth dataWidth : Nat) (name : String) : Bool :=
  (d.mems.any fun mem => mem.name == name) &&
    d.mems.all fun mem => mem.name != name || mem.addrWidth == addrWidth && mem.dataWidth == dataWidth

/-- An action writes declared registers and memories, at their widths. -/
def actionDeclsOk (d : Design) : Act → Bool
  | .skip => true
  | .seq left right => d.actionDeclsOk left && d.actionDeclsOk right
  | .ite _ thenAct elseAct => d.actionDeclsOk thenAct && d.actionDeclsOk elseAct
  | .write width name _ => d.registerDeclOk width name
  | .memWrite aw dw name _ _ _ => d.memoryDeclOk aw dw name

end Design

/-- The ports of a memory an action writes, in order. -/
def portTrace (m : String) : Act → List Nat
  | .skip => []
  | .seq a b => portTrace m a ++ portTrace m b
  | .ite _ t e => portTrace m t ++ portTrace m e
  | .memWrite _ _ m' p _ _ => if m' = m then [p] else []
  | .write .. => []

namespace Design

def designTrace (d : Design) (m : String) : List Nat := d.rules.flatMap fun rule => portTrace m rule.body

/-- The names are distinct, only what is declared is written, and the ports of every memory are written in increasing order. -/
def designWFCheck (d : Design) : Bool :=
  decide (d.regs.map RegDecl.name).Nodup && decide (d.mems.map MemDecl.name).Nodup &&
    (d.rules.all fun rule => d.actionDeclsOk rule.body) &&
    d.mems.all fun mem => decide ((d.designTrace mem.name).Pairwise fun a b => a < b)

end Design

/-! ## The gate before emission -/

/-- Refuse unless a condition holds. -/
def require (condition : Bool) (message : String) : Except String Unit := if condition then .ok () else .error message

@[simp] theorem require_eq_ok {condition : Bool} {message : String} {u : Unit} : require condition message = .ok u ↔ condition = true := by
  cases condition <;> simp [require]

namespace Inventory

def uniqueB {α : Type} [BEq α] (items : List α) : Bool := items.eraseDups.length == items.length

theorem uniqueB_iff {α : Type} [BEq α] [LawfulBEq α] {items : List α} : uniqueB items = true ↔ items.Nodup := by
  rw [uniqueB, beq_iff_eq, Uniqueness.length_eraseDups_eq]

end Inventory

namespace Design

/-- The refusal of a read of a register at another width, or of what is no register. -/
def badRegReadError (d : Design) (n : String) (w : Nat) : String :=
  match d.regs.find? (fun r => r.name = n), d.inputs.find? (fun i => i.name = n) with
  | some r, _ =>
    s!"Design.emit: design '{d.name}' reads register '{n}' at width {w}, but it is declared at width {r.width}. A wrong-width read is SILENT without this check — it evaluates to 0 forever (W1.1)."
  | none, some i =>
    s!"Design.emit: design '{d.name}' reads input '{n}' at width {w}, but it is declared at width {i.width} (W1.1)."
  | none, none =>
    s!"Design.emit: design '{d.name}' reads '{n}' (width {w}), which is neither a declared register nor a declared input. A read of an undeclared name is SILENT without this check — it evaluates to 0 forever, so a typo becomes a design that simulates and emits and is simply wrong (W1.1)."

/-- The refusal of a read of a memory at another width, or of what is no memory. -/
def badMemReadError (d : Design) (m : String) (dw : Nat) : String :=
  match d.mems.find? (fun md => md.name = m) with
  | some md => s!"Design.emit: design '{d.name}' reads memory '{m}' at data width {dw}, but it is declared at {md.dataWidth} (W1.1)."
  | none => s!"Design.emit: design '{d.name}' reads memory '{m}', which is not declared (W1.1)."

/-- The refusal of the first bad read. -/
def readsError (d : Design) : String :=
  match d.badRegReads, d.badMemReads with
  | (n, w) :: _, _ => d.badRegReadError n w
  | [], (m, dw) :: _ => d.badMemReadError m dw
  | [], [] => s!"Design.emit: design '{d.name}' failed its read-declaration check"

def outputsUndeclared (d : Design) : List String := d.outputs.filter fun n => !(d.regs.map RegDecl.name).contains n

def outputsError (d : Design) (n : String) : String :=
  s!"Design.emit: design '{d.name}' selects output '{n}' (D39 `Design.outputs`), which is not a declared register. A selection names REGISTERS, and each becomes the port `o_{n}`; an unrecognized name would silently export nothing. Fix: correct the name, or drop it from the selection (`Loom/Hw/OUTPUTS_SPEC.md` §2)."

/-- Every check before emission, but the one on reads where that has been made on the source. -/
def emitCheckCore (d : Design) (readsAlreadyValidated : Bool) : Except String Unit := do
  let taken := d.regs.map RegDecl.name ++ d.mems.map MemDecl.name
  match d.inputs.find? fun i => taken.contains i.name with
  | some i => throw s!"Design.emit: input '{i.name}' collides with a register/memory name"
  | none => pure ()
  let inNames := d.inputs.map InputDecl.name
  require (Inventory.uniqueB inNames) "Design.emit: duplicate input names"
  let outNames := d.exportedRegs.map (fun r => "o_" ++ r.name) ++ d.combOutputs.map CombOutput.name
  require (Inventory.uniqueB outNames) "Design.emit: duplicate register/combinational output port names"
  require (!outNames.any inNames.contains) "Design.emit: an output port collides with an input port"
  match d.outputsUndeclared with
  | n :: _ => throw (d.outputsError n)
  | [] => pure ()
  require (Inventory.uniqueB (d.regs.map RegDecl.name))
    s!"Design.emit: duplicate register names in '{d.name}' — if this design came from `par`/`prefixed`, the instance prefixes are not disjoint (D16)"
  require (Inventory.uniqueB (d.mems.map MemDecl.name))
    s!"Design.emit: duplicate memory names in '{d.name}' — if this design came from `par`/`prefixed`, the instance prefixes are not disjoint (D16)"
  require (readsAlreadyValidated || d.readsOkB) d.readsError
  require d.designWFCheck
    s!"Design.emit: design '{d.name}' fails `Compile.designWFCheck` — a rule writes a signal the design does not declare, two register or memory names collide, or a memory's write-port indices do not strictly increase along the design's write order."

def emitCheck (d : Design) : Except String Unit := d.emitCheckCore false

/-- The gate of an imported design, whose reads have been checked on the source. -/
def emitCheckAfterImportReads (d : Design) : Except String Unit := d.emitCheckCore true

/-- No input of a design that passes the gate has the name of a register or a memory. -/
theorem input_apart {d : Design} {readsAlreadyValidated : Bool} (h : d.emitCheckCore readsAlreadyValidated = .ok ()) :
    ∀ i ∈ d.inputs, i.name ∉ d.regs.map RegDecl.name ∧ i.name ∉ d.mems.map MemDecl.name := by
  unfold emitCheckCore at h
  simp only at h
  split at h
  · cases h
  · rename_i hnone
    intro i hi
    have hapart := List.find?_eq_none.1 hnone i hi
    simpa [List.contains_iff_mem, not_or] using hapart

/-- No state, no rules and no exported registers. -/
def statelessB (d : Design) : Bool := d.regs.isEmpty && d.mems.isEmpty && d.rules.isEmpty && d.outputs.isEmpty

end Design

/-- A design whose behaviour is that of its outputs. -/
structure StatelessDesign where
  design : Design
  stateless : design.statelessB = true
  readsOk : design.readsOkB = true

/-- A design accepted as a stateless one. -/
def StatelessDesign.check? (design : Design) : Except String StatelessDesign := do
  design.emitCheck
  if hStateless : design.statelessB = true then
    if hReads : design.readsOkB = true then return ⟨design, hStateless, hReads⟩
    else throw s!"stateless design '{design.name}' contains an undeclared or wrong-width read"
  else throw s!"design '{design.name}' contains state, rules, or sequential-memory policy"

end Hw

end LoomImport
