import LoomImport.ModuleRefinement

/-!
# Modules without state

A module without clock domains is lowered to a design without state. Its outputs are those of the netlist on the same inputs, whatever
the design and the netlist are said to hold.
-/

namespace LoomImport

open ImportIR StateOption SoundnessAux TranslationAux ModuleLoweringAux PartsAux

/-- A translated module that passes at the boundary of modules without state, with its lowered outputs. -/
structure ImportedStateless (Γ : Setting) (m : Module) (outputs : List Hw.CombOutput) : Prop where
  translates : Γ.Translates m
  supported : m.unsupported = []
  instances : m.instances = []
  registers : m.registers = []
  memories : m.memories = []
  ports : (m.ports.map Port.name).Nodup
  lowered : m.outputs.mapM lowerOutput? = .ok outputs

namespace StatelessAux

/-- What is lowered without state, and the design it is lowered to. -/
theorem imported_of_lowered {Γ : Setting} {m : Module} (ht : Γ.Translates m) {lowered : LoweredStatelessModule}
    (hl : m.lowerStatelessDesign? = .ok lowered) :
    ∃ outputs, ImportedStateless Γ m outputs ∧ lowered.implementation.design = m.statelessDesignOf outputs := by
  obtain ⟨_, hinstances, h⟩ := DenotesAux.bind_eq_ok hl
  obtain ⟨_, hboundary, h⟩ := DenotesAux.bind_eq_ok h
  obtain ⟨outputs, houtputs, h⟩ := DenotesAux.bind_eq_ok h
  obtain ⟨implementation, himplementation, h⟩ := DenotesAux.bind_eq_ok h
  cases h
  rw [requireAt_eq_ok, List.isEmpty_iff] at hinstances
  obtain ⟨_, -, hboundary⟩ := DenotesAux.bind_eq_ok hboundary
  obtain ⟨_, -, hboundary⟩ := DenotesAux.bind_eq_ok hboundary
  obtain ⟨_, hsupported, hboundary⟩ := DenotesAux.bind_eq_ok hboundary
  obtain ⟨_, -, hboundary⟩ := DenotesAux.bind_eq_ok hboundary
  obtain ⟨_, hstate, hboundary⟩ := DenotesAux.bind_eq_ok hboundary
  obtain ⟨_, -, hboundary⟩ := DenotesAux.bind_eq_ok hboundary
  obtain ⟨_, -, hboundary⟩ := DenotesAux.bind_eq_ok hboundary
  obtain ⟨_, hports, hboundary⟩ := DenotesAux.bind_eq_ok hboundary
  simp only [requireAt_eq_ok, Bool.and_eq_true, List.isEmpty_iff, Hw.Inventory.uniqueB_iff] at hstate hports
  refine ⟨outputs, ⟨ht, unsupported_of_check hsupported, hinstances, hstate.1, hstate.2, hports, houtputs⟩, ?_⟩
  unfold Hw.StatelessDesign.check? at himplementation
  obtain ⟨_, -, himplementation⟩ := DenotesAux.bind_eq_ok himplementation
  split at himplementation
  · split at himplementation
    · cases himplementation
      rfl
    · cases himplementation
  · cases himplementation

variable {Γ : Setting} {m : Module} {outputs : List Hw.CombOutput} {σ : Hw.St} {val : Nat → Bool}

/-- The netlist has no state and no children. -/
theorem cells_nil (h : ImportedStateless Γ m outputs) :
    Γ.ctx.sequentialCells = [] ∧ Γ.ctx.writableMemories = [] ∧ Γ.ctx.childCells = [] := by
  have hparts := (Setting.parts_of_translates h.translates).1
  refine ⟨?_, ?_, ?_⟩
  · have hregisters := hparts.registers
    rw [h.registers] at hregisters
    exact List.forall₂_nil_right_iff.1 hregisters
  · have hmemories := hparts.memories
    rw [h.memories] at hmemories
    exact List.forall₂_nil_right_iff.1 hmemories
  · have hinstances := hparts.instances
    rw [h.instances] at hinstances
    exact List.forall₂_nil_right_iff.1 hinstances

/-- The netlist on some inputs and the design driven with them see the same. -/
theorem agree (h : ImportedStateless Γ m outputs) (n : NetState) (ι : Hw.InEnv) (σ : Hw.St) :
    Γ.ctx.Agree (Γ.ctx.view n ι) (σ.setInputs (m.statelessDesignOf outputs).inputs ι) := by
  obtain ⟨hsequential, hwritable, -⟩ := cells_nil h
  have hnames : ((m.statelessDesignOf outputs).inputs.map Hw.InputDecl.name).Nodup := by
    simp only [Module.statelessDesignOf, List.map_map]
    exact h.ports.sublist (List.filter_sublist.map Port.name)
  obtain ⟨hset, -⟩ := Hw.RegEnv.foldl_set Hw.InputDecl.name Hw.InputDecl.width (fun i => ι i.name i.width) hnames σ.regs
  refine ⟨?_, fun entry hentry => absurd hentry (hsequential ▸ List.not_mem_nil),
    fun info hinfo => absurd hinfo (hwritable ▸ List.not_mem_nil)⟩
  rintro ⟨name, port⟩ hentry hdirection
  obtain ⟨p, hp, himport⟩ := exists_of_forall₂ (Setting.parts_of_translates h.translates).1.ports hentry
  obtain ⟨direction, hd, rfl⟩ := Option.map_eq_some_iff.1 himport
  rw [hdirection] at hd
  cases hd
  have hview : (Γ.ctx.view n ι).regs name port.bits.length = ι name port.bits.length := by
    unfold Ctx.view
    simp only [hsequential, List.find?_nil]
  rw [hview]
  exact (hset ⟨name, port.bits.length⟩ (List.mem_map.2 ⟨_, List.mem_filter.2 ⟨hp, by simp⟩, rfl⟩)).symm

theorem outputs_value (h : ImportedStateless Γ m outputs) (hΓ : Γ.ctx.Regular) (hval : Γ.ctx.Consistent σ val) :
    (outputs.map fun output => (output.name, (⟨output.width, output.value.eval σ⟩ : (w : Nat) × BitVec w))) = Γ.ctx.observed val := by
  have hvaluated : Valuated Γ.ctx Γ.start σ val := ⟨prepared_ctx Γ, hΓ.plain, hval⟩
  have hboth := forall₂_comp (translated_known hvaluated h.translates h.supported).outputs (forall₂_of_mapM h.lowered)
  refine (map_eq_of_forall₂ (hboth.imp ?_)).symm
  rintro entry lowered ⟨output, houtput, hlow⟩
  exact (output_value houtput hlow).symm

end StatelessAux

open StatelessAux

/-- The outputs of a module that is lowered without state are those of its netlist on the same inputs: the nets have values, and whatever
consistent values they have and whatever the design holds, the design shows what the netlist shows. -/
theorem stateless_observed {Γ : Setting} (hΓ : Γ.ctx.Regular) {m : Module} (ht : Γ.Translates m) {lowered : LoweredStatelessModule}
    (hl : m.lowerStatelessDesign? = .ok lowered) (ι : Hw.InEnv) (n : NetState) :
    (∃ val, Γ.ctx.Consistent (Γ.ctx.view n ι) val) ∧ ∀ val, Γ.ctx.Consistent (Γ.ctx.view n ι) val →
      ∀ σ, lowered.implementation.design.observe ι σ = Γ.ctx.observed val := by
  obtain ⟨outputs, himported, hdesign⟩ := imported_of_lowered ht hl
  refine ⟨Ctx.exists_consistent hΓ.acyclic hΓ.single _, fun val hval σ => ?_⟩
  rw [hdesign]
  have hconsistent := NetlistAux.consistent_congr hΓ.plain (cells_nil himported).2.2 (agree himported n ι σ) hval
  exact outputs_value himported hΓ hconsistent

/-- Whether a module is translated and lowered without state. -/
def lowersStateless (Γ : Setting) (fuel : Nat) : Bool :=
  match Γ.ctx.translate fuel Γ.start with
  | some (some m, _) => m.lowerStatelessDesign?.toBool
  | _ => false

/-- A half adder. -/
def halfAdder : Setting where
  name := "half"
  module := {
    src := "half.v:1.1-6.10"
    ports := ⟨[("a", ⟨"input", [.net 2]⟩), ("b", ⟨"input", [.net 3]⟩), ("s", ⟨"output", [.net 4]⟩), ("c", ⟨"output", [.net 5]⟩)],
      by decide⟩
    netnames := Dict.empty
    cells := ⟨[("sum", {
        type := "$xor"
        src := "half.v:3.14-3.19"
        parameters := Dict.empty
        portDirections := ⟨[("B", "input"), ("A", "input"), ("Y", "output")], by decide⟩
        connections := ⟨[("B", [.net 3]), ("A", [.net 2]), ("Y", [.net 4])], by decide⟩ }),
      ("carry", {
        type := "$and"
        src := "half.v:4.14-4.19"
        parameters := Dict.empty
        portDirections := ⟨[("Y", "output"), ("B", "input"), ("A", "input")], by decide⟩
        connections := ⟨[("Y", [.net 5]), ("B", [.net 3]), ("A", [.net 2])], by decide⟩ })], by decide⟩ }
  modules := ["half"]
  policy := none
  sha256 := fun text => text

theorem stateless_observed_halfAdder : ∃ m lowered, halfAdder.Translates m ∧ m.lowerStatelessDesign? = .ok lowered ∧ ∀ ι n,
    (∃ val, halfAdder.ctx.Consistent (halfAdder.ctx.view n ι) val) ∧ ∀ val, halfAdder.ctx.Consistent (halfAdder.ctx.view n ι) val →
      ∀ σ, lowered.implementation.design.observe ι σ = halfAdder.ctx.observed val := by
  have hlow : lowersStateless halfAdder 4 = true := by decide +kernel
  unfold lowersStateless at hlow
  split at hlow
  · rename_i m s' hrun
    cases hlowered : m.lowerStatelessDesign? with
    | error message =>
      rw [hlowered] at hlow
      cases hlow
    | ok lowered =>
      have hacyclic : halfAdder.ctx.Acyclic := Ctx.acyclic_of_feedPairs (by decide +kernel)
      have hregular : halfAdder.ctx.Regular := regular (by decide) (by decide) (by decide) hacyclic
      exact ⟨m, lowered, ⟨4, s', hrun⟩, hlowered, fun ι n => stateless_observed hregular ⟨4, s', hrun⟩ hlowered ι n⟩
  · cases hlow

end LoomImport
