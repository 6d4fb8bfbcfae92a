import LoomImport.ModuleExactness

/-!
# Lowered modules refine their netlists

A module that is translated and lowered is a design whose runs are runs of its netlist: what the design holds, read under the names of
the cells, moves as the netlist moves, and the outputs of every cycle are those of the netlist. The clock is an input of the netlist
and none of the design; it is held at zero.
-/

namespace LoomImport

open ImportIR WritesAux StateOption SoundnessAux TranslationAux MemoriesAux MaskedWrites Machines ModuleLoweringAux PartsAux

namespace Setting

/-- The modules whose cycles are compared: regular ones, with polarities that are numbers or constants, in which no `init` attribute
gives a register a one. -/
structure Clocked (Γ : Setting) : Prop where
  regular : Γ.ctx.Regular
  polarities : ∀ entry ∈ Γ.sequentialCells, entry.2.1.PolaritiesFormed
  powersUp : ∀ bit ∈ Γ.initBits, bit.2 = true → ∀ entry ∈ Γ.sequentialCells, .net bit.1 ∉ entry.2.1.connection "Q"

end Setting

namespace Hw

/-- An environment that holds one input at zero. -/
def InEnv.hold (name : String) (ι : InEnv) : InEnv := fun n w => if n = name then 0 else ι n w

/-- What a design holds, by the cells it is translated from. -/
def St.contents (σ : St) : NetState where
  registers := fun cellName w => σ.regs (Setting.registerName cellName) w
  memories := fun cellName a w => σ.mems ("__loom_mem_" ++ legalIdentifier cellName) a w

end Hw

/-- A translated module that passes at its boundary, with its lowered parts and the gate its design passes. -/
structure Imported (Γ : Setting) (m : Module) (domain : ClockDomain) (parts : LoweredParts) : Prop where
  translates : Γ.Translates m
  instances : m.instances = []
  boundary : Boundary m domain
  lowered : lowerParts? m = .ok parts
  gate : (m.designOf domain parts).emitCheckAfterImportReads = .ok ()

namespace Imported

variable {Γ : Setting} {m : Module} {domain : ClockDomain} {parts : LoweredParts} {σ : Hw.St} {val : Nat → Bool}

/-! ## Parts by cell -/

/-- The parts of a module, whatever is known of its expressions. Nothing is blocked before the first of them. -/
theorem translated (h : Imported Γ m domain parts) :
    Translated Γ.ctx (fun bits _ e => bits ≠ [] → e.width = bits.length) m ∧ Γ.start.unsupported = [] := by
  obtain ⟨htranslated, hblocked⟩ := Setting.parts_of_translates h.translates
  exact ⟨htranslated, hblocked h.boundary.supported⟩

theorem valuated (hΓ : Γ.Clocked) (hval : Γ.ctx.Consistent σ val) : Valuated Γ.ctx Γ.start σ val :=
  ⟨prepared_ctx Γ, hΓ.regular.plain, hval⟩

/-- What a sequential cell is lowered to: a declaration that powers up at zero, and a write of the next value. -/
structure RegisterEffect (Γ : Ctx) (σ : Hw.St) (val : Nat → Bool) (entry : String × Cell × SequentialKind)
    (part : Hw.RegDecl × Hw.Act) : Prop where
  decl_eq : part.1 = ⟨Setting.registerName entry.1, entry.2.1.registerWidth, 0⟩
  run : ∃ v, Γ.MovesTo val σ.contents entry v ∧
    ∀ acc : Hw.St, part.2.run σ acc = { acc with regs := acc.regs.set (Setting.registerName entry.1) v }

theorem registers_effect (h : Imported Γ m domain parts) (hΓ : Γ.Clocked) (hval : Γ.ctx.Consistent σ val) :
    List.Forall₂ (RegisterEffect Γ.ctx σ val) Γ.ctx.sequentialCells parts.registers := by
  have htranslated := translated_known (valuated hΓ hval) h.translates h.boundary.supported
  obtain ⟨registers, hregisters, hparts⟩ := DenotesAux.bind_eq_ok h.lowered
  obtain ⟨memories, -, hparts⟩ := DenotesAux.bind_eq_ok hparts
  obtain ⟨outputs, -, hparts⟩ := DenotesAux.bind_eq_ok hparts
  cases hparts
  have hboth := forall₂_comp htranslated.registers (forall₂_of_mapM hregisters)
  refine ((List.forall₂_and_left _ _).2 ⟨fun entry hentry => hentry, hboth⟩).imp ?_
  rintro entry part ⟨hentry, register, ⟨operands, hoperands, hover⟩, hlow⟩
  have hpolarities : entry.2.1.PolaritiesFormed := hΓ.polarities entry (ctx_toSetting Γ ▸ hentry)
  obtain ⟨next, rfl, resetValue, hreset, hnext⟩ :=
    register_next (valuated hΓ hval) hΓ.regular.single hentry hpolarities hoperands hover hlow
  exact ⟨rfl, next.eval σ, ⟨resetValue, hreset, hnext⟩, fun acc => rfl⟩

/-- What a memory with write ports is lowered to. -/
structure WritableEffect (Γ : Ctx) (σ : Hw.St) (val : Nat → Bool) (info : MemoryInfo) (part : Hw.MemDecl × List Hw.Act) : Prop where
  decl_eq : part.1 = (info.memory []).decl
  effect : MemoryEffect Γ σ val info part.2

theorem memories_effect (h : Imported Γ m domain parts) (hΓ : Γ.Clocked) (hval : Γ.ctx.Consistent σ val) :
    List.Forall₂ (WritableEffect Γ.ctx σ val) Γ.ctx.writableMemories parts.memories := by
  have htranslated := translated_known (valuated hΓ hval) h.translates h.boundary.supported
  obtain ⟨registers, -, hparts⟩ := DenotesAux.bind_eq_ok h.lowered
  obtain ⟨memories, hmemories, hparts⟩ := DenotesAux.bind_eq_ok hparts
  obtain ⟨outputs, -, hparts⟩ := DenotesAux.bind_eq_ok hparts
  cases hparts
  have hboth := forall₂_comp htranslated.memories (forall₂_of_mapM hmemories)
  refine ((List.forall₂_and_left _ _).2 ⟨fun info hinfo => hinfo, hboth⟩).imp ?_
  rintro info part ⟨hinfo, memory, ⟨operands, hoperands, rfl⟩, hlow⟩
  obtain ⟨acts, hacts, rfl⟩ := map_eq_ok hlow
  exact ⟨rfl, memory_effect (of_decide_eq_true (List.mem_filter.1 hinfo).2) hoperands hacts⟩

/-- The outputs of a cycle are those of the netlist. -/
theorem outputs_value (h : Imported Γ m domain parts) (hΓ : Γ.Clocked) (hval : Γ.ctx.Consistent σ val) :
    (parts.outputs.map fun output => (output.name, (⟨output.width, output.value.eval σ⟩ : (w : Nat) × BitVec w))) = Γ.ctx.observed val := by
  have htranslated := translated_known (valuated hΓ hval) h.translates h.boundary.supported
  obtain ⟨registers, -, hparts⟩ := DenotesAux.bind_eq_ok h.lowered
  obtain ⟨memories, -, hparts⟩ := DenotesAux.bind_eq_ok hparts
  obtain ⟨outputs, houtputs, hparts⟩ := DenotesAux.bind_eq_ok hparts
  cases hparts
  have hboth := forall₂_comp htranslated.outputs (forall₂_of_mapM houtputs)
  refine (map_eq_of_forall₂ (hboth.imp ?_)).symm
  rintro entry lowered ⟨output, houtput, hlow⟩
  exact (output_value houtput hlow).symm

/-! ## Names -/

/-- The declarations of a module without children, in an arbitrary state. -/
theorem decls (h : Imported Γ m domain parts) (hΓ : Γ.Clocked) :
    (parts.registers.map fun part => part.1.name) = (Γ.ctx.sequentialCells.map fun entry => Setting.registerName entry.1) ∧
      (parts.memories.map fun part => part.1.name) = Γ.ctx.writableMemories.map MemoryInfo.loomName := by
  obtain ⟨val, hval⟩ := Ctx.exists_consistent hΓ.regular.acyclic hΓ.regular.single ⟨fun _ _ => 0, fun _ _ _ => 0⟩
  exact ⟨(map_eq_of_forall₂ ((h.registers_effect hΓ hval).imp fun _ _ hr => by rw [hr.decl_eq])).symm,
    (map_eq_of_forall₂ ((h.memories_effect hΓ hval).imp fun _ _ hm => by rw [hm.decl_eq]; rfl)).symm⟩

theorem regs_names (h : Imported Γ m domain parts) (hΓ : Γ.Clocked) :
    (m.designOf domain parts).regs.map Hw.RegDecl.name = Γ.ctx.sequentialCells.map fun entry => Setting.registerName entry.1 :=
  (List.map_map ..).trans (h.decls hΓ).1

theorem mems_names (h : Imported Γ m domain parts) (hΓ : Γ.Clocked) :
    (m.designOf domain parts).mems.map Hw.MemDecl.name = Γ.ctx.writableMemories.map MemoryInfo.loomName :=
  (List.map_map ..).trans (h.decls hΓ).2

/-- The names of the registers, of the memories and of the inputs are distinct. -/
theorem names_nodup (h : Imported Γ m domain parts) :
    ((m.designOf domain parts).regs.map Hw.RegDecl.name).Nodup ∧ ((m.designOf domain parts).mems.map Hw.MemDecl.name).Nodup ∧
      ((m.designOf domain parts).inputs.map Hw.InputDecl.name).Nodup := by
  obtain ⟨registers, hregisters, hparts⟩ := DenotesAux.bind_eq_ok h.lowered
  obtain ⟨memories, hmemories, hparts⟩ := DenotesAux.bind_eq_ok hparts
  obtain ⟨outputs, -, hparts⟩ := DenotesAux.bind_eq_ok hparts
  cases hparts
  refine ⟨?_, ?_, ?_⟩
  · have hnames := map_eq_of_forall₂ (f := Register.name) (g := fun part => part.1.name)
      ((forall₂_of_mapM hregisters).imp fun register part hpart => by
        obtain ⟨next, -, rfl⟩ := lowerRegister?_ok hpart
        rfl)
    simpa only [Module.designOf, List.map_map, Function.comp_def, ← hnames] using h.boundary.registers
  · have hnames := map_eq_of_forall₂ (f := Memory.name) (g := fun part => part.1.name)
      ((forall₂_of_mapM hmemories).imp fun memory part hpart => by
        obtain ⟨acts, -, rfl⟩ := map_eq_ok hpart
        rfl)
    simpa only [Module.designOf, List.map_map, Function.comp_def, ← hnames] using h.boundary.memories
  · simp only [Module.designOf, List.map_map]
    exact (h.boundary.ports.sublist (List.filter_sublist.map Port.name))

/-! ## Inputs -/

/-- The clock domain of the module: its clock is a one-bit input, and it has no reset. -/
theorem domain_eq (h : Imported Γ m domain parts) :
    ∃ clock, Γ.ctx.orderedDomains = [clock] ∧ domain = Γ.ctx.importDomain clock := by
  have hdomains := h.translated.1.domains_eq
  rw [h.boundary.domains] at hdomains
  obtain ⟨clock, hclock, hdomain⟩ := List.map_eq_singleton_iff.1 hdomains.symm
  exact ⟨clock, hclock, hdomain.symm⟩

/-- A port of the module, from that of the netlist. -/
theorem port_of_input (h : Imported Γ m domain parts) {name : String} {port : ModulePort}
    (hentry : (name, port) ∈ Γ.ctx.module.ports.entries) (hdirection : port.direction = "input") :
    ∃ p ∈ m.ports, p.name = name ∧ p.direction = .input ∧ p.width = port.bits.length := by
  obtain ⟨p, hp, himport⟩ := exists_of_forall₂ h.translated.1.ports hentry
  obtain ⟨direction, hd, rfl⟩ := Option.map_eq_some_iff.1 himport
  rw [hdirection] at hd
  cases hd
  exact ⟨_, hp, rfl, rfl, rfl⟩

/-- The inputs of the design are the input ports but the clock. -/
theorem mem_inputs (h : Imported Γ m domain parts) {name : String} {port : ModulePort}
    (hentry : (name, port) ∈ Γ.ctx.module.ports.entries) (hdirection : port.direction = "input") (hne : name ≠ domain.clockPort) :
    (⟨name, port.bits.length⟩ : Hw.InputDecl) ∈ (m.designOf domain parts).inputs := by
  obtain ⟨p, hp, rfl, hinput, hwidth⟩ := h.port_of_input hentry hdirection
  have hreset : domain.reset.port = none := by
    obtain ⟨clock, -, rfl⟩ := h.domain_eq
    rfl
  refine List.mem_map.2 ⟨p, List.mem_filter.2 ⟨hp, ?_⟩, by rw [hwidth]⟩
  simp [inputPort, hinput, hne, hreset]

/-- The clock is not an input of the design. -/
theorem clock_not_mem (m : Module) (domain : ClockDomain) (parts : LoweredParts) :
    domain.clockPort ∉ (m.designOf domain parts).inputs.map Hw.InputDecl.name := by
  intro hmem
  simp only [Module.designOf, List.map_map, List.mem_map, List.mem_filter, inputPort, Function.comp_def] at hmem
  obtain ⟨p, ⟨-, hp⟩, hname⟩ := hmem
  simp [hname] at hp

/-- The clock of the netlist is one bit. -/
theorem clock_width (h : Imported Γ m domain parts) {port : ModulePort} (hentry : (domain.clockPort, port) ∈ Γ.ctx.module.ports.entries)
    (hdirection : port.direction = "input") : port.bits.length = 1 := by
  obtain ⟨p, hp, hname, -, hwidth⟩ := h.port_of_input hentry hdirection
  obtain ⟨q, hq, hbit⟩ := List.any_eq_true.1 h.boundary.clock
  simp only [Bool.and_eq_true, decide_eq_true_eq] at hbit
  have hsame : p = q := List.inj_on_of_nodup_map h.boundary.ports hp hq (hname.trans hbit.1.1.symm)
  rw [← hwidth, hsame, hbit.2]

/-- Driving the inputs leaves everything else. -/
theorem setInputs_regs (h : Imported Γ m domain parts) (σ : Hw.St) (ι : Hw.InEnv) :
    (∀ i ∈ (m.designOf domain parts).inputs, (σ.setInputs (m.designOf domain parts).inputs ι).regs i.name i.width = ι i.name i.width) ∧
      ∀ n w, n ∉ (m.designOf domain parts).inputs.map Hw.InputDecl.name →
        (σ.setInputs (m.designOf domain parts).inputs ι).regs n w = σ.regs n w :=
  Hw.RegEnv.foldl_set Hw.InputDecl.name Hw.InputDecl.width (fun i => ι i.name i.width) h.names_nodup.2.2 σ.regs

theorem setInputs_register (h : Imported Γ m domain parts) (hΓ : Γ.Clocked) {entry : String × Cell × SequentialKind}
    (hentry : entry ∈ Γ.ctx.sequentialCells) (σ : Hw.St) (ι : Hw.InEnv) (w : Nat) :
    (σ.setInputs (m.designOf domain parts).inputs ι).regs (Setting.registerName entry.1) w = σ.regs (Setting.registerName entry.1) w := by
  refine (h.setInputs_regs σ ι).2 _ _ fun hinput => ?_
  obtain ⟨i, hi, heq⟩ := List.mem_map.1 hinput
  refine (Hw.Design.input_apart h.gate i hi).1 ?_
  rw [heq, h.regs_names hΓ]
  exact List.mem_map.2 ⟨entry, hentry, rfl⟩

/-! ## Agreement -/

/-- What a design holds and its inputs give a state the netlist sees in the contents, with the clock at zero. -/
theorem agree (h : Imported Γ m domain parts) (hΓ : Γ.Clocked)
    (hclock : domain.clockPort ∉ (m.designOf domain parts).regs.map Hw.RegDecl.name) {σ : Hw.St} (hσ : σ.regs domain.clockPort 1 = 0)
    (ι : Hw.InEnv) :
    Γ.ctx.Agree (σ.setInputs (m.designOf domain parts).inputs ι) (Γ.ctx.view σ.contents (ι.hold domain.clockPort)) := by
  obtain ⟨hset, hother⟩ := h.setInputs_regs σ ι
  have hname : ∀ {name}, name ∉ (m.designOf domain parts).regs.map Hw.RegDecl.name →
      (Γ.ctx.sequentialCells.find? fun entry => Setting.registerName entry.1 = name) = none := by
    intro name hn
    rw [h.regs_names hΓ] at hn
    refine List.find?_eq_none.2 fun entry hentry heq => hn (List.mem_map.2 ⟨entry, hentry, of_decide_eq_true heq⟩)
  refine ⟨?_, ?_, ?_⟩
  · rintro ⟨name, port⟩ hentry hdirection
    by_cases hclk : name = domain.clockPort
    · subst hclk
      simp only [Ctx.view, hname hclock, Hw.InEnv.hold, if_pos]
      rw [h.clock_width hentry hdirection]
      exact (hother _ _ (clock_not_mem m domain parts)).trans hσ
    · have hinput := h.mem_inputs hentry hdirection hclk
      simp only [Ctx.view, hname (Hw.Design.input_apart h.gate _ hinput).1, Hw.InEnv.hold, if_neg hclk]
      exact hset _ hinput
  · intro entry hentry
    refine (h.setInputs_register hΓ hentry σ ι _).trans ?_
    unfold Ctx.view
    simp only
    cases hfind : Γ.ctx.sequentialCells.find? fun entry' => Setting.registerName entry'.1 = Setting.registerName entry.1 with
    | none => exact absurd (List.find?_eq_none.1 hfind entry hentry) (by simp)
    | some entry' =>
      have heq : Setting.registerName entry'.1 = Setting.registerName entry.1 := by simpa using List.find?_some hfind
      simp only [Hw.St.contents, heq]
  · intro info hinfo a _
    unfold Ctx.view
    simp only
    cases hfind : Γ.ctx.writableMemories.find? fun info' => info'.loomName = info.loomName with
    | none => exact absurd (List.find?_eq_none.1 hfind info hinfo) (by simp)
    | some info' =>
      have heq : info'.loomName = info.loomName := by simpa using List.find?_some hfind
      show σ.mems info.loomName a info.width = σ.mems info'.loomName a info.width
      rw [heq]

/-! ## Cycles -/

/-- The rule of the design writes the registers, then the memories. -/
theorem cycle_eq (m : Module) (domain : ClockDomain) (parts : LoweredParts) (τ : Hw.St) :
    (m.designOf domain parts).cycle τ = (parts.memories.map Prod.snd).flatten.foldl (fun s act => act.run τ s)
      ((parts.registers.map Prod.snd).foldl (fun s act => act.run τ s) τ) := by
  show (Hw.sequence _).run τ τ = _
  rw [Hw.run_sequence, List.foldl_append, List.flatMap_def]

/-- A cycle of the design moves its contents as the netlist moves, and leaves what is not a register. -/
theorem moves (h : Imported Γ m domain parts) (hΓ : Γ.Clocked) {τ : Hw.St} (hval : Γ.ctx.Consistent τ val) :
    Γ.ctx.Moves val τ.contents ((m.designOf domain parts).cycle τ).contents ∧
      ∀ n w, n ∉ (m.designOf domain parts).regs.map Hw.RegDecl.name → ((m.designOf domain parts).cycle τ).regs n w = τ.regs n w := by
  have hnames := h.names_nodup
  rw [h.regs_names hΓ, h.mems_names hΓ] at hnames
  obtain ⟨hmems, hset, hother⟩ := Hw.run_writes (P := Γ.ctx.MovesTo val τ.contents)
    (List.forall₂_map_right_iff.2 ((h.registers_effect hΓ hval).imp fun _ _ hr => hr.run)) hnames.1 τ
  have hmemories := List.forall₂_map_right_iff.2 ((h.memories_effect hΓ hval).imp fun _ _ hm => hm.effect)
  generalize hmid : (parts.registers.map Prod.snd).foldl (fun s act => act.run τ s) τ = mid at hmems hset hother
  have hsame : ∀ info ∈ Γ.ctx.writableMemories, view info mid = view info τ :=
    fun info _ => funext fun a => congrFun (congrFun (congrFun hmems info.loomName) a) info.width
  obtain ⟨hviews, -, hregs⟩ := run_memories hmemories hnames.2.1 hsame
  rw [cycle_eq, hmid]
  refine ⟨⟨fun entry hentry _ => ?_, fun info hinfo a _ => ?_⟩, fun n w hn => ?_⟩
  · have hmoved := hset entry hentry
    rw [← hregs] at hmoved
    exact hmoved
  · exact congrFun (hviews info hinfo) a
  · rw [h.regs_names hΓ] at hn
    rw [hregs, hother n w hn]

/-- The design powers up as the netlist may. -/
theorem powersUp (h : Imported Γ m domain parts) (hΓ : Γ.Clocked) : Γ.ctx.PowersUp (m.designOf domain parts).reset.contents := by
  obtain ⟨val, hval⟩ := Ctx.exists_consistent hΓ.regular.acyclic hΓ.regular.single ⟨fun _ _ => 0, fun _ _ _ => 0⟩
  refine ⟨fun entry hentry i id b hnet hbit => ?_, fun info hinfo a ha i hi bit hbit hknown => ?_⟩
  · obtain ⟨part, hpart, heffect⟩ := exists_of_forall₂ (h.registers_effect hΓ hval) hentry
    have hreset := (Hw.Design.reset_regs h.names_nodup.1).1 part.1 (List.mem_map.2 ⟨part, hpart, rfl⟩)
    rw [heffect.decl_eq] at hreset
    have hb : b = false := by
      rw [← Bool.not_eq_true]
      intro hb
      rw [ctx_toSetting] at hentry hbit
      exact hΓ.powersUp (id, b) hbit hb entry hentry (List.mem_of_getElem? hnet)
    rw [hb]
    exact (congrArg (BitVec.getLsbD · i) hreset).trans (by simp)
  · obtain ⟨part, hpart, heffect⟩ := exists_of_forall₂ (h.memories_effect hΓ hval) hinfo
    have hlt : a < 2 ^ part.1.addrWidth := by
      rw [heffect.decl_eq]
      exact size_eq info ▸ ha
    have hreset := Hw.Design.reset_mems h.names_nodup.2.1 (List.mem_map.2 ⟨part, hpart, rfl⟩) hlt
    rw [heffect.decl_eq] at hreset
    obtain ⟨hvalues, -⟩ := List.mem_filter.1 hinfo
    obtain ⟨entry, hentry, rfl⟩ := List.mem_map.1 hvalues
    have hread := readable (valuated hΓ hval) h.translated.2 ((Dict.get?_eq_some_iff _ _ _).2 hentry)
    rw [← image_bit hread ha hi hbit hknown]
    exact congrArg (BitVec.getLsbD · i) hreset

/-- The netlist does what the design does, on the inputs with the clock at zero. -/
theorem simulates (h : Imported Γ m domain parts) (hΓ : Γ.Clocked)
    (hclock : domain.clockPort ∉ (m.designOf domain parts).regs.map Hw.RegDecl.name) :
    Machine.Simulates (m.designOf domain parts).machine Γ.ctx.netlist (Hw.InEnv.hold domain.clockPort)
      (fun σ n => n = σ.contents ∧ σ.regs domain.clockPort 1 = 0) := by
  refine ⟨?_, ?_⟩
  · rintro σ rfl
    exact ⟨_, h.powersUp hΓ, rfl, (Hw.Design.reset_regs h.names_nodup.1).2 _ _ hclock⟩
  · rintro σ n ι outputs σ' ⟨rfl, hσ⟩ ⟨rfl, rfl⟩
    have hagree := h.agree hΓ hclock hσ ι
    obtain ⟨val, hval⟩ := Ctx.exists_consistent hΓ.regular.acyclic hΓ.regular.single
      (σ.setInputs (m.designOf domain parts).inputs ι)
    obtain ⟨hmoves, hother⟩ := h.moves hΓ hval
    have hchild : Γ.ctx.childCells = [] := by
      have hinstances := h.translated.1.instances
      rw [h.instances] at hinstances
      exact List.forall₂_nil_right_iff.1 hinstances
    refine ⟨_, ⟨val, NetlistAux.consistent_congr hΓ.regular.plain hchild hagree hval, hmoves.congr ?_ rfl, ?_⟩, rfl, ?_⟩
    · exact fun entry hentry => h.setInputs_register hΓ hentry σ ι _
    · exact h.outputs_value hΓ hval
    · exact (hother _ _ hclock).trans (((h.setInputs_regs σ ι).2 _ _ (clock_not_mem m domain parts)).trans hσ)

end Imported

/-- Every run of a lowered module from reset is a run of its netlist: the netlist powers up, moves with the same inputs and the clock
held at zero, and gives the same outputs in every cycle. -/
theorem netlist_trace {Γ : Setting} (hΓ : Γ.Clocked) {m : Module} (ht : Γ.Translates m) {lowered : LoweredModule}
    (hl : m.lowerLocalDesign? = .ok lowered) (hclock : lowered.clockPort ∉ lowered.design.regs.map Hw.RegDecl.name)
    (ιs : Nat → Hw.InEnv) (n : Nat) :
    Γ.ctx.netlist.Trace ((List.range n).map fun k => (ιs k).hold lowered.clockPort)
      ((List.range n).map fun k => lowered.design.observe (ιs k) (lowered.design.runOpen ιs k lowered.design.reset)) := by
  obtain ⟨domain, parts, hinstances, hdomain, -, hparts, hgate, rfl⟩ := lowerLocalDesign?_eq_ok.1 hl
  have himported : Imported Γ m domain parts := ⟨ht, hinstances, boundary_of_check hdomain, hparts, hgate⟩
  have hrun := (m.designOf domain parts).run_machine ιs n (m.designOf domain parts).reset
  have htrace := (himported.simulates hΓ hclock).trace ⟨_, _, rfl, hrun⟩
  rwa [List.map_map] at htrace

namespace Ctx

/-- The pairs of nets of which the first is read to give the second its value. -/
def feedPairs (Γ : Ctx) : List (Nat × Nat) :=
  Γ.places.flatMap fun entry =>
    match entry with
    | (.net target, .output driver) => (Γ.operands (driver.cellName, driver.port)).flatMap fun operand =>
        operand.1.filterMap fun bit =>
          match bit with
          | .net source => some (source, target)
          | .const _ => none
    | _ => []

theorem mem_feedPairs {Γ : Ctx} {source target : Nat} (h : Γ.Feeds source target) : (source, target) ∈ Γ.feedPairs := by
  obtain ⟨driver, hplace, operand, ho, hid⟩ := h
  refine List.mem_flatMap.2 ⟨_, hplace, List.mem_flatMap.2 ⟨operand, ho, ?_⟩⟩
  exact List.mem_filterMap.2 ⟨.net source, hid, rfl⟩

/-- A netlist in which every net has a larger number than those that are read to give it its value has no cycles. -/
theorem acyclic_of_feedPairs {Γ : Ctx} (h : (Γ.feedPairs.all fun pair => pair.1 < pair.2) = true) : Γ.Acyclic := by
  intro id hcycle
  have hlt : ∀ {a b}, Relation.TransGen Γ.Feeds a b → a < b := by
    intro a b hab
    induction hab with
    | single hstep => exact of_decide_eq_true (List.all_eq_true.1 h _ (mem_feedPairs hstep))
    | tail _ hstep ih => exact ih.trans (of_decide_eq_true (List.all_eq_true.1 h _ (mem_feedPairs hstep)))
  exact Nat.lt_irrefl id (hlt hcycle)

end Ctx

/-- A lowering of a module that is translated with some nested calls, with the name of its clock apart. -/
def lowersApart (Γ : Setting) (fuel : Nat) : Bool :=
  match Γ.ctx.translate fuel Γ.start with
  | some (some m, _) =>
    match m.lowerLocalDesign? with
    | .ok lowered => decide (lowered.clockPort ∉ lowered.design.regs.map Hw.RegDecl.name)
    | .error _ => false
  | _ => false

/-- A counter of two bits with an enable. -/
def counter : Setting where
  name := "counter"
  module := {
    src := "counter.v:1.1-9.10"
    ports := ⟨[("clk", ⟨"input", [.net 2]⟩), ("en", ⟨"input", [.net 3]⟩), ("q", ⟨"output", [.net 4, .net 5]⟩)], by decide⟩
    netnames := ⟨[("q", ⟨[.net 4, .net 5], "counter.v:4.5-4.6", some (.str "0x")⟩)], by decide⟩
    cells := ⟨[("add", {
      type := "$add"
      src := "counter.v:5.14-5.20"
      parameters := Dict.empty
      portDirections := ⟨[("Y", "output"), ("A", "input"), ("B", "input")], by decide⟩
      connections := ⟨[("A", [.net 4, .net 5]), ("B", [.const '1', .const '0']), ("Y", [.net 6, .net 7])], by decide⟩ }),
      ("reg", {
      type := "$dffe"
      src := "counter.v:6.14-6.20"
      parameters := ⟨[("EN_POLARITY", .str "1")], by decide⟩
      portDirections := ⟨[("CLK", "input"), ("D", "input"), ("EN", "input"), ("Q", "output")], by decide⟩
      connections := ⟨[("CLK", [.net 2]), ("D", [.net 6, .net 7]), ("EN", [.net 3]), ("Q", [.net 4, .net 5])], by decide⟩ })],
      by decide⟩ }
  modules := ["counter"]
  policy := none
  sha256 := fun text => text

/-- The counter does in every run what its netlist does. -/
theorem netlist_trace_counter : ∃ m lowered, counter.Translates m ∧ m.lowerLocalDesign? = .ok lowered ∧ ∀ ιs n,
    counter.ctx.netlist.Trace ((List.range n).map fun k => (ιs k).hold lowered.clockPort)
      ((List.range n).map fun k => lowered.design.observe (ιs k) (lowered.design.runOpen ιs k lowered.design.reset)) := by
  have hlow : lowersApart counter 4 = true := by decide +kernel
  unfold lowersApart at hlow
  split at hlow
  · rename_i m s' hrun
    split at hlow
    · rename_i lowered hlowered
      refine ⟨m, lowered, ⟨4, s', hrun⟩, hlowered, fun ιs n => ?_⟩
      have hacyclic : counter.ctx.Acyclic := Ctx.acyclic_of_feedPairs (by decide +kernel)
      exact netlist_trace ⟨regular (by decide) (by decide) (by decide) hacyclic, by decide, by decide⟩ ⟨4, s', hrun⟩ hlowered
        (of_decide_eq_true hlow) ιs n
    · cases hlow
  · cases hlow

end LoomImport
