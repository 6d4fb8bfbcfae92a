import LoomImport.Documents
import LoomImport.Hierarchy
import LoomImport.Identifiers
import LoomImport.ModuleRuns

/-!
# Exported packages

The modules that are reached from a top module through the types of their cells are translated one by one, and written as a package. What
is written is read back, and the package is closed: every instance in it is one of a module of it.
-/

namespace LoomImport

open ImportIR Relation

/-! ## The modules of a package -/

/-- An elaborated design: its modules, and what they are translated with. -/
structure Elaborated where
  modules : Dict String YosysModule
  policy : Option FourStatePolicy
  sha256 : String → String

namespace Elaborated

variable (design : Elaborated)

/-- What a module of the design is translated in. -/
def setting (name : String) (module : YosysModule) : Setting where
  name := name
  module := module
  modules := design.modules.keys
  policy := design.policy
  sha256 := design.sha256

/-- A module has a cell of the type of another module. -/
def Instantiates (parent child : String) : Prop :=
  ∃ module, design.modules.get? parent = some module ∧ child ∈ module.cells.values.map Cell.type ∧ child ∈ design.modules.keys

/-- A module that is met for the first time is reachable and pending. -/
def visit (found : List String × List String) (child : String) : List String × List String :=
  if child ∈ design.modules.keys ∧ child ∉ found.1 then (child :: found.1, child :: found.2) else found

/-- The loop over the pending modules, the last one first. -/
def reachableLoop : Nat → List String → List String → Option (List String)
  | _, reachable, [] => some reachable
  | 0, _, _ :: _ => none
  | fuel + 1, reachable, parent :: pending => do
    let module ← design.modules.get? parent
    let found := (module.cells.values.map Cell.type).foldl design.visit (reachable, pending)
    reachableLoop fuel found.1 found.2

/-- The modules that are reached from a top module. -/
def reachableModules (top : String) : Option (List String) := design.reachableLoop design.modules.keys.length [top] [top]

/-- One module of the design, translated with some nested calls. -/
def exportModule (fuel : Nat) (name : String) : Option Module := do
  let module ← design.modules.get? name
  let Γ := design.setting name module
  let result ← Γ.ctx.translate fuel Γ.start
  result.1

/-- The package for a top module: the modules that are reached are translated in the order of their names. -/
def exportPackage (fuel : Nat) (top : String) : Option Package := do
  let module ← design.modules.get? top
  let names ← design.reachableModules top
  let modules ← (names.insertionSort fun a b => a ≤ b).mapM (design.exportModule fuel)
  return { top := top, modules := modules, source := location module.src "<yosys>" }

/-- The package is exported, with enough nested calls. -/
def Exports (top : String) (package : Package) : Prop := ∃ fuel, design.exportPackage fuel top = some package

end Elaborated

/-! ## The document of a package -/

namespace ImportJson

def parsePackageJson (json : Json) : Except String Package := do
  let top ← stringField json "top"
  let modules ← arrayField json "modules" >>= parseList parseModuleDagJson
  let source ← sourceField json
  return { top, modules, source }

/-- A document of a package, once its text is parsed. -/
def parsePackageDocument (json : Json) : Except String Package := do
  let schema ← natField json "schema"
  Hw.require (schema == 2) "unsupported neutral import package JSON schema"
  field json "package" >>= parsePackageJson

/-- The report of `main()` for a package, with its modules encoded. -/
def packageReport (frontend : Json) (top : String) (modules : List Json) (source : SourceLocation) : Json :=
  .obj [("schema", .num 2), ("frontend", frontend),
    ("package", .obj [("top", .str top), ("modules", .arr modules), ("source", source.document)])]

end ImportJson

/-! ## Reachable modules -/

namespace ExportAux

variable {design : Elaborated} {top : String} {reachable pending : List String}

/-- What holds while modules are visited. -/
structure Visited (design : Elaborated) (reachable pending : List String) : Prop where
  nodup : reachable.Nodup
  pending_sub : pending.Sublist reachable
  known : reachable ⊆ design.modules.keys

/-- The modules among some names are reachable afterwards, and those that were not before are pending. -/
theorem visit_spec (children : List String) {found : List String × List String} (h : Visited design found.1 found.2) :
    let result := children.foldl design.visit found
    Visited design result.1 result.2 ∧ result.1.length + found.2.length = found.1.length + result.2.length ∧
      (∀ name, name ∈ result.1 ↔ name ∈ found.1 ∨ name ∈ children ∧ name ∈ design.modules.keys) ∧
      ∀ name, name ∈ result.1 → name ∉ result.2 → name ∈ found.1 ∧ name ∉ found.2 := by
  induction children generalizing found with
  | nil => exact ⟨h, rfl, fun name => by simp, fun name hmem hnot => ⟨hmem, hnot⟩⟩
  | cons child children ih =>
    by_cases hnew : child ∈ design.modules.keys ∧ child ∉ found.1
    · have hvisit : design.visit found child = (child :: found.1, child :: found.2) := if_pos hnew
      have hstep : Visited design (design.visit found child).1 (design.visit found child).2 := by
        rw [hvisit]
        exact ⟨List.nodup_cons.2 ⟨hnew.2, h.nodup⟩, h.pending_sub.cons_cons child, List.cons_subset.2 ⟨hnew.1, h.known⟩⟩
      obtain ⟨hresult, hlength, hmem, hdone⟩ := ih hstep
      refine ⟨hresult, ?_, fun name => ?_, fun name hname hnot => ?_⟩
      · simp only [hvisit, List.length_cons] at hlength
        rw [List.foldl_cons, hvisit]
        omega
      · refine (hmem name).trans ?_
        rw [hvisit]
        grind
      · obtain ⟨hin, hout⟩ := hdone name hname hnot
        rw [hvisit] at hin hout
        grind
    · have hvisit : design.visit found child = found := if_neg hnew
      rw [← hvisit] at h
      obtain ⟨hresult, hlength, hmem, hdone⟩ := ih h
      rw [hvisit] at hlength hmem hdone
      refine ⟨hresult, ?_, fun name => ?_, ?_⟩
      · rw [List.foldl_cons, hvisit]
        exact hlength
      · rw [List.foldl_cons, hvisit]
        refine (hmem name).trans ?_
        grind
      · rw [List.foldl_cons, hvisit]
        exact hdone

/-- What holds between two rounds of the loop: what is reachable is reached, and what is no longer pending has its children reachable. -/
structure Visiting (design : Elaborated) (top : String) (reachable pending : List String) : Prop extends
    Visited design reachable pending where
  top_mem : top ∈ reachable
  reached : ∀ name ∈ reachable, ReflTransGen design.Instantiates top name
  closed : ∀ name ∈ reachable, name ∉ pending → ∀ child, design.Instantiates name child → child ∈ reachable

theorem Visiting.step {parent : String} {module : YosysModule} (h : Visiting design top reachable (parent :: pending))
    (hmodule : design.modules.get? parent = some module) :
    let found := (module.cells.values.map Cell.type).foldl design.visit (reachable, pending)
    Visiting design top found.1 found.2 ∧ found.1.length + pending.length = reachable.length + found.2.length := by
  have hparent : parent ∈ reachable := h.pending_sub.subset List.mem_cons_self
  have hstart : Visited design reachable pending := ⟨h.nodup, (List.sublist_cons_self parent pending).trans h.pending_sub, h.known⟩
  obtain ⟨hvisited, hlength, hmem, hdone⟩ := @visit_spec design (module.cells.values.map Cell.type) (reachable, pending) hstart
  refine ⟨⟨hvisited, (hmem top).2 (Or.inl h.top_mem), fun name hname => ?_, fun name hname hnot child hchild => ?_⟩, hlength⟩
  · rcases (hmem name).1 hname with hold | ⟨htype, hkey⟩
    · exact h.reached name hold
    · exact (h.reached parent hparent).tail ⟨module, hmodule, htype, hkey⟩
  · obtain ⟨hold, hout⟩ := hdone name hname hnot
    by_cases hsame : name = parent
    · obtain ⟨module', hmodule', htype, hkey⟩ := hchild
      rw [hsame, hmodule] at hmodule'
      cases hmodule'
      exact (hmem child).2 (Or.inr ⟨htype, hkey⟩)
    · exact (hmem child).2 (Or.inl (h.closed name hold (by simp [hsame, hout]) child hchild))

/-- The loop ends with what is reached: every round takes one of the finitely many modules. -/
theorem reachableLoop_spec (fuel : Nat) (h : Visiting design top reachable pending)
    (hfuel : design.modules.keys.length + pending.length ≤ reachable.length + fuel) :
    ∃ names, design.reachableLoop fuel reachable pending = some names ∧ Visiting design top names [] := by
  have hbound := (h.nodup.subperm h.known).length_le
  induction fuel generalizing reachable pending with
  | zero =>
    cases pending with
    | nil => exact ⟨reachable, rfl, h⟩
    | cons parent pending =>
      rw [List.length_cons] at hfuel
      omega
  | succ fuel ih =>
    cases pending with
    | nil => exact ⟨reachable, rfl, h⟩
    | cons parent pending =>
      have hparent := h.known (h.pending_sub.subset List.mem_cons_self)
      cases hmodule : design.modules.get? parent with
      | none => exact absurd hparent ((Dict.get?_eq_none_iff _ _).1 hmodule)
      | some module =>
        obtain ⟨hnext, hlength⟩ := h.step hmodule
        rw [List.length_cons] at hfuel
        obtain ⟨names, hnames, hdone⟩ := ih hnext (by omega) (hnext.nodup.subperm hnext.known).length_le
        refine ⟨names, ?_, hdone⟩
        unfold Elaborated.reachableLoop
        rw [hmodule]
        exact hnames

/-- The modules that are found are those that are reached. -/
theorem reachableModules_spec (htop : top ∈ design.modules.keys) : ∃ names, design.reachableModules top = some names ∧ names.Nodup ∧
    ∀ name, name ∈ names ↔ ReflTransGen design.Instantiates top name := by
  have hstart : Visiting design top [top] [top] := by
    refine ⟨⟨List.nodup_singleton top, List.Sublist.refl _, by simpa using htop⟩, List.mem_singleton.2 rfl, fun name hname => ?_, ?_⟩
    · rw [List.mem_singleton.1 hname]
    · exact fun name hname hnot => absurd hname hnot
  obtain ⟨names, hnames, hdone⟩ := reachableLoop_spec design.modules.keys.length hstart (by simp [Nat.add_comm])
  refine ⟨names, hnames, hdone.nodup, fun name => ⟨hdone.reached name, fun h => ?_⟩⟩
  induction h with
  | refl => exact hdone.top_mem
  | tail _ hstep ih => exact hdone.closed _ ih List.not_mem_nil _ hstep

/-! ## The modules of a package -/

open StateOption

variable {Γ : Setting} {m : Module}

theorem name_of_translates (h : Γ.Translates m) : m.name = Γ.name := by
  obtain ⟨fuel, s', hrun⟩ := h
  have hname : wlp (Γ.ctx.translate fuel) (fun result _ => ∀ m ∈ result, m.name = Γ.ctx.name) Γ.start := by
    unfold Ctx.translate
    simp only [wlp_bind, wlp_pure, wlp_get]
    intro memories s₁ _ registers s₂ _ instances s₃ _ _ s₄ _ outputs s₅ _ m hm
    obtain ⟨registers', -, hm⟩ := Option.bind_eq_some_iff.1 hm
    obtain ⟨instances', -, hm⟩ := Option.bind_eq_some_iff.1 hm
    obtain ⟨ports, -, hm⟩ := Option.bind_eq_some_iff.1 hm
    cases hm
    rfl
  rw [hname _ _ hrun m rfl, ctx_toSetting]

theorem instances_names (h : Γ.Translates m) : m.instances.map Instance.name = Γ.ctx.childCells.map Prod.fst :=
  (map_eq_of_forall₂ ((Setting.parts_of_translates h).1.instances.imp fun _ _ hparts => hparts.name_eq.symm)).symm

theorem nodup_instances (h : Γ.Translates m) : (m.instances.map Instance.name).Nodup := by
  rw [instances_names h]
  exact Γ.ctx.module.cells.nodup.sublist (List.filter_sublist.map Prod.fst)

/-- The ports an instance is connected by are told apart, and each net is named by the instance and the port. -/
theorem connections_spec (h : Γ.Translates m) {inst : Instance} (hinst : inst ∈ m.instances) :
    (inst.connections.map InstanceConnection.port).Nodup ∧
      inst.connections.map InstanceConnection.signal = (inst.connections.map InstanceConnection.port).map (instanceNet inst.name) := by
  obtain ⟨entry, -, hparts⟩ := exists_of_forall₂ (Setting.parts_of_translates h).1.instances.flip hinst
  have hports : inst.connections.map InstanceConnection.port = entry.2.writtenConnections.map Prod.fst :=
    (map_eq_of_forall₂ (hparts.connections.imp fun _ _ hc => hc.port_eq.symm)).symm
  have hsignals : inst.connections.map InstanceConnection.signal =
      entry.2.writtenConnections.map fun connection => instanceNet entry.1 connection.1 :=
    (map_eq_of_forall₂ (hparts.connections.imp fun _ _ hc => hc.signal_eq.symm)).symm
  refine ⟨?_, ?_⟩
  · rw [hports]
    have hperm := (List.perm_insertionSort (fun a b : String × List Bit => a.1 ≤ b.1) entry.2.connections.entries).map Prod.fst
    exact (hperm.nodup_iff.2 entry.2.connections.nodup).sublist (List.filter_sublist.map Prod.fst)
  · rw [hsignals, hports, hparts.name_eq, List.map_map]
    rfl

/-- The nets of the instances of a module are told apart. -/
theorem nodup_nets (h : Γ.Translates m) :
    (m.instances.flatMap fun inst => inst.connections.map InstanceConnection.signal).Nodup := by
  rw [List.nodup_flatMap]
  constructor
  · intro inst hinst
    obtain ⟨hports, hsignals⟩ := connections_spec h hinst
    rw [hsignals]
    exact hports.map fun _ _ hsame => (instanceNet_inj hsame).2
  · refine (List.pairwise_map.1 (nodup_instances h)).imp_of_mem fun {inst inst'} hinst hinst' hne => ?_
    show List.Disjoint (inst.connections.map InstanceConnection.signal) (inst'.connections.map InstanceConnection.signal)
    rw [(connections_spec h hinst).2, (connections_spec h hinst').2]
    intro net hnet hnet'
    obtain ⟨port, -, rfl⟩ := List.mem_map.1 hnet
    obtain ⟨port', -, hsame⟩ := List.mem_map.1 hnet'
    exact hne (instanceNet_inj hsame).1.symm

/-- The modules a module has instances of. -/
theorem exists_instance_iff (h : Γ.Translates m) {child : String} :
    (∃ inst ∈ m.instances, inst.moduleName = child) ↔ child ∈ Γ.module.cells.values.map Cell.type ∧ child ∈ Γ.modules := by
  have hnames : m.instances.map Instance.moduleName = Γ.ctx.childCells.map fun entry => entry.2.type :=
    (map_eq_of_forall₂ ((Setting.parts_of_translates h).1.instances.imp fun _ _ hparts => hparts.moduleName_eq.symm)).symm
  have hmem : (∃ inst ∈ m.instances, inst.moduleName = child) ↔ child ∈ m.instances.map Instance.moduleName := by simp
  rw [hmem, hnames, Ctx.childCells, ctx_toSetting]
  simp only [Dict.values, List.map_map, List.mem_map, List.mem_filter, decide_eq_true_eq, Function.comp_apply]
  constructor
  · rintro ⟨entry, ⟨hentry, hmodule⟩, rfl⟩
    exact ⟨⟨entry, hentry, rfl⟩, hmodule⟩
  · rintro ⟨⟨entry, hentry, rfl⟩, hmodule⟩
    exact ⟨entry, ⟨hentry, hmodule⟩, rfl⟩

/-! ## The package -/

variable {package : Package}

/-- What is exported. -/
theorem exports_spec (h : design.Exports top package) : top ∈ design.modules.keys ∧ ∃ names, design.reachableModules top = some names ∧
    List.Forall₂ (fun name m => ∃ module, design.modules.get? name = some module ∧ (design.setting name module).Translates m)
      (names.insertionSort fun a b => a ≤ b) package.modules := by
  obtain ⟨fuel, h⟩ := h
  obtain ⟨module, hmodule, h⟩ := Option.bind_eq_some_iff.1 h
  obtain ⟨names, hnames, h⟩ := Option.bind_eq_some_iff.1 h
  obtain ⟨modules, hmodules, h⟩ := Option.bind_eq_some_iff.1 h
  cases h
  refine ⟨?_, names, hnames, (VectorSpec.forall₂_of_mapM hmodules).imp fun name m hm => ?_⟩
  · by_contra hnot
    rw [(Dict.get?_eq_none_iff _ _).2 hnot] at hmodule
    cases hmodule
  · obtain ⟨module', hmodule', hm⟩ := Option.bind_eq_some_iff.1 hm
    obtain ⟨⟨result, s'⟩, hrun, hm⟩ := Option.bind_eq_some_iff.1 hm
    cases hm
    exact ⟨module', hmodule', fuel, s', hrun⟩

/-- The modules of the package have the names that are reached. -/
theorem exports_names (h : design.Exports top package) : (package.modules.map Module.name).Nodup ∧
    ∀ name, name ∈ package.modules.map Module.name ↔ ReflTransGen design.Instantiates top name := by
  obtain ⟨htop, names, hnames, hmodules⟩ := exports_spec h
  obtain ⟨names', hnames', hnodup, hmem⟩ := reachableModules_spec htop
  rw [hnames] at hnames'
  cases hnames'
  have hsorted : names.insertionSort (fun a b => a ≤ b) = package.modules.map Module.name := by
    refine (List.map_id _).symm.trans (map_eq_of_forall₂ (hmodules.imp fun name m hm => ?_))
    obtain ⟨module, -, ht⟩ := hm
    exact (name_of_translates ht).symm
  have hperm := List.perm_insertionSort (fun a b : String => a ≤ b) names
  rw [hsorted] at hperm
  exact ⟨hperm.nodup_iff.2 hnodup, fun name => hperm.mem_iff.trans (hmem name)⟩

/-- Each module of the package is the translation of the module of its name. -/
theorem exports_module (h : design.Exports top package) (hm : m ∈ package.modules) :
    ∃ module, design.modules.get? m.name = some module ∧ (design.setting m.name module).Translates m := by
  obtain ⟨-, names, -, hmodules⟩ := exports_spec h
  obtain ⟨name, -, module, hmodule, ht⟩ := exists_of_forall₂ hmodules.flip hm
  obtain rfl : m.name = name := name_of_translates ht
  exact ⟨module, hmodule, ht⟩

/-- What a module of the package has instances of. -/
theorem exports_instance_iff (h : design.Exports top package) (hm : m ∈ package.modules) {child : String} :
    (∃ inst ∈ m.instances, inst.moduleName = child) ↔ design.Instantiates m.name child := by
  obtain ⟨module, hmodule, ht⟩ := exports_module h hm
  rw [exists_instance_iff ht]
  constructor
  · exact fun hchild => ⟨module, hmodule, hchild.1, hchild.2⟩
  · rintro ⟨module', hmodule', htype, hkey⟩
    rw [hmodule] at hmodule'
    cases hmodule'
    exact ⟨htype, hkey⟩

/-- The documents of some modules, encoded one by one, are read as the modules. -/
theorem encode_modules {modules : List Module} {documents : List PyValue}
    (h : List.Forall₂ (fun m document => document.Coherent ∧ ∃ annotations, document.toJson = m.document annotations) modules documents) :
    ∃ encoded, documents.mapM encodeModuleExpressionDag = some encoded ∧
      ImportJson.parseList ImportJson.parseModuleDagJson encoded = .ok modules := by
  induction h with
  | nil => exact ⟨[], rfl, rfl⟩
  | @cons m document _ _ hdocument _ ih =>
    obtain ⟨hcoherent, annotations, hjson⟩ := hdocument
    obtain ⟨json, hjson, hparse⟩ := DagAux.encode_spec hcoherent (hjson ▸ ImportJson.parseModule_document m annotations)
    obtain ⟨encoded, hencoded, hparsed⟩ := ih
    refine ⟨json :: encoded, by rw [List.mapM_cons, hjson, hencoded]; rfl, ?_⟩
    unfold ImportJson.parseList at hparsed ⊢
    rw [List.mapM_cons, hparse, hparsed]
    rfl

end ExportAux

open ExportAux

/-- The package that is exported for a top module has a module for each one that is reached through the types of cells, contains exactly
the instances of the design, is closed and has its instances and nets told apart, and is what is read from the document it is written
as. -/
theorem exports_closed (design : Elaborated) (top : String) (package : Package) (h : design.Exports top package) :
    (package.modules.map Module.name).Nodup ∧
      (∀ name, name ∈ package.modules.map Module.name ↔ ReflTransGen design.Instantiates top name) ∧
      (∀ parent child, (parent, child) ∈ package.hierarchyEdges ↔
        ReflTransGen design.Instantiates top parent ∧ design.Instantiates parent child) ∧
      (∀ module ∈ package.modules, (module.instances.map Instance.name).Nodup ∧
        (module.instances.flatMap fun inst => inst.connections.map InstanceConnection.signal).Nodup ∧
        ∀ inst ∈ module.instances, (inst.connections.map InstanceConnection.port).Nodup ∧
          ∃ child, package.findModule? inst.moduleName = some child) ∧
      ∀ frontend documents, List.Forall₂ (fun m document => document.Coherent ∧ ∃ annotations, document.toJson = m.document annotations)
          package.modules documents →
        ∃ encoded, documents.mapM encodeModuleExpressionDag = some encoded ∧
          ImportJson.parsePackageDocument (ImportJson.packageReport frontend package.top encoded package.source) = .ok package := by
  obtain ⟨hnodup, hnames⟩ := exports_names h
  refine ⟨hnodup, hnames, fun parent child => ?_, fun module hmodule => ?_, fun frontend documents hdocuments => ?_⟩
  · rw [PackagesAux.mem_hierarchyEdges]
    constructor
    · rintro ⟨module, hmodule, rfl, hchild⟩
      exact ⟨(hnames _).1 (List.mem_map_of_mem hmodule), (exports_instance_iff h hmodule).1 hchild⟩
    · rintro ⟨hreached, hchild⟩
      obtain ⟨module, hmodule, rfl⟩ := List.mem_map.1 ((hnames parent).2 hreached)
      exact ⟨module, hmodule, rfl, (exports_instance_iff h hmodule).2 hchild⟩
  · obtain ⟨source, hsource, ht⟩ := exports_module h hmodule
    refine ⟨nodup_instances ht, nodup_nets ht, fun inst hinst => ⟨(connections_spec ht hinst).1, ?_⟩⟩
    have hreached := (hnames _).1 (List.mem_map_of_mem hmodule)
    have hchild := (exports_instance_iff h hmodule).1 ⟨inst, hinst, rfl⟩
    obtain ⟨child, hmem, hname⟩ := List.mem_map.1 ((hnames _).2 (hreached.tail hchild))
    exact ⟨child, hname ▸ PackagesAux.findModule?_name hnodup hmem⟩
  · obtain ⟨encoded, hencoded, hparsed⟩ := encode_modules hdocuments
    refine ⟨encoded, hencoded, ?_⟩
    have hpackage : ImportJson.parsePackageDocument (ImportJson.packageReport frontend package.top encoded package.source) =
        (ImportJson.parseList ImportJson.parseModuleDagJson encoded >>= fun modules =>
          .ok { top := package.top, modules := modules, source := package.source }) := rfl
    rw [hpackage, hparsed]
    rfl

/-- A module with an instance of another, beside a module that is not used. -/
def wrapped : Elaborated where
  modules := ⟨[("unused", { src := "", ports := Dict.empty, netnames := Dict.empty, cells := Dict.empty }),
    ("wrapper", {
      src := "wrapped.v:1.1-4.10"
      ports := ⟨[("i", ⟨"input", [.net 2]⟩), ("o", ⟨"output", [.net 3]⟩)], by decide⟩
      netnames := Dict.empty
      cells := ⟨[("inner", {
        type := "wire"
        src := "wrapped.v:3.3-3.20"
        parameters := Dict.empty
        portDirections := ⟨[("a", "input"), ("y", "output")], by decide⟩
        connections := ⟨[("a", [.net 2]), ("y", [.net 3])], by decide⟩ })], by decide⟩ }),
    ("wire", {
      src := "wrapped.v:6.1-8.10"
      ports := ⟨[("y", ⟨"output", [.net 2]⟩), ("a", ⟨"input", [.net 2]⟩)], by decide⟩
      netnames := Dict.empty
      cells := Dict.empty })], by decide⟩
  policy := none
  sha256 := fun text => text

/-- The package of the wrapper has the modules that are reached from it. -/
theorem exports_closed_wrapped : ∃ package, wrapped.Exports "wrapper" package ∧
    ∀ name, name ∈ package.modules.map Module.name ↔ ReflTransGen wrapped.Instantiates "wrapper" name := by
  have hsome : (wrapped.exportPackage 4 "wrapper").isSome = true := by decide +kernel
  obtain ⟨package, hpackage⟩ := Option.isSome_iff_exists.1 hsome
  have hexports : wrapped.Exports "wrapper" package := ⟨4, hpackage⟩
  exact ⟨package, hexports, (exports_closed wrapped "wrapper" package hexports).2.1⟩

end LoomImport
