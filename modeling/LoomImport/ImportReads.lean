import LoomImport.ModuleRefinement

/-!
# Reads that are checked on the source

An imported design is not checked again for reads of what it does not declare: the expressions of the module have been checked. The two
checks differ in one thing. The clock and the reset of a module may be read on the source, and are no inputs of the design.
-/

namespace LoomImport

open ImportIR StateOption ModuleLoweringAux

/-! ## Read sites -/

/-- The signals and the memories something reads, with their widths. -/
abbrev Sites := List (String × Nat) × List (String × Nat)

/-- The reads of several things. -/
def Sites.collect (l : List Sites) : Sites := (l.flatMap Prod.fst, l.flatMap Prod.snd)

theorem Sites.collect_append (l l' : List Sites) :
    Sites.collect (l ++ l') = ((Sites.collect l).1 ++ (Sites.collect l').1, (Sites.collect l).2 ++ (Sites.collect l').2) := by
  simp [Sites.collect]

/-- The signals and memories an expression of the source reads. -/
def ImportIR.Expr.readSites : ImportIR.Expr → Sites
  | .literal .. | .partialLiteral .. => ([], [])
  | .signal width name _ => ([(name, width)], [])
  | .unary _ _ value _ | .slice _ value _ _ | .zeroExtend _ value _ | .signExtend _ value _ => value.readSites
  | .binary _ _ left right _ | .concat _ left right _ => (left.readSites.1 ++ right.readSites.1, left.readSites.2 ++ right.readSites.2)
  | .mux _ condition yes no _ =>
    (condition.readSites.1 ++ yes.readSites.1 ++ no.readSites.1, condition.readSites.2 ++ yes.readSites.2 ++ no.readSites.2)
  | .memoryRead width memory address _ => (address.readSites.1, (memory, width) :: address.readSites.2)

namespace ReadsAux

open DenotesAux

/-- What the check on the source asks of the reads of an expression. -/
theorem readsDeclaredB_iff {regWidths memWidths : Dict String Nat} (e : Expr) : e.readsDeclaredB regWidths memWidths = true ↔
    (∀ site ∈ e.readSites.1, regWidths.get? site.1 = some site.2) ∧ ∀ site ∈ e.readSites.2, memWidths.get? site.1 = some site.2 := by
  induction e with
  | literal | partialLiteral => simp [Expr.readsDeclaredB, Expr.readSites]
  | signal => simp [Expr.readsDeclaredB, Expr.readSites]
  | unary _ _ _ _ ih | slice _ _ _ _ ih | zeroExtend _ _ _ ih | signExtend _ _ _ ih => exact ih
  | binary _ _ _ _ _ ihl ihr | concat _ _ _ _ ihl ihr =>
    simp only [Expr.readsDeclaredB, Expr.readSites, Bool.and_eq_true, ihl, ihr, List.forall_mem_append]
    tauto
  | mux _ _ _ _ _ ihc ihy ihn =>
    simp only [Expr.readsDeclaredB, Expr.readSites, Bool.and_eq_true, ihc, ihy, ihn, List.forall_mem_append]
    tauto
  | memoryRead _ _ _ _ ih =>
    simp only [Expr.readsDeclaredB, Expr.readSites, Bool.and_eq_true, beq_iff_eq, ih, List.forall_mem_cons]
    tauto

/-! ### Of lowered expressions -/

theorem expectWidth_reads {w : Nat} {x : LoweredExpr} {source : SourceLocation} {value : Hw.Expr w} (h : expectWidth w x source = .ok value) :
    value.readSites = x.value.readSites := by
  rw [expectWidth_eq_ok h]

theorem concat_reads {hi lo : Nat} (hlo : 0 < lo) (msbs : Hw.Expr hi) (lsbs : Hw.Expr lo) : (Hw.Expr.concat msbs lsbs).readSites =
    (msbs.readSites.1 ++ lsbs.readSites.1, msbs.readSites.2 ++ lsbs.readSites.2) := by
  cases lo with
  | zero => omega
  | succ n => simp [Hw.Expr.concat, Hw.Expr.readSites]

theorem cast_reads {w w' : Nat} (h : w = w') (x : Hw.Expr w) : (h ▸ x : Hw.Expr w').readSites = x.readSites := by
  subst h
  rfl

theorem lowerUnary?_reads {width : Nat} {op : UnaryOp} {lowered x : LoweredExpr} {source : SourceLocation}
    (h : lowerUnary? width op lowered source = .ok x) : x.value.readSites = lowered.value.readSites := by
  cases op with
  | bitNot | negate =>
    obtain ⟨value, hvalue, h⟩ := bind_eq_ok h
    cases h
    rw [← expectWidth_reads hvalue]
    simp [Hw.Expr.readSites]
  | reduceBool | reduceAnd | logicalNot =>
    simp only [lowerUnary?] at h
    split at h
    · cases h
    · cases h
      simp [Hw.Expr.readSites]

theorem lowerUniform?_reads {width : Nat} {make : Hw.Expr width → Hw.Expr width → Hw.Expr width}
    (hmake : ∀ a b, (make a b).readSites = (a.readSites.1 ++ b.readSites.1, a.readSites.2 ++ b.readSites.2)) {left right x : LoweredExpr}
    {source : SourceLocation} (h : lowerUniform? width make left right source = .ok x) :
    x.value.readSites = (left.value.readSites.1 ++ right.value.readSites.1, left.value.readSites.2 ++ right.value.readSites.2) := by
  obtain ⟨leftValue, hleft, h⟩ := bind_eq_ok h
  obtain ⟨rightValue, hright, h⟩ := bind_eq_ok h
  cases h
  rw [← expectWidth_reads hleft, ← expectWidth_reads hright]
  exact hmake leftValue rightValue

theorem lowerComparison?_reads {width : Nat} {make : {w : Nat} → Hw.Expr w → Hw.Expr w → Hw.Expr 1}
    (hmake : ∀ {w} (a b : Hw.Expr w), (make a b).readSites = (a.readSites.1 ++ b.readSites.1, a.readSites.2 ++ b.readSites.2))
    {left right x : LoweredExpr} {source : SourceLocation} (h : lowerComparison? width make left right source = .ok x) :
    x.value.readSites = (left.value.readSites.1 ++ right.value.readSites.1, left.value.readSites.2 ++ right.value.readSites.2) := by
  unfold lowerComparison? at h
  split at h
  · cases h
  · obtain ⟨rightValue, hright, h⟩ := bind_eq_ok h
    cases h
    rw [← expectWidth_reads hright]
    exact hmake left.value rightValue

theorem lowerBinary?_reads {width : Nat} {op : BinaryOp} {left right x : LoweredExpr} {source : SourceLocation}
    (h : lowerBinary? width op left right source = .ok x) :
    x.value.readSites = (left.value.readSites.1 ++ right.value.readSites.1, left.value.readSites.2 ++ right.value.readSites.2) := by
  cases op with
  | equal | unsignedLessThan | signedLessThan => exact lowerComparison?_reads (fun _ _ => rfl) h
  | _ => exact lowerUniform?_reads (fun _ _ => rfl) h

/-- A lowered expression reads what the expression reads. -/
theorem lowerExpr?_reads {e : Expr} {x : LoweredExpr} (h : lowerExpr? e = .ok x) : x.value.readSites = e.readSites := by
  induction e generalizing x with
  | literal | signal =>
    simp only [lowerExpr?] at h
    split at h
    · cases h
    · cases h
      rfl
  | partialLiteral =>
    simp only [lowerExpr?] at h
    split at h
    · cases h
      rfl
    · cases h
  | unary width op value source ih =>
    simp only [lowerExpr?] at h
    obtain ⟨y, hy, h⟩ := bind_eq_ok h
    rw [lowerUnary?_reads h, ih hy]
    rfl
  | binary width op left right source ihl ihr =>
    simp only [lowerExpr?] at h
    obtain ⟨a, ha, h⟩ := bind_eq_ok h
    obtain ⟨b, hb, h⟩ := bind_eq_ok h
    rw [lowerBinary?_reads h, ihl ha, ihr hb]
    rfl
  | mux width condition yes no source ihc ihy ihn =>
    simp only [lowerExpr?] at h
    obtain ⟨c', hc', h⟩ := bind_eq_ok h
    obtain ⟨y', hy', h⟩ := bind_eq_ok h
    obtain ⟨n', hn', h⟩ := bind_eq_ok h
    obtain ⟨a, ha, hc'⟩ := bind_eq_ok hc'
    obtain ⟨b, hb, hy'⟩ := bind_eq_ok hy'
    obtain ⟨d, hd, hn'⟩ := bind_eq_ok hn'
    cases h
    simp only [Hw.Expr.readSites, Expr.readSites, expectWidth_reads hc', expectWidth_reads hy', expectWidth_reads hn', ihc ha, ihy hb, ihn hd]
  | slice width value offset source ih | zeroExtend width value source ih | signExtend width value source ih =>
    simp only [lowerExpr?] at h
    obtain ⟨y, hy, h⟩ := bind_eq_ok h
    split at h
    · cases h
    · have hsame := ih hy
      cases h
      exact hsame
  | concat width high low source ihh ihl =>
    simp only [lowerExpr?] at h
    obtain ⟨a, ha, h⟩ := bind_eq_ok h
    obtain ⟨b, hb, h⟩ := bind_eq_ok h
    split at h
    · cases h
      rw [cast_reads, concat_reads (lowerExpr?_pos hb), ihh ha, ihl hb]
      rfl
    · cases h
  | memoryRead width memory address source ih =>
    simp only [lowerExpr?] at h
    obtain ⟨y, hy, h⟩ := bind_eq_ok h
    split at h
    · cases h
    · cases h
      simp only [Hw.Expr.readSites, Expr.readSites, ih hy]

/-! ### Of designs -/

theorem foldl_collect {α : Type} (f : α → Sites) (l : List α) (acc : Sites) :
    l.foldl (fun acc a => (acc.1 ++ (f a).1, acc.2 ++ (f a).2)) acc =
      (acc.1 ++ (Sites.collect (l.map f)).1, acc.2 ++ (Sites.collect (l.map f)).2) := by
  induction l generalizing acc with
  | nil => simp [Sites.collect]
  | cons a l ih =>
    rw [List.foldl_cons, ih]
    simp [Sites.collect, List.append_assoc]

theorem sequence_reads (acts : List Hw.Act) : (Hw.sequence acts).readSites = Sites.collect (acts.map Hw.Act.readSites) := by
  have key : ∀ (first : Hw.Act), (acts.foldl Hw.Act.seq first).readSites =
      acts.foldl (fun acc act => (acc.1 ++ act.readSites.1, acc.2 ++ act.readSites.2)) first.readSites := by
    induction acts with
    | nil => exact fun _ => rfl
    | cons act acts ih => exact fun first => ih (.seq first act)
  exact (key .skip).trans (foldl_collect _ _ _)

theorem collect_flatMap {α β : Type} {f : α → List Sites} {g : β → List Sites} {l : List α} {l' : List β}
    (h : List.Forall₂ (fun a b => Sites.collect (g b) = Sites.collect (f a)) l l') :
    Sites.collect (l'.flatMap g) = Sites.collect (l.flatMap f) := by
  induction h with
  | nil => rfl
  | cons hab _ ih => rw [List.flatMap_cons, List.flatMap_cons, Sites.collect_append, Sites.collect_append, hab, ih]

/-- A lowered value of some width reads what its expression reads. -/
theorem lowered_reads {e : Expr} {w : Nat} {source : SourceLocation} {value : Hw.Expr w}
    (h : (lowerExpr? e >>= fun x => expectWidth w x source) = .ok value) : value.readSites = e.readSites := by
  obtain ⟨x, hx, hvalue⟩ := bind_eq_ok h
  rw [expectWidth_reads hvalue, lowerExpr?_reads hx]

theorem lowerRegister?_reads {register : Register} {part : Hw.RegDecl × Hw.Act} (h : lowerRegister? register = .ok part) :
    part.2.readSites = register.next.readSites := by
  obtain ⟨next, hnext, rfl⟩ := lowerRegister?_ok h
  exact lowerExpr?_reads hnext

theorem lowerWrite?_reads {memory : Memory} {write : MemoryWrite} {act : Hw.Act} (h : lowerWrite? memory write = .ok act) :
    act.readSites = Sites.collect ([write.enable, write.address, write.data].map Expr.readSites) := by
  obtain ⟨enable, henable, h⟩ := bind_eq_ok h
  obtain ⟨address, haddress, h⟩ := bind_eq_ok h
  obtain ⟨data, hdata, h⟩ := bind_eq_ok h
  cases h
  simp [Hw.Act.readSites, Sites.collect, lowered_reads henable, lowered_reads haddress, lowered_reads hdata]

theorem lowerMemoryDecl?_reads {memory : Memory} {part : Hw.MemDecl × List Hw.Act} (h : lowerMemoryDecl? memory = .ok part) :
    Sites.collect (part.2.map Hw.Act.readSites) =
      Sites.collect ((memory.writes.flatMap fun write => [write.enable, write.address, write.data]).map Expr.readSites) := by
  obtain ⟨acts, hacts, rfl⟩ := map_eq_ok h
  obtain ⟨_, -, hacts⟩ := bind_eq_ok hacts
  rw [List.map_eq_flatMap, List.map_flatMap]
  exact collect_flatMap ((forall₂_of_mapM hacts).imp fun _ _ hact => by rw [← lowerWrite?_reads hact]; simp [Sites.collect])

theorem lowerOutput?_reads {output : Output} {lowered : Hw.CombOutput} (h : lowerOutput? output = .ok lowered) :
    lowered.value.readSites = output.value.readSites := by
  obtain ⟨value, hvalue, h⟩ := bind_eq_ok h
  cases h
  exact lowered_reads hvalue

/-- The design of a module reads what the expressions of the module read. -/
theorem designOf_reads {m : Module} {domain : ClockDomain} {parts : LoweredParts} (h : lowerParts? m = .ok parts) :
    (m.designOf domain parts).readSites = Sites.collect (m.expressionRoots.map Expr.readSites) := by
  obtain ⟨registers, hregisters, h⟩ := bind_eq_ok h
  obtain ⟨memories, hmemories, h⟩ := bind_eq_ok h
  obtain ⟨outputs, houtputs, h⟩ := bind_eq_ok h
  cases h
  have hregs : Sites.collect ((registers.map Prod.snd).map Hw.Act.readSites) =
      Sites.collect ((m.registers.map Register.next).map Expr.readSites) := by
    rw [List.map_map, List.map_map, List.map_eq_flatMap, List.map_eq_flatMap]
    exact collect_flatMap ((forall₂_of_mapM hregisters).imp fun _ _ hpart =>
      congrArg (fun site => Sites.collect [site]) (lowerRegister?_reads hpart))
  have hmems : Sites.collect ((memories.flatMap Prod.snd).map Hw.Act.readSites) =
      Sites.collect ((m.memories.flatMap fun memory =>
        memory.writes.flatMap fun write => [write.enable, write.address, write.data]).map Expr.readSites) := by
    rw [List.map_flatMap, List.map_flatMap]
    exact collect_flatMap ((forall₂_of_mapM hmemories).imp fun _ _ => lowerMemoryDecl?_reads)
  have houts : Sites.collect (outputs.map fun output => output.value.readSites) =
      Sites.collect ((m.outputs.map Output.value).map Expr.readSites) := by
    rw [List.map_map, List.map_eq_flatMap, List.map_eq_flatMap]
    exact collect_flatMap ((forall₂_of_mapM houtputs).imp fun _ _ houtput =>
      congrArg (fun site => Sites.collect [site]) (lowerOutput?_reads houtput))
  simp only [Hw.Design.readSites, Module.designOf, List.foldl_cons, List.foldl_nil, foldl_collect, sequence_reads, List.map_append,
    Sites.collect_append, hregs, hmems, houts, Module.expressionRoots, List.nil_append]

/-! ### The two checks -/

/-- The gate is the one after the check on the source, and the check on the reads. -/
theorem emitCheck_iff (d : Hw.Design) : d.emitCheck = .ok () ↔ d.emitCheckAfterImportReads = .ok () ∧ d.readsOkB = true := by
  have step : ∀ {α : Type} {x : Except String α} {f g : α → Except String Unit} {P : Prop},
      (∀ a, f a = .ok () ↔ g a = .ok () ∧ P) → ((x >>= f) = .ok () ↔ (x >>= g) = .ok () ∧ P) := by
    intro α x f g P h
    cases x with
    | error message =>
      constructor
      · intro hok
        cases hok
      · rintro ⟨hok, -⟩
        cases hok
    | ok a => exact h a
  unfold Hw.Design.emitCheck Hw.Design.emitCheckAfterImportReads Hw.Design.emitCheckCore
  simp only [Bool.true_or, Bool.false_or]
  cases d.inputs.find? fun i => (d.regs.map Hw.RegDecl.name ++ d.mems.map Hw.MemDecl.name).contains i.name with
  | some i => exact ⟨fun hok => (by cases hok), fun hok => (by cases hok.1)⟩
  | none =>
    refine step fun _ => step fun _ => step fun _ => ?_
    cases d.outputsUndeclared with
    | cons n rest => exact ⟨fun hok => (by cases hok), fun hok => (by cases hok.1)⟩
    | nil =>
      refine step fun _ => step fun _ => ?_
      cases d.readsOkB with
      | true => exact (and_iff_left rfl).symm
      | false => exact ⟨fun hok => (by cases hok), fun hok => (by cases hok.2)⟩

/-- Every read of a design is of a register, an input or a memory. -/
theorem readsOkB_iff (d : Hw.Design) : d.readsOkB = true ↔
    (∀ site ∈ d.readSites.1, (∃ r ∈ d.regs, r.name = site.1 ∧ r.width = site.2) ∨ ∃ i ∈ d.inputs, i.name = site.1 ∧ i.width = site.2) ∧
      ∀ site ∈ d.readSites.2, ∃ m ∈ d.mems, m.name = site.1 ∧ m.dataWidth = site.2 := by
  have iff_or : ∀ {p q : Prop}, p ∨ q ↔ ¬p → q := by tauto
  simp [Hw.Design.readsOkB, Hw.Design.badRegReads, Hw.Design.badMemReads, List.filter_eq_nil_iff, iff_or]

/-- A width of the source is that of an input port or of a register. -/
theorem regWidths_get? {m : Module} {name : String} {width : Nat} (h : m.regWidths.get? name = some width) :
    (∃ port ∈ m.ports, port.direction = .input ∧ port.name = name ∧ port.width = width) ∨
      ∃ register ∈ m.registers, register.name = name ∧ register.width = width := by
  have hfilter : m.regWidths = (m.ports.filter fun port => port.direction = .input).foldl
      (fun widths port => widths.set port.name port.width)
      (m.registers.foldl (fun widths register => widths.set register.name register.width) Dict.empty) := by
    simp only [List.foldl_filter, decide_eq_true_eq, Module.regWidths]
  rw [hfilter] at h
  rcases Dict.get?_foldl_set h with h | ⟨port, hport, hname, hwidth⟩
  · rcases Dict.get?_foldl_set h with h | hregister
    · cases h
    · exact Or.inr hregister
  · obtain ⟨hport, hinput⟩ := List.mem_filter.1 hport
    exact Or.inl ⟨port, hport, of_decide_eq_true hinput, hname, hwidth⟩

theorem memWidths_get? {m : Module} {name : String} {width : Nat} (h : m.memWidths.get? name = some width) :
    ∃ memory ∈ m.memories, memory.name = name ∧ memory.dataWidth = width := by
  rcases Dict.get?_foldl_set h with h | hmemory
  · cases h
  · exact hmemory

/-- The declared registers are those of the module. -/
theorem designOf_regs {m : Module} {domain : ClockDomain} {parts : LoweredParts} (h : lowerParts? m = .ok parts) :
    (m.designOf domain parts).regs = m.registers.map Register.decl := by
  obtain ⟨registers, hregisters, h⟩ := bind_eq_ok h
  obtain ⟨memories, -, h⟩ := bind_eq_ok h
  obtain ⟨outputs, -, h⟩ := bind_eq_ok h
  cases h
  refine (map_eq_of_forall₂ ((forall₂_of_mapM hregisters).imp fun _ _ hpart => ?_)).symm
  obtain ⟨next, -, rfl⟩ := lowerRegister?_ok hpart
  rfl

theorem designOf_mems {m : Module} {domain : ClockDomain} {parts : LoweredParts} (h : lowerParts? m = .ok parts) :
    (m.designOf domain parts).mems = m.memories.map Memory.decl := by
  obtain ⟨registers, -, h⟩ := bind_eq_ok h
  obtain ⟨memories, hmemories, h⟩ := bind_eq_ok h
  obtain ⟨outputs, -, h⟩ := bind_eq_ok h
  cases h
  refine (map_eq_of_forall₂ ((forall₂_of_mapM hmemories).imp fun _ _ hpart => ?_)).symm
  obtain ⟨acts, -, rfl⟩ := map_eq_ok hpart
  rfl

/-- A register or an input of the design has some name and width, where the source has: a clock or a reset is no input. -/
theorem declared_iff {m : Module} {domain : ClockDomain} {parts : LoweredParts} (h : lowerParts? m = .ok parts) {name : String} {width : Nat}
    (hsource : m.regWidths.get? name = some width) :
    ((∃ r ∈ (m.designOf domain parts).regs, r.name = name ∧ r.width = width) ∨
        ∃ i ∈ (m.designOf domain parts).inputs, i.name = name ∧ i.width = width) ↔
      ((name = domain.clockPort ∨ domain.reset.port = some name) → ∃ register ∈ m.registers, register.name = name ∧ register.width = width) := by
  have hregs : (∃ r ∈ (m.designOf domain parts).regs, r.name = name ∧ r.width = width) ↔
      ∃ register ∈ m.registers, register.name = name ∧ register.width = width := by
    rw [designOf_regs h]
    simp [Register.decl]
  rw [hregs]
  constructor
  · rintro (hregister | ⟨i, hi, rfl, -⟩) hnoInput
    · exact hregister
    · obtain ⟨port, hport, rfl⟩ := List.mem_map.1 hi
      have hinput := (List.mem_filter.1 hport).2
      simp only [inputPort, Bool.and_eq_true, decide_eq_true_eq] at hinput
      rcases hnoInput with hclock | hreset
      · exact absurd hclock hinput.1.2
      · exact absurd hreset hinput.2
  · intro hregister
    by_cases hnoInput : name = domain.clockPort ∨ domain.reset.port = some name
    · exact Or.inl (hregister hnoInput)
    · rw [not_or] at hnoInput
      rcases regWidths_get? hsource with ⟨port, hport, hinput, rfl, rfl⟩ | hregister
      · refine Or.inr ⟨_, List.mem_map_of_mem (List.mem_filter.2 ⟨hport, ?_⟩), rfl, rfl⟩
        simp [inputPort, hinput, hnoInput.1, hnoInput.2]
      · exact Or.inl hregister

end ReadsAux

open ReadsAux in
/-- The check on reads that the gate of an imported design leaves out refuses a clock or a reset that is read as data, and nothing else:
a lowered module passes the whole gate exactly when every such read is of a register with that name. -/
theorem emitCheck_iff_clock_unread {m : Module} {lowered : LoweredModule} (h : m.lowerLocalDesign? = .ok lowered) :
    lowered.design.emitCheck = .ok () ↔
      ∀ root ∈ m.expressionRoots, ∀ site ∈ root.readSites.1, (site.1 = lowered.clockPort ∨ lowered.reset.port = some site.1) →
        ∃ register ∈ m.registers, register.name = site.1 ∧ register.width = site.2 := by
  obtain ⟨domain, parts, -, -, hreads, hparts, hgate, rfl⟩ := lowerLocalDesign?_eq_ok.1 h
  have hsource : ∀ root ∈ m.expressionRoots, (∀ site ∈ root.readSites.1, m.regWidths.get? site.1 = some site.2) ∧
      ∀ site ∈ root.readSites.2, m.memWidths.get? site.1 = some site.2 :=
    fun root hroot => (readsDeclaredB_iff root).1 (List.all_eq_true.1 hreads root hroot)
  have hmems : ∀ site ∈ (m.designOf domain parts).readSites.2,
      ∃ memory ∈ (m.designOf domain parts).mems, memory.name = site.1 ∧ memory.dataWidth = site.2 := by
    rw [designOf_reads hparts, designOf_mems hparts]
    intro site hsite
    obtain ⟨sites, hsites, hsite⟩ := List.mem_flatMap.1 hsite
    obtain ⟨root, hroot, rfl⟩ := List.mem_map.1 hsites
    obtain ⟨memory, hmemory, hdeclared⟩ := memWidths_get? ((hsource root hroot).2 site hsite)
    exact ⟨memory.decl, List.mem_map_of_mem hmemory, hdeclared⟩
  rw [ReadsAux.emitCheck_iff, and_iff_right hgate, readsOkB_iff, and_iff_left hmems, designOf_reads hparts]
  simp only [Sites.collect, List.flatMap_map, List.mem_flatMap]
  constructor
  · intro hdeclared root hroot site hsite
    exact (declared_iff hparts ((hsource root hroot).1 site hsite)).1 (hdeclared site ⟨root, hroot, hsite⟩)
  · rintro hdeclared site ⟨root, hroot, hsite⟩
    exact (declared_iff hparts ((hsource root hroot).1 site hsite)).2 (hdeclared root hroot site hsite)

/-- A module whose register samples its own clock. -/
def sampler : Module :=
  let source : SourceLocation := ⟨"sampler.v", 1, 1, 5, 10⟩
  { name := "sampler"
    ports := [⟨"clk", .input, 1, "bits", source⟩, ⟨"q", .output, 1, "bits", source⟩]
    domains := [⟨"clk", "clk", .rising, ⟨.resetless, none, true, none⟩, source⟩]
    registers := [⟨"last", 1, 0, .signal 1 "clk" source, none, source⟩]
    memories := []
    outputs := [⟨"q", 1, .signal 1 "last" source, source⟩]
    instances := []
    unsupported := []
    source := source }

/-- The sampler is lowered, and would not pass the whole gate. -/
theorem emitCheck_iff_clock_unread_sampler : ∃ lowered, sampler.lowerLocalDesign? = .ok lowered ∧ lowered.design.emitCheck ≠ .ok () := by
  have hclock : (sampler.lowerLocalDesign?.toOption.map LoweredModule.clockPort) = some "clk" := by decide +kernel
  cases hlowered : sampler.lowerLocalDesign? with
  | error message =>
    rw [hlowered] at hclock
    cases hclock
  | ok lowered =>
    rw [hlowered] at hclock
    refine ⟨lowered, rfl, fun hgate => ?_⟩
    obtain ⟨register, hregister, hname, -⟩ := (emitCheck_iff_clock_unread hlowered).1 hgate _ List.mem_cons_self ("clk", 1)
      List.mem_cons_self (Or.inl (Option.some.inj hclock).symm)
    rw [List.mem_singleton.1 hregister] at hname
    exact absurd hname (by decide)

end LoomImport
