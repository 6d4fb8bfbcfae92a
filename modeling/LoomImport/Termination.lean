import LoomImport.Blocking

/-!
# When a translation ends

The recursion of the translator is guarded by the set of cell outputs in progress: each nested cell output adds one, so the cell
outputs that are not in progress are a measure. A vector of several nets calls for single bits without entering a cell output, and
so does a single net that nothing drives, for itself, over and over. A translation ends exactly when no such net is called for.
-/

namespace LoomImport

open ImportIR StateOption

/-! ## Fuel -/

namespace TerminationAux

variable {Γ : Ctx} {f f' : List Bit → SourceLocation → M Expr}

theorem refines_memoryRead (h : ∀ bits src, Refines (f bits src) (f' bits src)) (info : MemoryInfo) (port : Nat) :
    Refines (memoryRead Γ.toSetting f info port) (memoryRead Γ.toSetting f' info port) := by
  unfold memoryRead memoryAddress
  exact ((h _ _).bind fun _ => Refines.refl _).bind fun _ => Refines.refl _

theorem refines_combResult (h : ∀ bits src, Refines (f bits src) (f' bits src)) (cellName : String) (cell : Cell)
    (kind : CombKind) (width : Nat) (src : SourceLocation) :
    Refines (combResult Γ.toSetting f cellName cell kind width src) (combResult Γ.toSetting f' cellName cell kind width src) := by
  unfold combResult
  cases kind with
  | unary kind => exact (h _ _).bind fun _ => Refines.refl _
  | binary kind => exact (h _ _).bind fun _ => (h _ _).bind fun _ => Refines.refl _
  | mux => exact (h _ _).bind fun _ => (h _ _).bind fun _ => (h _ _).bind fun _ => Refines.refl _
  | shiftx => exact (h _ _).bind fun _ => (h _ _).bind fun _ => Refines.refl _

theorem refines_cellResult (h : ∀ bits src, Refines (f bits src) (f' bits src)) (cellName : String) (cell : Cell)
    (port : String) : Refines (cellResult Γ f cellName cell port) (cellResult Γ f' cellName cell port) := by
  unfold cellResult
  cases Γ.cellSource cellName cell port with
  | register => exact Refines.refl _
  | child => exact Refines.refl _
  | memory info => exact (Refines.mapM _ fun readPort => refines_memoryRead h info readPort).bind fun _ => Refines.refl _
  | blocked kind detail => exact Refines.refl _
  | comb kind => exact refines_combResult h _ _ _ _ _

theorem refines_cellExprBody (h : ∀ bits src, Refines (f bits src) (f' bits src)) (cellName port : String) :
    Refines (cellExprBody Γ f cellName port) (cellExprBody Γ f' cellName port) := by
  unfold cellExprBody
  refine (Refines.refl _).bind fun s => ?_
  cases s.cache.get? (cellName, port) with
  | some result => exact Refines.refl _
  | none =>
    cases Γ.module.cells.get? cellName with
    | none => exact Refines.refl _
    | some cell =>
      by_cases hp : (cellName, port) ∈ s.inProgress
      · simp only [if_pos hp]
        exact Refines.refl _
      · simp only [if_neg hp]
        exact (Refines.refl _).bind fun _ => (refines_cellResult h _ _ _).bind fun _ => Refines.refl _

theorem refines_exprBody (h : ∀ bits src, Refines (f bits src) (f' bits src)) (bits : List Bit) (src : SourceLocation) :
    Refines (exprBody Γ f bits src) (exprBody Γ f' bits src) := by
  rw [exprBody_eq, exprBody_eq]
  cases Γ.route bits with
  | empty => exact Refines.refl _
  | constant => exact Refines.refl _
  | named => exact Refines.refl _
  | output key => exact refines_cellExprBody h _ _
  | bit driver => exact (refines_cellExprBody h _ _).bind fun _ => Refines.refl _
  | split => exact (Refines.mapM _ fun bit => h [bit] src).bind fun _ => Refines.refl _

end TerminationAux

open TerminationAux

/-- One more nested call changes no result. -/
theorem expr_succ (Γ : Ctx) (fuel : Nat) (bits : List Bit) (src : SourceLocation) :
    Refines (expr Γ fuel bits src) (expr Γ (fuel + 1) bits src) := by
  induction fuel generalizing bits src with
  | zero =>
    intro s r h
    cases h
  | succ fuel ih => exact refines_exprBody ih bits src

/-- More nested calls change no result. -/
theorem expr_mono (Γ : Ctx) {fuel fuel' : Nat} (h : fuel ≤ fuel') (bits : List Bit) (src : SourceLocation) :
    Refines (expr Γ fuel bits src) (expr Γ fuel' bits src) := by
  induction h with
  | refl => exact Refines.refl _
  | step _ ih => exact fun s r hr => expr_succ Γ _ bits src s r (ih s r hr)

/-- The result of a translation does not depend on how many nested calls it is allowed. -/
theorem expr_unique {Γ : Ctx} {fuel fuel' : Nat} {bits : List Bit} {src : SourceLocation} {s : State}
    {r r' : Expr × State} (h : expr Γ fuel bits src s = some r) (h' : expr Γ fuel' bits src s = some r') : r = r' := by
  rcases Nat.le_total fuel fuel' with hle | hle
  · exact Option.some.inj ((expr_mono Γ hle bits src s r h).symm.trans h')
  · exact Option.some.inj (h.symm.trans (expr_mono Γ hle bits src s r' h'))

/-! ## The measure -/

/-- The cell outputs of the module. -/
def Ctx.outputKeys (Γ : Ctx) : List (String × String) :=
  Γ.module.cells.entries.flatMap fun entry => entry.2.outputs.map fun port => (entry.1, port)

/-- How many cell outputs are not in progress. -/
def Ctx.pending (Γ : Ctx) (inProgress : List (String × String)) : Nat :=
  (Γ.outputKeys.filter fun key => !inProgress.contains key).length

namespace TerminationAux

variable {Γ : Ctx} {s₀ : State}

theorem mem_outputKeys {key : String × String} {cell : Cell} (hcell : Γ.module.cells.get? key.1 = some cell)
    (hport : key.2 ∈ cell.outputs) : key ∈ Γ.outputKeys :=
  List.mem_flatMap.2 ⟨(key.1, cell), Dict.mem_entries_of_get? hcell, List.mem_map.2 ⟨key.2, hport, rfl⟩⟩

/-- A cell output that a vector is taken from is one of the module. -/
theorem output_cell (hp : Prepared Γ.toSetting Γ s₀) {bits : List Bit} {key : String × String}
    (h : (Γ.route bits).output? = some key) : ∃ cell, Γ.module.cells.get? key.1 = some cell ∧ key.2 ∈ cell.outputs := by
  have hne : bits ≠ [] := by
    rintro rfl
    have hempty : Γ.route [] = .empty := rfl
    rw [hempty] at h
    cases h
  cases hr : Γ.route bits with
  | output key' =>
    rw [hr] at h
    cases h
    obtain ⟨cell, hcell, hport, -⟩ := BlockingAux.exactDriver_eq (Ctx.route_of_eq hr).2
    exact ⟨cell, hcell, hport⟩
  | bit driver =>
    obtain ⟨id, rfl, -⟩ := BlockingAux.bitDriver_eq (Ctx.route_of_eq hr)
    obtain ⟨cell, hcell, hport, -⟩ := drives_of_route hp h List.mem_cons_self
    exact ⟨cell, hcell, hport⟩
  | empty => rw [hr] at h; cases h
  | constant => rw [hr] at h; cases h
  | named => rw [hr] at h; cases h
  | split => rw [hr] at h; cases h

/-- Entering a cell output of the module leaves fewer. -/
theorem pending_cons {key : String × String} (hkey : key ∈ Γ.outputKeys) {inProgress : List (String × String)}
    (hnot : key ∉ inProgress) : Γ.pending (key :: inProgress) < Γ.pending inProgress := by
  have hfilter : (Γ.outputKeys.filter fun k => !(key :: inProgress).contains k) =
      (Γ.outputKeys.filter fun k => !inProgress.contains k).filter fun k => k ≠ key := by
    rw [List.filter_filter]
    refine List.filter_congr fun k _ => ?_
    by_cases hk : k = key <;> simp [hk]
  unfold Ctx.pending
  rw [hfilter, List.length_filter_lt_length_iff_exists]
  exact ⟨key, List.mem_filter.2 ⟨hkey, by simpa using hnot⟩, by simp⟩

/-- The state of a run that has some cell outputs in progress. -/
def InProgress (inProgress : List (String × String)) (s : State) : Prop := s.inProgress = inProgress

/-- The translation of some vectors ends, and leaves the cell outputs in progress. -/
def Ends (f : List Bit → SourceLocation → M Expr) (inProgress : List (String × String)) (bits : List Bit)
    (src : SourceLocation) : Prop :=
  ∀ s, InProgress inProgress s → wp (f bits src) (fun _ s' => InProgress inProgress s') s

variable {f : List Bit → SourceLocation → M Expr} {inProgress : List (String × String)} {s : State}

theorem ends_checked {ok : Bool} {r : UnsupportedRecord} {e : Expr} (hs : InProgress inProgress s) :
    wp (RunsAux.checked ok r e) (fun _ s' => InProgress inProgress s') s := by
  rw [RunsAux.wp_checked]
  cases ok with
  | true => exact hs
  | false => exact (State.inProgress_record s r).trans hs

theorem joinParts_isSome (src : SourceLocation) {es : List Expr} (h : 0 < es.length) : ∃ e, joinParts src es = some e := by
  cases es with
  | nil => exact absurd h (Nat.lt_irrefl 0)
  | cons e es => exact ⟨_, rfl⟩

/-- A read port of a memory, when its address ends. -/
theorem ends_memoryRead {info : MemoryInfo} {port : Nat}
    (hf : Ends f inProgress (portBits (info.cell.connection "RD_ADDR") port info.abits) info.source)
    (hs : InProgress inProgress s) :
    wp (memoryRead Γ.toSetting f info port) (fun _ s' => InProgress inProgress s') s := by
  unfold memoryRead memoryAddress
  simp only [wp_bind, Bool.false_eq_true, if_false]
  refine wp_mono (hf s hs) fun full s₁ hs₁ => ?_
  by_cases hw : info.abits = info.addressWidth
  · simp only [if_pos hw, wp_pure]
    exact hs₁
  · simp only [if_neg hw, wp_pure, wp_bind, RunsAux.memoryOobFill_eq]
    exact ends_checked hs₁

/-- A combinational cell, when its operands end. -/
theorem ends_combResult {cellName : String} {cell : Cell} {kind : CombKind} {width : Nat} {src : SourceLocation}
    (hf : ∀ port ∈ kind.operandPorts, Ends f inProgress (cell.connection port) src) (hs : InProgress inProgress s) :
    wp (combResult Γ.toSetting f cellName cell kind width src) (fun _ s' => InProgress inProgress s') s := by
  unfold combResult
  cases kind with
  | unary kind =>
    simp only [wp_bind, wp_pure]
    exact hf "A" (by simp [CombKind.operandPorts]) s hs
  | binary kind =>
    simp only [wp_bind, wp_pure]
    refine wp_mono (hf "A" (by simp [CombKind.operandPorts]) s hs) fun _ s₁ hs₁ => ?_
    exact hf "B" (by simp [CombKind.operandPorts]) s₁ hs₁
  | mux =>
    simp only [wp_bind, wp_pure]
    refine wp_mono (hf "B" (by simp [CombKind.operandPorts]) s hs) fun _ s₁ hs₁ => ?_
    refine wp_mono (hf "A" (by simp [CombKind.operandPorts]) s₁ hs₁) fun _ s₂ hs₂ => ?_
    exact hf "S" (by simp [CombKind.operandPorts]) s₂ hs₂
  | shiftx =>
    simp only [wp_bind, RunsAux.shiftxResult_eq]
    refine wp_mono (hf "A" (by simp [CombKind.operandPorts]) s hs) fun _ s₁ hs₁ => ?_
    refine wp_mono (hf "B" (by simp [CombKind.operandPorts]) s₁ hs₁) fun _ s₂ hs₂ => ?_
    exact ends_checked hs₂

/-- A cell output in progress, when its operands end. -/
theorem ends_cellResult {key : String × String} {cell : Cell} (hcell : Γ.module.cells.get? key.1 = some cell)
    (hf : ∀ operand ∈ Γ.operands key, Ends f inProgress operand.1 operand.2) (hs : InProgress inProgress s) :
    wp (cellResult Γ f key.1 cell key.2) (fun _ s' => InProgress inProgress s') s := by
  unfold cellResult
  cases hc : Γ.cellSource key.1 cell key.2 with
  | register => exact wp_pure.2 hs
  | child => exact wp_pure.2 hs
  | memory info =>
    rw [operands_memory hcell hc] at hf
    simp only [memoryResult, wp_bind]
    refine wp_mono (wp_mapM (I := InProgress inProgress) _ (fun readPort hport s₁ hs₁ => ?_) hs) ?_
    · exact ends_memoryRead (hf _ (List.mem_map.2 ⟨readPort, List.mem_reverse.1 hport, rfl⟩)) hs₁
    · rintro es s₁ ⟨hlen, hs₁⟩
      rw [List.length_reverse, List.length_range] at hlen
      obtain ⟨e, he⟩ := joinParts_isSome (Γ.sourceOf cell.src) (Nat.lt_of_lt_of_eq info.shape.readPorts_pos hlen.symm)
      exact wp_lift.2 ⟨e, he, hs₁⟩
  | blocked kind detail =>
    simp only [block, wp_bind, wp_modify, wp_pure]
    exact (State.inProgress_record s _).trans hs
  | comb kind =>
    rw [operands_comb hcell hc] at hf
    exact ends_combResult (fun port hport => hf _ (List.mem_map.2 ⟨port, hport, rfl⟩)) hs

/-- A cell output, when its operands end while it is in progress. -/
theorem ends_cellExprBody (key : String × String) {cell : Cell} (hcell : Γ.module.cells.get? key.1 = some cell)
    (hf : key ∉ inProgress → ∀ operand ∈ Γ.operands key, Ends f (key :: inProgress) operand.1 operand.2)
    (hs : InProgress inProgress s) : wp (cellExprBody Γ f key.1 key.2) (fun _ s' => InProgress inProgress s') s := by
  unfold cellExprBody
  rw [wp_bind, wp_get]
  cases s.cache.get? (key.1, key.2) with
  | some e => exact wp_pure.2 hs
  | none =>
    simp only [hcell]
    by_cases hp : (key.1, key.2) ∈ s.inProgress
    · simp only [if_pos hp, block, wp_bind, wp_modify, wp_pure]
      exact (State.inProgress_record s _).trans hs
    · simp only [if_neg hp, wp_bind, wp_modify, wp_pure]
      rw [hs] at hp
      refine wp_mono (ends_cellResult hcell (hf hp) (congrArg (key :: ·) hs)) fun e s₁ hs₁ => ?_
      show s₁.inProgress.erase key = inProgress
      rw [hs₁]
      exact List.erase_cons_head key inProgress

/-- A vector that is not split, when the operands of the cell output it is taken from end. -/
theorem ends_unsplit (hp : Prepared Γ.toSetting Γ s₀) {bits : List Bit} {src : SourceLocation} (hne : Γ.route bits ≠ .split)
    (hf : ∀ key, (Γ.route bits).output? = some key → key ∉ inProgress →
      ∀ operand ∈ Γ.operands key, Ends f (key :: inProgress) operand.1 operand.2) :
    Ends (exprBody Γ f) inProgress bits src := by
  intro s hs
  rw [exprBody_eq]
  cases hr : Γ.route bits with
  | empty =>
    simp only [block, wp_bind, wp_modify, wp_pure]
    exact (State.inProgress_record s _).trans hs
  | constant => exact ends_checked hs
  | named =>
    have hsome := RunsAux.aliasExpr_isSome Γ bits src
    rw [(Ctx.route_of_eq hr).2, Option.isSome_iff_exists] at hsome
    obtain ⟨e, he⟩ := hsome
    exact wp_lift.2 ⟨e, he, hs⟩
  | output key =>
    rw [hr] at hf
    obtain ⟨cell, hcell, -⟩ := output_cell hp (show (Γ.route bits).output? = some key by rw [hr]; rfl)
    exact ends_cellExprBody key hcell (hf key rfl) hs
  | bit driver =>
    rw [hr] at hf
    have hkey : (Γ.route bits).output? = some (driver.cellName, driver.port) := by rw [hr]; rfl
    obtain ⟨cell, hcell, -⟩ := output_cell hp hkey
    simp only [wp_bind, wp_pure]
    exact ends_cellExprBody (driver.cellName, driver.port) hcell (hf _ rfl) hs
  | split => exact absurd hr hne

/-- A vector that is split, when its bits end. -/
theorem ends_split {bits : List Bit} {src : SourceLocation} (hr : Γ.route bits = .split)
    (hf : ∀ bit ∈ bits, Ends f inProgress [bit] src) : Ends (exprBody Γ f) inProgress bits src := by
  intro s hs
  rw [exprBody_eq, hr]
  simp only [wp_bind]
  refine wp_mono (wp_mapM (I := InProgress inProgress) _ (fun bit hbit => hf bit (List.mem_reverse.1 hbit)) hs) ?_
  rintro es s₁ ⟨hlen, hs₁⟩
  rw [List.length_reverse] at hlen
  obtain ⟨e, he⟩ := joinParts_isSome src (Nat.lt_of_lt_of_eq (List.length_pos_iff.2 (Ctx.route_of_eq hr).1) hlen.symm)
  exact wp_lift.2 ⟨e, he, hs₁⟩

/-- A bit of a vector in whose cone nothing is undriven is not split further. -/
theorem route_bit {bit : Bit} {avoid : List (String × String)} (h : Γ.DrivenCone avoid [bit]) :
    Γ.route [bit] ≠ .split := by
  intro hr
  rcases bit with id | value
  · exact h.not_bad ⟨id, rfl, hr⟩
  · cases hr

/-- Two nested calls for each cell output that is not in progress, and two more, are enough. -/
theorem ends_of_drivenCone (hp : Prepared Γ.toSetting Γ s₀) (pending : Nat) :
    ∀ {inProgress : List (String × String)} {bits : List Bit} (src : SourceLocation) {fuel : Nat},
      Γ.pending inProgress ≤ pending → 2 * pending + 2 ≤ fuel → Γ.DrivenCone inProgress bits →
      Ends (expr Γ fuel) inProgress bits src := by
  induction pending using Nat.strong_induction_on with
  | _ pending ih =>
    -- a vector that is not split needs one call less
    have unsplit : ∀ {inProgress : List (String × String)} {bits : List Bit} (src : SourceLocation) {fuel : Nat},
        Γ.pending inProgress ≤ pending → 2 * pending ≤ fuel → Γ.DrivenCone inProgress bits → Γ.route bits ≠ .split →
        Ends (expr Γ (fuel + 1)) inProgress bits src := by
      intro inProgress bits src fuel hpending hfuel hcone hne
      refine ends_unsplit hp hne fun key hkey hnot operand hop => ?_
      obtain ⟨cell, hcell, hport⟩ := output_cell hp hkey
      have hless := pending_cons (mem_outputKeys hcell hport) hnot
      have hclear : Γ.DrivenCone inProgress operand.1 :=
        hcone.step ⟨some key, Ctx.Call.output hkey hop, fun k hk => by cases hk; exact hnot⟩
      exact ih (Γ.pending (key :: inProgress)) (by omega) operand.2 (Nat.le_refl _) (by omega)
        (hclear.mono (List.subset_cons_self _ _))
    intro inProgress bits src fuel hpending hfuel hcone
    obtain ⟨fuel, rfl⟩ : ∃ n, fuel = n + 2 := ⟨fuel - 2, by omega⟩
    by_cases hr : Γ.route bits = .split
    · refine ends_split hr fun bit hbit => ?_
      have hclear : Γ.DrivenCone inProgress [bit] :=
        hcone.step ⟨none, Ctx.Call.split hr hbit, fun k hk => nomatch hk⟩
      exact unsplit src hpending (by omega) hclear (route_bit hclear)
    · exact unsplit src hpending (by omega) hcone hr

end TerminationAux

/-! ## The result -/

variable {Γ : Setting} {s : State}

/-- The prepared state is done. -/
theorem start_cacheDone (Γ : Setting) : CacheDone Γ.ctx Γ.start Γ.start := by
  refine ⟨List.Subset.refl _, fun h => ?_⟩
  rw [(prepared Γ).cache, Dict.get?_empty] at h
  cases h

/-- Between two requests no cell output is in progress. -/
theorem Setting.Reachable.inProgress (h : Γ.Reachable s) : s.inProgress = [] := by
  induction h with
  | start => exact (prepared Γ).inProgress
  | expr hs hrun ih =>
    have hdone := hs.inv (examinedSpec (prepared_ctx Γ)) (start_cacheDone Γ)
    exact ((examinedSpec (prepared_ctx Γ)).run _ _ _ _ hdone _ _ hrun).2.1.inProgress.trans ih
  | record r _ ih => exact (State.inProgress_record _ r).trans ih

/-- A request gives an expression, with enough nested calls, and leaves a state. -/
def Setting.Returns (Γ : Setting) (s : State) (bits : List Bit) (src : SourceLocation) (e : Expr) (s' : State) : Prop :=
  ∃ fuel, expr Γ.ctx fuel bits src s = some (e, s')

/-- What a request from a reachable state has done once it returns. -/
theorem vectorDone_of_reachable (hs : Γ.Reachable s) {bits : List Bit} {src : SourceLocation} {e : Expr} {s' : State}
    (h : Γ.Returns s bits src e s') : s.Grows s' ∧ VectorDone Γ.ctx bits src s' := by
  obtain ⟨fuel, h⟩ := h
  have hdone := hs.inv (examinedSpec (prepared_ctx Γ)) (start_cacheDone Γ)
  exact ((examinedSpec (prepared_ctx Γ)).run fuel bits src s hdone e s' h).2

/-- A request from a reachable state returns exactly when nothing undriven is called for. -/
theorem returns_iff_drivenCone (hs : Γ.Reachable s) (bits : List Bit) (src : SourceLocation) :
    (∃ e s', Γ.Returns s bits src e s') ↔ Γ.ctx.DrivenCone [] bits := by
  constructor
  · rintro ⟨e, s', h⟩
    obtain ⟨hgrows, hcone, -⟩ := vectorDone_of_reachable hs h
    rw [hgrows.inProgress, hs.inProgress] at hcone
    exact hcone
  · intro hcone
    have hends := ends_of_drivenCone (prepared_ctx Γ) (Γ.ctx.pending []) src (Nat.le_refl _) (Nat.le_refl _) hcone
    have hsome := wp_true_iff.1 (wp_mono (hends s hs.inProgress) fun _ _ _ => trivial)
    obtain ⟨⟨e, s'⟩, h⟩ := Option.isSome_iff_exists.1 hsome
    exact ⟨e, s', _, h⟩

/-- A net that nothing drives calls for itself: no number of nested calls is enough. -/
theorem expr_undriven {Γ : Ctx} {bits : List Bit} (h : Γ.Undriven bits) (src : SourceLocation) (s : State) (fuel : Nat) :
    expr Γ fuel bits src s = none := by
  obtain ⟨id, rfl, hr⟩ := h
  induction fuel with
  | zero => rfl
  | succ fuel ih =>
    rw [expr, exprBody_eq, hr]
    simp only [List.reverse_singleton, List.mapM_cons, bind_apply, ih, Option.bind_none]

end LoomImport
