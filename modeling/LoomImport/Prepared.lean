import LoomImport.Prepare

/-!
# What preparation establishes

The index names the driver of every net a cell drives and of no other, every net that is driven twice is blocked, and an accepted
memory cell is a cell of the module with an image that is known, claimed by a rule, or blocked.
-/

namespace LoomImport

open ImportIR StateOption RunsAux

namespace Setting

/-- A net is driven a second time, by a cell with this `src`. -/
def DrivenAgain (Γ : Setting) (id : Nat) (src : String) : Prop :=
  ∃ before driver after, Γ.drivenBits = before ++ (.net id, driver, src) :: after ∧ ∃ d ∈ before, d.1 = .net id

/-- What is known of an accepted memory. -/
structure MemoryFacts (Γ : Setting) (name : String) (info : MemoryInfo) : Prop where
  cellName_eq : info.cellName = name
  cell_eq : Γ.module.cells.get? name = some info.cell
  type_eq : info.cell.type = "$mem_v2"
  source_eq : info.source = Γ.sourceOf info.cell.src
  init_const : info.initBits.all Bit.isConst = true
  init_eq : info.initExpr = Γ.constantExpr info.initBits info.source

end Setting

/-- What is known of a prepared module and of the state it leaves. -/
structure Prepared (Γ : Setting) (Δ : Ctx) (s : State) : Prop where
  setting : Δ.toSetting = Γ
  inputs : Δ.inputs = Γ.inputs
  registers : Δ.registers = Γ.registers
  driver_mem : ∀ {id driver}, Δ.drivers.get? id = some driver → ∃ src, (.net id, driver, src) ∈ Γ.drivenBits
  driver_isSome : ∀ {id driver src}, (Bit.net id, driver, src) ∈ Γ.drivenBits → (Δ.drivers.get? id).isSome
  again : ∀ {id src}, Γ.DrivenAgain id src → Γ.multipleDriversRecord id src ∈ s.unsupported
  memory : ∀ {name info}, Δ.memoryCells.get? name = some info → Γ.MemoryFacts name info
  image : ∀ {name info}, Δ.memoryCells.get? name = some info → Γ.constantOk info.initBits info.source = false →
    Γ.constantRecord info.initBits info.source ∈ s.unsupported
  cache : s.cache = Dict.empty
  inProgress : s.inProgress = []

namespace PreparedAux

variable {Γ : Setting}

/-- A later state of the preparation: nothing is translated, and no record is gone. -/
structure Later (s s' : State) : Prop where
  grows : s.Grows s'
  cache : s'.cache = s.cache

theorem Later.refl (s : State) : Later s s := ⟨State.Grows.refl s, rfl⟩

theorem Later.trans {s₁ s₂ s₃ : State} (h : Later s₁ s₂) (h' : Later s₂ s₃) : Later s₁ s₃ :=
  ⟨h.grows.trans h'.grows, h'.cache.trans h.cache⟩

theorem later_record (s : State) (r : UnsupportedRecord) : Later s (s.record r) :=
  ⟨State.grows_record s r, State.cache_record s r⟩

theorem wlp_block {kind detail : String} {source : SourceLocation} {metadata : Option RecordMetadata} {s₀ s : State}
    (h : Later s₀ s) : wlp (block kind detail source metadata) (fun _ s' => Later s₀ s') s := by
  unfold block
  rw [wlp_modify]
  exact h.trans (later_record s _)

theorem wlp_blockIf {condition : Bool} {kind detail : String} {source : SourceLocation} {s₀ s : State} (h : Later s₀ s) :
    wlp (blockIf condition kind detail source) (fun _ s' => Later s₀ s') s := by
  unfold blockIf
  cases condition
  · exact wlp_pure.2 h
  · exact wlp_block h

/-- What is known of the drivers once some bits are indexed. -/
structure Indexed (Γ : Setting) (s₀ : State) (done : List (Bit × Driver × String)) (drivers : Dict Nat Driver) (s : State) :
    Prop where
  driver_mem : ∀ {id driver}, drivers.get? id = some driver → ∃ src, (.net id, driver, src) ∈ done
  driver_isSome : ∀ {id driver src}, (Bit.net id, driver, src) ∈ done → (drivers.get? id).isSome
  again : ∀ {before id driver src after}, done = before ++ (Bit.net id, driver, src) :: after →
    (∃ d ∈ before, d.1 = .net id) → Γ.multipleDriversRecord id src ∈ s.unsupported
  later : Later s₀ s

/-- The last element of a list that ends in a given one: it is in the first part, or it is that one. -/
theorem append_singleton_eq {α : Type} {done before after : List α} {a b : α} (h : done ++ [a] = before ++ b :: after) :
    (∃ after', done = before ++ b :: after') ∨ (before = done ∧ b = a) := by
  rcases List.eq_nil_or_concat after with rfl | ⟨rest, c, rfl⟩
  · obtain ⟨h1, h2⟩ := List.append_inj' h rfl
    exact Or.inr ⟨h1.symm, (List.cons.inj h2).1.symm⟩
  · left
    rw [List.concat_eq_append, ← List.cons_append, ← List.append_assoc] at h
    exact ⟨rest, (List.append_inj' h rfl).1⟩

theorem wlp_indexBit {s₀ s : State} {done : List (Bit × Driver × String)} {drivers : Dict Nat Driver}
    (driven : Bit × Driver × String) (h : Indexed Γ s₀ done drivers s) :
    wlp (Γ.indexBit drivers driven) (Indexed Γ s₀ (done ++ [driven])) s := by
  obtain ⟨bit, driver, src⟩ := driven
  unfold Setting.indexBit
  rcases bit with id | c
  · -- the state after the possible record
    have key : ∀ s', Later s s' → ((drivers.get? id).isSome = true → Γ.multipleDriversRecord id src ∈ s'.unsupported) →
        Indexed Γ s₀ (done ++ [(.net id, driver, src)]) (drivers.set id driver) s' := by
      intro s' hl hrec
      refine ⟨?_, ?_, ?_, h.later.trans hl⟩
      · intro id' driver' hget
        by_cases hid : id' = id
        · subst hid
          rw [Dict.get?_set_self] at hget
          cases hget
          exact ⟨src, List.mem_append_right _ List.mem_cons_self⟩
        · rw [Dict.get?_set_ne _ hid] at hget
          obtain ⟨src', hm⟩ := h.driver_mem hget
          exact ⟨src', List.mem_append_left _ hm⟩
      · intro id' driver' src' hm
        by_cases hid : id' = id
        · subst hid
          rw [Dict.get?_set_self]
          rfl
        · rw [Dict.get?_set_ne _ hid]
          rcases List.mem_append.1 hm with hm | hm
          · exact h.driver_isSome hm
          · rw [List.mem_singleton] at hm
            cases hm
            exact absurd rfl hid
      · intro before id' driver' src' after heq hex
        rcases append_singleton_eq heq with ⟨after', hd⟩ | ⟨hb, he⟩
        · exact hl.grows.unsupported (h.again hd hex)
        · cases he
          obtain ⟨⟨b, d', s₂⟩, hm, hnet⟩ := hex
          simp only at hnet
          subst hnet
          exact hrec (h.driver_isSome (hb ▸ hm))
    simp only
    by_cases hd : (drivers.get? id).isSome = true
    · rw [if_pos hd, wlp_bind, wlp_modify, wlp_pure]
      exact key _ (later_record s _) fun _ => State.mem_record s _
    · rw [if_neg hd, wlp_pure]
      exact key _ (Later.refl s) fun hd' => absurd hd' hd
  · rw [wlp_pure]
    refine ⟨?_, ?_, ?_, h.later⟩
    · intro id driver' hget
      obtain ⟨src', hm⟩ := h.driver_mem hget
      exact ⟨src', List.mem_append_left _ hm⟩
    · intro id driver' src' hm
      rcases List.mem_append.1 hm with hm | hm
      · exact h.driver_isSome hm
      · rw [List.mem_singleton] at hm
        cases hm
    · intro before id driver' src' after heq hex
      rcases append_singleton_eq heq with ⟨after', hd⟩ | ⟨-, he⟩
      · exact h.again hd hex
      · cases he

theorem wlp_indexDrivers (s : State) : wlp Γ.indexDrivers (Indexed Γ s Γ.drivenBits) s := by
  refine wlp_foldlM (J := Indexed Γ s) (fun done driven rest drivers s' _ h => wlp_indexBit driven h) ?_
  refine ⟨?_, ?_, ?_, Later.refl s⟩
  · intro id driver h
    rw [Dict.get?_empty] at h
    cases h
  · intro id driver src h
    cases h
  · intro before id driver src after h
    cases before <;> cases h

theorem initBitsOf_const (cell : Cell) (width : Nat) : (initBitsOf cell width).all Bit.isConst = true := by
  unfold initBitsOf parameterBits
  rcases cell.parameters.get? "INIT" with _ | (n | text)
  · simp [Bit.isConst]
  · simp [Bit.isConst]
  · simp only
    split <;> simp [Bit.isConst]

/-- An accepted memory cell. -/
theorem wlp_prepareMemory {cellName : String} {cell : Cell} (hcell : Γ.module.cells.get? cellName = some cell) {s₀ s : State}
    (h : Later s₀ s) :
    wlp (Γ.prepareMemory cellName cell) (fun result s' => Later s₀ s' ∧ ∀ info, result = some info →
      Γ.MemoryFacts cellName info ∧ (Γ.constantOk info.initBits info.source = false →
        Γ.constantRecord info.initBits info.source ∈ s'.unsupported)) s := by
  have none_ok : ∀ {s' : State}, Later s₀ s' → Later s₀ s' ∧ ∀ info : MemoryInfo, (none : Option MemoryInfo) = some info →
      Γ.MemoryFacts cellName info ∧ (Γ.constantOk info.initBits info.source = false →
        Γ.constantRecord info.initBits info.source ∈ s'.unsupported) :=
    fun hl => ⟨hl, fun info hi => nomatch hi⟩
  unfold Setting.prepareMemory
  simp only
  split
  · rw [wlp_bind]
    exact wlp_mono (wlp_block h) fun _ _ hl => wlp_pure.2 (none_ok hl)
  · rename_i htype
    split
    · rw [wlp_bind]
      exact wlp_mono (wlp_block h) fun _ _ hl => wlp_pure.2 (none_ok hl)
    · rename_i shape _
      rw [wlp_bind]
      refine wlp_mono (wlp_forM (I := Later s₀) _ (fun _ _ _ hl => wlp_blockIf hl) h) fun _ s₁ h₁ => ?_
      rw [wlp_bind]
      refine wlp_mono (wlp_forM (I := Later s₀) _ (fun _ _ _ hl => ?_) h₁) fun _ s₂ h₂ => ?_
      · rw [wlp_bind]
        exact wlp_mono (wlp_blockIf hl) fun _ _ hl' => wlp_blockIf hl'
      rw [wlp_bind]
      refine wlp_mono (wlp_blockIf h₂) fun _ s₃ h₃ => ?_
      have hconst := initBitsOf_const cell (shape.size * shape.width)
      rw [wlp_bind, constant_eq Γ hconst, wlp_map, RunsAux.wlp_checked]
      have facts : ∀ s', Later s₀ s' →
          (Γ.constantOk (initBitsOf cell (shape.size * shape.width)) (Γ.sourceOf cell.src) = false →
            Γ.constantRecord (initBitsOf cell (shape.size * shape.width)) (Γ.sourceOf cell.src) ∈ s'.unsupported) →
          wlp (pure (some (α := MemoryInfo) {
            cellName := cellName
            source := Γ.sourceOf cell.src
            cell := cell
            shape := shape
            initBits := initBitsOf cell (shape.size * shape.width)
            initExpr := (some (Γ.constantExpr (initBitsOf cell (shape.size * shape.width)) (Γ.sourceOf cell.src))).getD
              (.literal (shape.size * shape.width) 0 (Γ.sourceOf cell.src))
            initBits_length := initBitsOf_length cell (shape.size * shape.width) }))
            (fun result s' => Later s₀ s' ∧ ∀ info, result = some info →
              Γ.MemoryFacts cellName info ∧ (Γ.constantOk info.initBits info.source = false →
                Γ.constantRecord info.initBits info.source ∈ s'.unsupported)) s' := by
        intro s' hl hrec
        rw [wlp_pure]
        refine ⟨hl, ?_⟩
        intro info hinfo
        cases hinfo
        exact ⟨⟨rfl, hcell, not_not.1 htype, rfl, hconst, rfl⟩, hrec⟩
      cases hok : Γ.constantOk (initBitsOf cell (shape.size * shape.width)) (Γ.sourceOf cell.src) with
      | true =>
        rw [if_pos rfl]
        exact facts s₃ h₃ fun hno => absurd (hok.symm.trans hno) (by decide)
      | false =>
        rw [if_neg Bool.false_ne_true]
        exact facts _ (h₃.trans (later_record _ _)) fun _ => State.mem_record _ _

/-- What is known of the memories once some cells are prepared. -/
structure Accepted (Γ : Setting) (s₀ : State) (infos : Dict String MemoryInfo) (s : State) : Prop where
  memory : ∀ {name info}, infos.get? name = some info → Γ.MemoryFacts name info
  image : ∀ {name info}, infos.get? name = some info → Γ.constantOk info.initBits info.source = false →
    Γ.constantRecord info.initBits info.source ∈ s.unsupported
  later : Later s₀ s

theorem wlp_prepareMemories (s : State) : wlp Γ.prepareMemories (Accepted Γ s) s := by
  refine wlp_foldlM (J := fun _ => Accepted Γ s) ?_ ?_
  · intro done entry rest infos s' hl h
    have hmem : entry ∈ Γ.memoryEntries := hl ▸ List.mem_append_right _ List.mem_cons_self
    have hcell : Γ.module.cells.get? entry.1 = some entry.2 := Dict.get?_of_mem (List.mem_of_mem_filter hmem)
    rw [wlp_bind]
    refine wlp_mono (wlp_prepareMemory hcell (Later.refl s')) ?_
    rintro result s₁ ⟨hl₁, hinfo⟩
    cases result with
    | none =>
      rw [wlp_pure]
      exact ⟨h.memory, fun hget hno => hl₁.grows.unsupported (h.image hget hno), h.later.trans hl₁⟩
    | some info =>
      obtain ⟨hfacts, himage⟩ := hinfo info rfl
      rw [wlp_pure]
      refine ⟨?_, ?_, h.later.trans hl₁⟩
      · intro name info' hget
        by_cases hname : name = entry.1
        · subst hname
          rw [Dict.get?_set_self] at hget
          cases hget
          exact hfacts
        · rw [Dict.get?_set_ne _ hname] at hget
          exact h.memory hget
      · intro name info' hget hno
        by_cases hname : name = entry.1
        · subst hname
          rw [Dict.get?_set_self] at hget
          cases hget
          exact himage hno
        · rw [Dict.get?_set_ne _ hname] at hget
          exact hl₁.grows.unsupported (h.image hget hno)
  · refine ⟨?_, ?_, Later.refl s⟩
    · intro name info h
      rw [Dict.get?_empty] at h
      cases h
    · intro name info h
      rw [Dict.get?_empty] at h
      cases h

end PreparedAux

open PreparedAux

/-- What preparation establishes. -/
theorem prepared (Γ : Setting) : Prepared Γ Γ.ctx Γ.start := by
  have key : wlp Γ.prepare (fun Δ s => Prepared Γ Δ s) State.initial := by
    unfold Setting.prepare
    rw [wlp_bind]
    refine wlp_mono (wlp_indexDrivers State.initial) fun drivers s₁ h₁ => ?_
    rw [wlp_bind]
    have hblock : wlp Γ.blockAsynchronous (fun _ s' => Later s₁ s') s₁ := by
      unfold Setting.blockAsynchronous
      simp only
      split
      · exact wlp_pure.2 (Later.refl s₁)
      · exact wlp_block (Later.refl s₁)
    refine wlp_mono hblock fun _ s₂ h₂ => ?_
    rw [wlp_bind]
    refine wlp_mono (wlp_prepareMemories s₂) fun memoryCells s₃ h₃ => ?_
    rw [wlp_pure]
    have hlater := (h₁.later.trans h₂).trans h₃.later
    refine ⟨rfl, rfl, rfl, h₁.driver_mem, h₁.driver_isSome, ?_, h₃.memory, h₃.image, hlater.cache,
      hlater.grows.inProgress⟩
    rintro id src ⟨before, driver, after, heq, hex⟩
    exact (h₂.trans h₃.later).grows.unsupported (h₁.again heq hex)
  exact key Γ.ctx Γ.start (Setting.prepare_eq Γ)

@[simp] theorem ctx_toSetting (Γ : Setting) : Γ.ctx.toSetting = Γ := (prepared Γ).setting

/-- What preparation establishes, of the context it prepares. -/
theorem prepared_ctx (Γ : Setting) : Prepared Γ.ctx.toSetting Γ.ctx Γ.start := by
  rw [ctx_toSetting]
  exact prepared Γ

namespace Setting.Reachable

variable {Γ : Setting} {s : State}

/-- A property of runs that the prepared state has, every reachable state has. -/
theorem inv (R : RunSpec Γ.ctx) (hstart : R.Inv Γ.start) (h : Γ.Reachable s) : R.Inv s := by
  induction h with
  | start => exact hstart
  | expr _ hrun ih => exact (R.run _ _ _ _ ih _ _ hrun).1
  | record r _ ih => exact R.inv_record ih r

end Setting.Reachable

end LoomImport
