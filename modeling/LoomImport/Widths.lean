import LoomImport.Blocking

/-!
# The width of a translation

The expression of a vector has the width of the vector, and that of a cell output the width of the output. This holds of every run,
whether or not anything is blocked.
-/

namespace LoomImport

open ImportIR StateOption

namespace WidthsAux

variable {src : SourceLocation} {sh : Shape}

/-! ## The builders -/

theorem width_sliceExpr (e : Expr) (offset width : Nat) : (sliceExpr e offset width src).width = width := by
  unfold sliceExpr
  split
  · rename_i h
    exact h.2
  · rfl

theorem width_resize (e : Expr) (width : Nat) (signed : Bool) : (resize e width signed src).width = width := by
  unfold resize
  split
  · assumption
  · split
    · split
      · rfl
      · rfl
    · exact width_sliceExpr e 0 width

theorem width_unaryCell (kind : UnaryKind) (e : Expr) : (unaryCell kind sh src e).width = sh.width := by
  cases kind with
  | not => rfl
  | neg => rfl
  | logicNot => exact width_resize _ _ _
  | reduceAnd => exact width_resize _ _ _
  | reduceOr => exact width_resize _ _ _
  | reduceBool => exact width_resize _ _ _

theorem width_binaryCell (kind : BinaryKind) (l r : Expr) : (binaryCell kind sh src l r).width = sh.width := by
  have resized : ∀ e signed, (resize e sh.width signed src).width = sh.width := fun e => width_resize e sh.width
  cases kind with
  | logicAnd => exact resized _ _
  | logicOr => exact resized _ _
  | sshr => exact resized _ _
  | shift => exact resized _ _
  | eq => exact resized _ _
  | ne => exact resized _ _
  | lt => exact resized _ _
  | gt => exact resized _ _
  | ge => exact resized _ _
  | le => exact resized _ _
  | and => rfl
  | or => rfl
  | xor => rfl
  | add => rfl
  | sub => rfl
  | mul => rfl
  | div => rfl
  | mod => rfl
  | shl => rfl
  | shr => rfl

/-- A concatenation of parts has the sum of their widths. -/
theorem width_concatParts {rest : List Expr} :
    ∀ first : Expr, (concatParts src first rest).width = first.width + (rest.map Expr.width).sum := by
  induction rest with
  | nil => exact fun first => rfl
  | cons part rest ih =>
    intro first
    have hnext : concatParts src first (part :: rest) =
        concatParts src (.concat (first.width + part.width) first part src) rest := rfl
    rw [hnext, ih, List.map_cons, List.sum_cons, ← Nat.add_assoc]
    rfl

theorem width_joinParts {es : List Expr} {e : Expr} (h : joinParts src es = some e) {width : Nat}
    (hes : ∀ part ∈ es, part.width = width) : e.width = es.length * width := by
  cases es with
  | nil => cases h
  | cons first rest =>
    cases h
    have hrest : rest.map Expr.width = List.replicate rest.length width :=
      List.map_eq_replicate_iff.2 fun part hpart => hes part (List.mem_cons_of_mem _ hpart)
    rw [width_concatParts, hes first List.mem_cons_self, hrest, List.sum_replicate_nat, List.length_cons, Nat.succ_mul,
      Nat.add_comm]

theorem width_constantExpr (Γ : Setting) (bits : List Bit) : (Γ.constantExpr bits src).width = bits.length := by
  unfold Setting.constantExpr
  split
  · split
    · rfl
    · rfl
  · rfl

theorem width_shiftxExpr (Γ : Setting) (cellName : String) (signed : Bool) {width : Nat} (hw : 0 < width) (value amount : Expr) :
    (Γ.shiftxExpr cellName signed width src value amount).width = width := by
  unfold Setting.shiftxExpr
  split
  · exact Nat.max_eq_left hw
  · split
    · rfl
    · exact Nat.max_eq_left hw

theorem width_vectorAlias {aliases : Dict (List Bit) String} {bits : List Bit} {e : Expr}
    (h : vectorAlias bits aliases src = some e) : e.width = bits.length := by
  unfold vectorAlias at h
  split at h
  · cases h
    rfl
  · split at h
    · obtain ⟨entry, -, hentry⟩ := List.exists_of_findSome?_eq_some h
      split at hentry
      · cases hentry
        exact width_sliceExpr _ _ 1
      · cases hentry
    · cases h

/-! ## Memories -/

/-- A word of an image is a literal. -/
theorem width_word {Γ : Setting} {info : MemoryInfo} (h : info.initExpr = Γ.constantExpr info.initBits info.source) (index : Nat) :
    (info.word index).width = info.width := by
  unfold MemoryInfo.word
  rw [h]
  unfold Setting.constantExpr
  split
  · split
    · rfl
    · rfl
  · rfl

theorem width_readWord {Γ : Setting} {info : MemoryInfo} (h : info.initExpr = Γ.constantExpr info.initBits info.source)
    (address : Expr) : (info.readWord address).width = info.width := by
  unfold MemoryInfo.readWord
  split
  · unfold MemoryInfo.romRead
    rcases List.eq_nil_or_concat (List.range' 1 (info.size - 1)) with hnil | ⟨before, last, hlast⟩
    · rw [hnil]
      exact width_word h 0
    · rw [hlast, List.concat_eq_append, List.foldl_append]
      rfl
  · rfl

end WidthsAux

open WidthsAux

section

variable {Γ : Ctx} {s₀ : State}

/-- The expression of a cell output has the width of the output, when the output has bits. -/
def OutputWidth (Γ : Ctx) (key : String × String) (e : Expr) : Prop :=
  ∀ cell, Γ.module.cells.get? key.1 = some cell → cell.connection key.2 ≠ [] → e.width = (cell.connection key.2).length

/-- The widths of the results of a run. -/
def widthSpec (hp : Prepared Γ.toSetting Γ s₀) : RunSpec Γ where
  Inv s := ∀ key e, s.cache.get? key = some e → OutputWidth Γ key e
  Vec bits _ e _ := bits ≠ [] → e.width = bits.length
  Out key e _ := OutputWidth Γ key e
  Res key cell e _ := cell.connection key.2 ≠ [] → Γ.module.cells.get? key.1 = some cell → e.width = (cell.connection key.2).length
  Port info _ e _ := ∀ name, Γ.memoryCells.get? name = some info → e.width = info.width
  vec_grows _ h := h
  port_grows _ h := h
  inv_record {s} hs r key e he := by
    rw [State.cache_record] at he
    exact hs key e he
  inv_enter hs _ := hs
  cached hs he := hs _ _ he
  cycle {s key cell} _ _ hcell cell' hcell' hne := by
    rw [hcell] at hcell'
    cases hcell'
    exact Nat.max_eq_left (List.length_pos_iff.2 hne)
  leave {s key rest cell e} hs _ _ hcell hres := by
    have hout : OutputWidth Γ key e := by
      intro cell' hcell' hne
      rw [hcell] at hcell'
      cases hcell'
      exact hres hne hcell
    refine ⟨fun key' e' he => ?_, hout⟩
    by_cases hk : key' = key
    · subst hk
      have heq : e = e' := by
        have hget : (s.cache.set key' e).get? key' = some e' := he
        rw [Dict.get?_set_self] at hget
        exact Option.some.inj hget
      exact heq ▸ hout
    · have he' : s.cache.get? key' = some e' := by
        rw [← Dict.get?_set_ne s.cache hk]
        exact he
      exact hs key' e' he'
  empty _ _ hne := absurd rfl hne
  constant _ _ _ _ := width_constantExpr Γ.toSetting _
  constantBlocked _ _ _ _ := width_constantExpr Γ.toSetting _
  named _ _ he _ := by
    rcases Option.or_eq_some_iff.1 he with he | ⟨-, he⟩
    · exact width_vectorAlias he
    · exact width_vectorAlias he
  output {s bits src key e} _ hr hout hne := by
    obtain ⟨cell, hcell, -, hbits⟩ := BlockingAux.exactDriver_eq (Ctx.route_of_eq hr).2
    rw [hout cell hcell (hbits ▸ hne), hbits]
  bit {s bits src driver e} _ hr _ _ := by
    obtain ⟨id, rfl, -⟩ := BlockingAux.bitDriver_eq (Ctx.route_of_eq hr)
    exact width_sliceExpr e driver.offset 1
  split {s bits src es e} _ _ hes he _ := by
    have hparts : ∀ part ∈ es, part.width = 1 := by
      intro part hpart
      obtain ⟨i, hi, rfl⟩ := List.getElem_of_mem hpart
      exact hes.get (hes.length_eq ▸ hi) hi (List.cons_ne_nil _ _)
    rw [width_joinParts he hparts, ← hes.length_eq, List.length_reverse, Nat.mul_one]
  register _ _ _ _ := rfl
  child _ _ hne _ := Nat.max_eq_left (List.length_pos_iff.2 hne)
  blocked _ _ hne _ := Nat.max_eq_left (List.length_pos_iff.2 hne)
  unary _ _ _ _ _ := width_unaryCell _ _
  binary _ _ _ _ _ _ := width_binaryCell _ _ _
  mux _ _ _ _ _ _ _ := rfl
  shiftx _ _ _ _ _ hne _ := width_shiftxExpr Γ.toSetting _ _ (List.length_pos_iff.2 hne) _ _
  shiftxBlocked _ _ _ _ _ hne _ := width_shiftxExpr Γ.toSetting _ _ (List.length_pos_iff.2 hne) _ _
  readInRange _ _ _ name hinfo := width_readWord (hp.memory hinfo).init_eq _
  readChecked _ _ _ _ _ _ := rfl
  readBlocked _ _ _ _ _ _ := rfl
  memory {s cellName port cell info es e} _ hc hes he hne hcell := by
    obtain ⟨-, hport, hinfo⟩ := Ctx.cellSource_of_eq hc
    have hparts : ∀ part ∈ es, part.width = info.width := by
      intro part hpart
      obtain ⟨i, hi, rfl⟩ := List.getElem_of_mem hpart
      exact hes.get (hes.length_eq ▸ hi) hi cellName hinfo
    have hget := (hp.memory hinfo).cell_eq
    rw [hcell] at hget
    rw [width_joinParts he hparts, ← hes.length_eq, List.length_reverse, List.length_range, hport, Option.some.inj hget]
    exact info.shape.readData_length.symm

end

end LoomImport
