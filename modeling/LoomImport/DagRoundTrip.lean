import LoomImport.ImportJson
import LoomImport.DagEncoding
import LoomImport.Denotes

/-!
# Shared expression tables lose nothing

A document whose expressions are trees, and the same document with a table of the nodes they share, are parsed to the same module;
and a table in which a node refers to itself or to a later one is refused.
-/

namespace LoomImport

open ImportIR ImportJson StateOption DenotesAux

/-- An operand of a node of a table is a reference to this entry. -/
def RefersTo (node : Json) (reference : Nat) : Prop :=
  ∃ kind name, stringField node "kind" = .ok kind ∧ name ∈ operandNames kind ∧ natField node name = .ok reference

namespace DagAux

/-! ## What a parser reads -/

theorem child_val (json : Json) (name : String) : Subtype.val <$> child json name = json.getObjVal? name := by
  unfold child
  split
  · rename_i value hvalue
    exact hvalue.symm
  · rename_i message hmessage
    exact hmessage.symm

theorem parseExpr_eq (json : Json) : parseExpr json = parseNode (exprField json) json := by
  have hchild : (fun name => child json name >>= fun value => parseExpr value.1) = exprField json := by
    funext name
    unfold exprField field
    rw [← child_val, bind_map_left]
  rw [parseExpr, hchild]

theorem kind_notMem (kind : String) : "kind" ∉ operandNames kind ∧ "width" ∉ operandNames kind ∧ "source" ∉ operandNames kind := by
  unfold operandNames
  split <;> decide

theorem operandNames_nodup (kind : String) : (operandNames kind).Nodup := by
  unfold operandNames
  split <;> decide

/-- A node is its kind, the fields that hold no operands, and its operands. -/
theorem parseNode_congr {json json' : Json} {operand operand' : String → Except String Expr} {kind : String}
    (hkind : stringField json "kind" = .ok kind)
    (hfields : ∀ name, name ∉ operandNames kind → field json' name = field json name)
    (hoperands : ∀ name ∈ operandNames kind, operand' name = operand name) :
    parseNode operand' json' = parseNode operand json := by
  obtain ⟨hk, hw, hs⟩ := kind_notMem kind
  unfold parseNode sourceField
  simp only [stringField, natField] at hkind ⊢
  rw [hfields _ hk, hfields _ hw, hfields _ hs, hkind, ok_bind, ok_bind]
  refine bind_congr fun width => bind_congr fun source => ?_
  split
  · rw [hfields "value" (by decide)]
  · rw [hfields "partial" (by decide)]
  · rw [hfields "name" (by decide)]
  · rw [hfields "op" (by decide), hoperands "value" (by decide)]
  · rw [hfields "op" (by decide), hoperands "left" (by decide), hoperands "right" (by decide)]
  · rw [hoperands "condition" (by decide), hoperands "yes" (by decide), hoperands "no" (by decide)]
  · rw [hfields "offset" (by decide), hoperands "value" (by decide)]
  · rw [hoperands "value" (by decide)]
  · rw [hoperands "value" (by decide)]
  · rw [hoperands "high" (by decide), hoperands "low" (by decide)]
  · rw [hfields "memory" (by decide), hoperands "address" (by decide)]
  · rfl

/-- A node that is parsed has a kind, and its operands are parsed. -/
theorem parseNode_eq_ok {json : Json} {operand : String → Except String Expr} {e : Expr} (h : parseNode operand json = .ok e) :
    ∃ kind, stringField json "kind" = .ok kind ∧ kind ∈ expressionKinds ∧ ∀ name ∈ operandNames kind, ∃ e', operand name = .ok e' := by
  obtain ⟨kind, hkind, h⟩ := bind_eq_ok h
  obtain ⟨width, -, h⟩ := bind_eq_ok h
  obtain ⟨source, -, h⟩ := bind_eq_ok h
  refine ⟨kind, hkind, ?_⟩
  split at h
  · exact ⟨by decide, fun name hname => nomatch hname⟩
  · exact ⟨by decide, fun name hname => nomatch hname⟩
  · exact ⟨by decide, fun name hname => nomatch hname⟩
  · obtain ⟨_, -, h⟩ := bind_eq_ok h
    obtain ⟨value, hvalue, -⟩ := bind_eq_ok h
    exact ⟨by decide, List.forall_mem_singleton.2 ⟨value, hvalue⟩⟩
  · obtain ⟨_, -, h⟩ := bind_eq_ok h
    obtain ⟨left, hleft, h⟩ := bind_eq_ok h
    obtain ⟨right, hright, -⟩ := bind_eq_ok h
    exact ⟨by decide, List.forall_mem_cons.2 ⟨⟨left, hleft⟩, List.forall_mem_singleton.2 ⟨right, hright⟩⟩⟩
  · obtain ⟨condition, hcondition, h⟩ := bind_eq_ok h
    obtain ⟨yes, hyes, h⟩ := bind_eq_ok h
    obtain ⟨no, hno, -⟩ := bind_eq_ok h
    exact ⟨by decide, List.forall_mem_cons.2 ⟨⟨condition, hcondition⟩,
      List.forall_mem_cons.2 ⟨⟨yes, hyes⟩, List.forall_mem_singleton.2 ⟨no, hno⟩⟩⟩⟩
  · obtain ⟨value, hvalue, -⟩ := bind_eq_ok h
    exact ⟨by decide, List.forall_mem_singleton.2 ⟨value, hvalue⟩⟩
  · obtain ⟨value, hvalue, -⟩ := bind_eq_ok h
    exact ⟨by decide, List.forall_mem_singleton.2 ⟨value, hvalue⟩⟩
  · obtain ⟨value, hvalue, -⟩ := bind_eq_ok h
    exact ⟨by decide, List.forall_mem_singleton.2 ⟨value, hvalue⟩⟩
  · obtain ⟨high, hhigh, h⟩ := bind_eq_ok h
    obtain ⟨low, hlow, -⟩ := bind_eq_ok h
    exact ⟨by decide, List.forall_mem_cons.2 ⟨⟨high, hhigh⟩, List.forall_mem_singleton.2 ⟨low, hlow⟩⟩⟩
  · obtain ⟨_, -, h⟩ := bind_eq_ok h
    obtain ⟨address, haddress, -⟩ := bind_eq_ok h
    exact ⟨by decide, List.forall_mem_singleton.2 ⟨address, haddress⟩⟩
  · cases h

/-! ## Documents as JSON -/

theorem field_toJson {value : PyValue} {name : String} {json : Json} :
    field value.toJson name = .ok json ↔ ∃ v, value.get? name = some v ∧ v.toJson = json := by
  cases value with
  | dict identity entries =>
    simp only [PyValue.toJson_dict, field, Json.getObjVal?, Dict.lookup_map, PyValue.get?]
    cases entries.lookup name with
    | none => simp
    | some v => simp
  | _ => simp [field, PyValue.toJson, Json.getObjVal?, PyValue.get?]

theorem stringField_toJson {value : PyValue} {name text : String} (h : stringField value.toJson name = .ok text) :
    value.get? name = some (.str text) := by
  obtain ⟨json, hjson, htext⟩ := bind_eq_ok h
  obtain ⟨v, hv, rfl⟩ := field_toJson.1 hjson
  cases v with
  | str text' =>
    simp only [PyValue.toJson, Json.getStr?] at htext
    cases htext
    exact hv
  | list items => simp [Json.getStr?] at htext
  | dict identity entries => simp [Json.getStr?] at htext
  | _ => simp [PyValue.toJson, Json.getStr?] at htext

theorem exprField_toJson {value : PyValue} {name : String} {e : Expr} (h : exprField value.toJson name = .ok e) :
    ∃ v, value.get? name = some v ∧ parseExpr v.toJson = .ok e := by
  obtain ⟨json, hjson, he⟩ := bind_eq_ok h
  obtain ⟨v, hv, rfl⟩ := field_toJson.1 hjson
  exact ⟨v, hv, he⟩

theorem child?_val (value : PyValue) (name : String) : Subtype.val <$> value.child? name = value.get? name := by
  cases value with
  | dict identity entries =>
    simp only [PyValue.child?, PyValue.get?]
    split
    · rename_i v hv
      exact hv.symm
    · rename_i hv
      exact hv.symm
  | _ => rfl

theorem sizeOf_get? {value v : PyValue} {name : String} (h : value.get? name = some v) : sizeOf v < sizeOf value := by
  rw [← child?_val] at h
  obtain ⟨field, -, rfl⟩ := Option.map_eq_some_iff.1 h
  exact field.2

theorem within_get? {value v : PyValue} {name : String} (h : value.get? name = some v) : PyValue.Within v value := by
  cases value with
  | dict identity entries => exact PyValue.Within.entry h (PyValue.Within.refl v)
  | _ => cases h

/-! ## References -/

theorem lookup_setRefs_of_notMem {name : String} {refs : List (String × Nat)} (h : name ∉ refs.map Prod.fst)
    (entries : List (String × Json)) : (setRefs entries refs).lookup name = entries.lookup name := by
  unfold setRefs
  induction refs generalizing entries with
  | nil => rfl
  | cons ref refs ih =>
    rw [List.map_cons, List.mem_cons, not_or] at h
    rw [List.foldl_cons, ih h.2, Dict.lookup_setEntries_ne h.1]

theorem lookup_setRefs_of_mem {name : String} {id : Nat} {refs : List (String × Nat)} (hnodup : (refs.map Prod.fst).Nodup)
    (h : (name, id) ∈ refs) (entries : List (String × Json)) : (setRefs entries refs).lookup name = some (.num id) := by
  unfold setRefs
  induction refs generalizing entries with
  | nil => cases h
  | cons ref refs ih =>
    rw [List.map_cons, List.nodup_cons] at hnodup
    rw [List.foldl_cons]
    rcases List.mem_cons.1 h with rfl | h
    · have hkeep := lookup_setRefs_of_notMem hnodup.1 (Dict.setEntries name (.num id) entries)
      unfold setRefs at hkeep
      rw [hkeep, Dict.lookup_setEntries_self]
    · exact ih hnodup.2 h _

theorem field_obj (entries : List (String × Json)) (name : String) {value : Json} (h : entries.lookup name = some value) :
    field (.obj entries) name = .ok value := by
  simp only [field, Json.getObjVal?, h]

theorem field_obj_congr {entries entries' : List (String × Json)} {name : String} (h : entries'.lookup name = entries.lookup name) :
    field (.obj entries') name = field (.obj entries) name := by
  simp only [field, Json.getObjVal?, h]

/-- A reference to a node that is known. -/
theorem expressionRef_ok {known : List Expr} {json : Json} {name : String} {id : Nat} {e : Expr}
    (h : field json name = .ok (.num id)) (hknown : known[id]? = some e) : expressionRef known json name = .ok e := by
  have hid : natField json name = .ok id := by
    unfold natField
    rw [h]
    rfl
  unfold expressionRef
  rw [hid, ok_bind, hknown]
  rfl

/-! ## Tables -/

/-- A table grows. -/
def Grows (s s' : ExprTable) : Prop := s.expressions <+: s'.expressions

/-- Something holds of the nodes of a table from here on. -/
def Settled (Q : List Expr → Prop) (s : ExprTable) : Prop :=
  ∀ s', Grows s s' → ∀ known, parseExprTable s'.expressions = .ok known → Q known

theorem Settled.grows {Q : List Expr → Prop} {s s' : ExprTable} (h : Grows s s') (hs : Settled Q s) : Settled Q s' :=
  fun s'' h' => hs s'' (List.IsPrefix.trans h h')

theorem Settled.mono {Q R : List Expr → Prop} {s : ExprTable} (hs : Settled Q s) (h : ∀ known, Q known → R known) : Settled R s :=
  fun s' hg known hknown => h known (hs s' hg known hknown)

theorem Settled.and {Q R : List Expr → Prop} {s : ExprTable} (hq : Settled Q s) (hr : Settled R s) :
    Settled (fun known => Q known ∧ R known) s :=
  fun s' hg known hknown => ⟨hq s' hg known hknown, hr s' hg known hknown⟩

/-- A reference to a node that is there stays one. -/
theorem settled_node {s : ExprTable} {known : List Expr} (h : parseExprTable s.expressions = .ok known) {id : Nat} {e : Expr}
    (hid : known[id]? = some e) : Settled (fun known => known[id]? = some e) s := by
  rintro s' ⟨more, hmore⟩ known' hknown'
  unfold parseExprTable at h hknown'
  rw [← hmore, Tables.build_append h] at hknown'
  obtain ⟨rest, hrest⟩ := Tables.build_prefix hknown'
  have hlt := (List.getElem?_eq_some_iff.1 hid).1
  rw [← hrest, List.getElem?_append_left hlt]
  exact hid

/-- What is known of the table while a document is encoded: it can be read, and the index of an expression is that of its value. -/
structure TableInv (document : PyValue) (s : ExprTable) : Prop where
  readable : ∃ known, parseExprTable s.expressions = .ok known
  ids : ∀ {identity id}, s.ids.get? identity = some id → ∀ entries e, PyValue.Within (.dict identity entries) document →
    parseExpr (PyValue.dict identity entries).toJson = .ok e → Settled (fun known => known[id]? = some e) s

theorem Grows.refl (s : ExprTable) : Grows s s := List.prefix_refl _

/-- A kind of a document is one of those that are interned. -/
theorem kind?_eq {value : PyValue} {kind : String} (h : stringField value.toJson "kind" = .ok kind) (hk : kind ∈ expressionKinds) :
    value.kind? = some kind := by
  unfold PyValue.kind?
  rw [stringField_toJson h]
  exact if_pos hk

/-- The equation of an expression. -/
theorem intern_dict (identity : Nat) (entries : List (String × PyValue)) :
    intern (.dict identity entries) = (do
      match (← get).ids.get? identity with
      | some id => pure id
      | none => do
        let kind ← StateT.lift (PyValue.dict identity entries).kind?
        let refs ← (operandNames kind).mapM fun name => do
          let operand ← StateT.lift ((PyValue.dict identity entries).get? name)
          let id ← intern operand
          pure (name, id)
        let table ← get
        set (table.push identity (.obj (setRefs (entries.map fun entry => (entry.1, entry.2.toJson)) refs)))
        pure table.expressions.length) := by
  have hoperand : ∀ name, (do
      let operand ← StateT.lift ((PyValue.dict identity entries).child? name)
      let id ← intern operand.1
      pure (name, id) : Encoder (String × Nat)) = (do
      let operand ← StateT.lift ((PyValue.dict identity entries).get? name)
      let id ← intern operand
      pure (name, id)) := by
    intro name
    rw [← child?_val]
    cases (PyValue.dict identity entries).child? name <;> rfl
  rw [intern]
  refine bind_congr fun table => ?_
  cases table.ids.get? identity with
  | some id => rfl
  | none => simp only [hoperand]

/-- Every operand of a node, interned, is a reference to its value. -/
def RefEncodes (value : PyValue) (name : String) (ref : String × Nat) (s : ExprTable) : Prop :=
  ref.1 = name ∧ ∃ e, exprField value.toJson name = .ok e ∧ Settled (fun known => known[ref.2]? = some e) s

theorem RefEncodes.grows {value : PyValue} {name : String} {ref : String × Nat} {s s' : ExprTable} (hg : Grows s s')
    (h : RefEncodes value name ref s) : RefEncodes value name ref s' := by
  obtain ⟨hname, e, he, hs⟩ := h
  exact ⟨hname, e, he, hs.grows hg⟩

/-- A dictionary with references in place of some fields: the other fields are the same, and the references lead to the values. -/
theorem setRefs_spec {identity : Nat} {entries : List (String × PyValue)} {names : List String} (hnodup : names.Nodup)
    {refs : List (String × Nat)} {s : ExprTable}
    (h : List.Forall₂ (fun name ref => RefEncodes (.dict identity entries) name ref s) names refs) :
    (∀ name, name ∉ names → field (.obj (setRefs (entries.map fun entry => (entry.1, entry.2.toJson)) refs)) name =
        field (PyValue.dict identity entries).toJson name) ∧
      Settled (fun known => ∀ name ∈ names,
        expressionRef known (.obj (setRefs (entries.map fun entry => (entry.1, entry.2.toJson)) refs)) name =
          exprField (PyValue.dict identity entries).toJson name) s := by
  have hnames : refs.map Prod.fst = names := by
    clear hnodup
    induction h with
    | nil => rfl
    | cons href _ ih => rw [List.map_cons, ih, href.1]
  constructor
  · intro name hname
    rw [PyValue.toJson_dict]
    exact field_obj_congr (lookup_setRefs_of_notMem (hnames ▸ hname) _)
  · intro s' hg known hknown name hname
    obtain ⟨⟨name', id⟩, hmem, hname', e, he, hsettled⟩ := exists_of_forall₂ h hname
    cases hname'
    rw [he]
    exact expressionRef_ok (field_obj _ _ (lookup_setRefs_of_mem (hnames ▸ hnodup) hmem _)) (hsettled s' hg known hknown)

/-- A new node. -/
theorem inv_push {document : PyValue} (hdoc : document.Coherent) {s : ExprTable} (hs : TableInv document s) {identity : Nat}
    {entries : List (String × PyValue)} (hw : PyValue.Within (.dict identity entries) document) {e : Expr}
    (he : parseExpr (PyValue.dict identity entries).toJson = .ok e) {node : Json}
    (hnode : Settled (fun known => parseExprNode known node = .ok e) s) :
    TableInv document (s.push identity node) ∧ Grows s (s.push identity node) ∧
      Settled (fun known => known[s.expressions.length]? = some e) (s.push identity node) := by
  obtain ⟨known, hknown⟩ := hs.readable
  have hgrows : Grows s (s.push identity node) := List.prefix_append _ _
  have hread : parseExprTable (s.push identity node).expressions = .ok (known ++ [e]) :=
    Tables.build_snoc hknown (hnode s (Grows.refl s) known hknown)
  have hlength : known.length = s.expressions.length := by
    have hlen := Tables.build_length hknown
    simpa using hlen
  have hnew : Settled (fun known => known[s.expressions.length]? = some e) (s.push identity node) :=
    settled_node hread (by rw [← hlength]; simp)
  refine ⟨⟨⟨_, hread⟩, ?_⟩, hgrows, hnew⟩
  intro identity' id hget entries' e' hw' he'
  by_cases hsame : identity' = identity
  · subst hsame
    have hid : s.expressions.length = id := by
      have hself : (s.ids.set identity' s.expressions.length).get? identity' = some id := hget
      rw [Dict.get?_set_self] at hself
      exact Option.some.inj hself
    have hentries := hdoc identity' entries entries' hw hw'
    subst hentries
    rw [he] at he'
    cases he'
    exact hid ▸ hnew
  · have hold : s.ids.get? identity' = some id := by
      rw [← Dict.get?_set_ne s.ids hsame]
      exact hget
    exact (hs.ids hold entries' e' hw' he').grows hgrows

/-- An interned expression is a reference to its value. -/
theorem intern_spec {document : PyValue} (hdoc : document.Coherent) (expression : PyValue)
    (hw : PyValue.Within expression document) {e : Expr} (he : parseExpr expression.toJson = .ok e) {s : ExprTable}
    (hs : TableInv document s) :
    wp (intern expression)
      (fun id s' => TableInv document s' ∧ Grows s s' ∧ Settled (fun known => known[id]? = some e) s') s := by
  induction hsize : sizeOf expression using Nat.strong_induction_on generalizing expression e s with
  | _ n ih =>
    subst hsize
    have hparse := he
    rw [parseExpr_eq] at hparse
    obtain ⟨kind, hkind, hmem, hoperands⟩ := parseNode_eq_ok hparse
    cases expression with
    | dict identity entries =>
      rw [intern_dict, wp_bind, wp_get]
      cases hget : s.ids.get? identity with
      | some id =>
        simp only
        rw [wp_pure]
        exact ⟨hs, Grows.refl s, hs.ids hget entries e hw he⟩
      | none =>
        simp only [wp_bind, wp_lift, wp_get, wp_set, wp_pure]
        refine ⟨kind, kind?_eq hkind hmem, ?_⟩
        refine wp_mono (wp_mapM_forall₂ (I := TableInv document) (G := Grows)
          (P := fun name ref s => RefEncodes (.dict identity entries) name ref s) Grows.refl
          (fun h h' => List.IsPrefix.trans h h') (fun hg h => h.grows hg) (operandNames kind) ?_ hs) ?_
        · intro name hname s₁ hs₁
          obtain ⟨e', he'⟩ := hoperands name hname
          obtain ⟨operand, hoperand, hvalue⟩ := exprField_toJson he'
          have hwithin := (within_get? hoperand).trans hw
          have hrec := ih _ (sizeOf_get? hoperand) operand hwithin hvalue hs₁ rfl
          simp only [wp_bind, wp_lift, wp_pure]
          refine ⟨operand, hoperand, wp_mono hrec ?_⟩
          rintro id s₂ ⟨hs₂, hg, hsettled⟩
          exact ⟨hs₂, hg, rfl, e', he', hsettled⟩
        · rintro refs s₁ ⟨hs₁, hg, hrefs⟩
          obtain ⟨hfields, hreferences⟩ := setRefs_spec (operandNames_nodup kind) hrefs
          obtain ⟨hs₂, hg', hsettled⟩ := inv_push hdoc hs₁ hw he (hreferences.mono fun known hr => by
            unfold parseExprNode
            rw [parseNode_congr hkind hfields hr]
            exact hparse)
          exact ⟨hs₂, hg.trans hg', hsettled⟩
    | _ => exact absurd (stringField_toJson hkind) (by simp [PyValue.get?])

/-! ## Parts of a module -/

section Parts

variable {document : PyValue} {α : Type}

/-- A parser reads some fields as expressions, and no more of them. -/
structure Reads (parse : (Json → String → Except String Expr) → Json → Except String α) (names : List String) : Prop where
  nodup : names.Nodup
  congr : ∀ {expression expression' : Json → String → Except String Expr} {json json' : Json},
    (∀ name, name ∉ names → field json' name = field json name) →
    (∀ name ∈ names, expression' json' name = expression json name) → parse expression' json' = parse expression json
  ok : ∀ {expression : Json → String → Except String Expr} {json : Json} {a : α}, parse expression json = .ok a →
    ∀ name ∈ names, ∃ e, expression json name = .ok e

theorem reads_register : Reads parseRegisterWith ["next"] where
  nodup := by decide
  congr hfields hexpr := by
    unfold parseRegisterWith stringField natField domainField sourceField
    have hdomain : ∀ json : Json, json.getObjVal? "domain" = field json "domain" := fun _ => rfl
    simp only [hdomain]
    rw [hfields "name" (by decide), hfields "width" (by decide), hfields "init" (by decide), hfields "domain" (by decide),
      hfields "source" (by decide), hexpr "next" (by decide)]
  ok h := by
    obtain ⟨_, -, h⟩ := bind_eq_ok h
    obtain ⟨_, -, h⟩ := bind_eq_ok h
    obtain ⟨_, -, h⟩ := bind_eq_ok h
    obtain ⟨next, hnext, -⟩ := bind_eq_ok h
    exact List.forall_mem_singleton.2 ⟨next, hnext⟩

theorem reads_write : Reads parseMemoryWriteWith ["enable", "address", "data"] where
  nodup := by decide
  congr hfields hexpr := by
    unfold parseMemoryWriteWith natField sourceField
    rw [hfields "port" (by decide), hfields "source" (by decide), hexpr "enable" (by decide), hexpr "address" (by decide),
      hexpr "data" (by decide)]
  ok h := by
    obtain ⟨_, -, h⟩ := bind_eq_ok h
    obtain ⟨enable, henable, h⟩ := bind_eq_ok h
    obtain ⟨address, haddress, h⟩ := bind_eq_ok h
    obtain ⟨data, hdata, -⟩ := bind_eq_ok h
    exact List.forall_mem_cons.2 ⟨⟨enable, henable⟩,
      List.forall_mem_cons.2 ⟨⟨address, haddress⟩, List.forall_mem_singleton.2 ⟨data, hdata⟩⟩⟩

theorem reads_output : Reads parseOutputWith ["value"] where
  nodup := by decide
  congr hfields hexpr := by
    unfold parseOutputWith stringField natField sourceField
    rw [hfields "name" (by decide), hfields "width" (by decide), hfields "source" (by decide), hexpr "value" (by decide)]
  ok h := by
    obtain ⟨_, -, h⟩ := bind_eq_ok h
    obtain ⟨_, -, h⟩ := bind_eq_ok h
    obtain ⟨value, hvalue, -⟩ := bind_eq_ok h
    exact List.forall_mem_singleton.2 ⟨value, hvalue⟩

/-- An encoder of a part: what it writes is parsed, over the table, to what the part is parsed to. -/
def Encodes (document : PyValue) (encode : PyValue → Encoder Json)
    (parse : (Json → String → Except String Expr) → Json → Except String α) : Prop :=
  ∀ (value : PyValue) (a : α) (s : ExprTable), PyValue.Within value document → parse exprField value.toJson = .ok a →
    TableInv document s →
    wp (encode value) (fun json s' => TableInv document s' ∧ Grows s s' ∧
      Settled (fun known => parse (expressionRef known) json = .ok a) s') s

/-- A part with a field is a dictionary. -/
theorem dict_of_field {value : PyValue} {name : String} {json : Json} (h : field value.toJson name = .ok json) :
    ∃ identity entries, value = .dict identity entries := by
  obtain ⟨v, hv, -⟩ := field_toJson.1 h
  cases value with
  | dict identity entries => exact ⟨identity, entries, rfl⟩
  | _ => cases hv

/-- A part with its expressions replaced: its other fields are the same, and the references lead to the expressions. -/
theorem encodeFields_spec (hdoc : document.Coherent) {names : List String} (hnodup : names.Nodup) {identity : Nat}
    {entries : List (String × PyValue)} (hw : PyValue.Within (.dict identity entries) document)
    (hexprs : ∀ name ∈ names, ∃ e, exprField (PyValue.dict identity entries).toJson name = .ok e) {s : ExprTable}
    (hs : TableInv document s) :
    wp (encodeFields names (.dict identity entries)) (fun entries' s' => TableInv document s' ∧ Grows s s' ∧
      (∀ name, name ∉ names → field (.obj entries') name = field (PyValue.dict identity entries).toJson name) ∧
      Settled (fun known => ∀ name ∈ names,
        expressionRef known (.obj entries') name = exprField (PyValue.dict identity entries).toJson name) s') s := by
  simp only [encodeFields, wp_bind, wp_lift, wp_pure]
  refine ⟨_, rfl, ?_⟩
  refine wp_mono (wp_mapM_forall₂ (I := TableInv document) (G := Grows)
    (P := fun name ref s => RefEncodes (.dict identity entries) name ref s) Grows.refl
    (fun h h' => List.IsPrefix.trans h h') (fun hg h => h.grows hg) names ?_ hs) ?_
  · intro name hname s₁ hs₁
    obtain ⟨e, he⟩ := hexprs name hname
    obtain ⟨expression, hget, hvalue⟩ := exprField_toJson he
    simp only [wp_bind, wp_lift, wp_pure]
    refine ⟨expression, hget, wp_mono (intern_spec hdoc expression ((within_get? hget).trans hw) hvalue hs₁) ?_⟩
    rintro id s₂ ⟨hs₂, hg, hsettled⟩
    exact ⟨hs₂, hg, rfl, e, he, hsettled⟩
  · rintro refs s₁ ⟨hs₁, hg, hrefs⟩
    exact ⟨hs₁, hg, setRefs_spec hnodup hrefs⟩

/-- A part whose expressions are in some of its fields. -/
theorem encodes_fields (hdoc : document.Coherent) {parse : (Json → String → Except String Expr) → Json → Except String α}
    {names : List String} (hreads : Reads parse names) (hne : names ≠ []) :
    Encodes document (fun value => Json.obj <$> encodeFields names value) parse := by
  intro value a s hw ha hs
  have hexprs := hreads.ok ha
  obtain ⟨identity, entries, rfl⟩ : ∃ identity entries, value = .dict identity entries := by
    obtain ⟨name, hname⟩ := List.exists_mem_of_ne_nil names hne
    obtain ⟨e, he⟩ := hexprs name hname
    obtain ⟨json, hjson, -⟩ := bind_eq_ok he
    exact dict_of_field hjson
  rw [wp_map]
  refine wp_mono (encodeFields_spec hdoc hreads.nodup hw hexprs hs) ?_
  rintro entries' s₁ ⟨hs₁, hg, hfields, hreferences⟩
  refine ⟨hs₁, hg, hreferences.mono fun known hr => ?_⟩
  rw [hreads.congr hfields hr]
  exact ha

/-- The items of a list, encoded one after the other. -/
theorem encodes_items {encode : PyValue → Encoder Json} {parse : (Json → String → Except String Expr) → Json → Except String α}
    (hencodes : Encodes document encode parse) {items : List PyValue} (hw : ∀ item ∈ items, PyValue.Within item document)
    {as : List α} (has : parseList (parse exprField) (items.map PyValue.toJson) = .ok as) {s : ExprTable}
    (hs : TableInv document s) :
    wp (items.mapM encode) (fun jsons s' => TableInv document s' ∧ Grows s s' ∧
      Settled (fun known => parseList (parse (expressionRef known)) jsons = .ok as) s') s := by
  unfold parseList at has ⊢
  induction items generalizing as s with
  | nil =>
    cases has
    rw [List.mapM_nil, wp_pure]
    exact ⟨hs, Grows.refl s, fun _ _ _ _ => rfl⟩
  | cons item items ih =>
    rw [List.map_cons, List.mapM_cons] at has
    obtain ⟨a, ha, has⟩ := bind_eq_ok has
    obtain ⟨as', has', hcons⟩ := bind_eq_ok has
    cases hcons
    rw [List.mapM_cons, wp_bind]
    refine wp_mono (hencodes item a s (hw item List.mem_cons_self) ha hs) ?_
    rintro json s₁ ⟨hs₁, hg₁, hjson⟩
    rw [wp_bind]
    refine wp_mono (ih (fun item hitem => hw item (List.mem_cons_of_mem _ hitem)) has' hs₁) ?_
    rintro jsons s₂ ⟨hs₂, hg₂, hjsons⟩
    rw [wp_pure]
    refine ⟨hs₂, hg₁.trans hg₂, ((hjson.grows hg₂).and hjsons).mono ?_⟩
    rintro known ⟨h, h'⟩
    rw [List.mapM_cons, h, ok_bind, h', ok_bind]
    rfl

/-- The items under a name, parsed. -/
def listField {β : Type} (item : Json → Except String β) (json : Json) (name : String) : Except String (List β) :=
  arrayField json name >>= parseList item

theorem listField_toJson {β : Type} {item : Json → Except String β} {value : PyValue} {name : String} {bs : List β}
    (h : listField item value.toJson name = .ok bs) :
    ∃ items, value.get? name = some (.list items) ∧ parseList item (items.map PyValue.toJson) = .ok bs := by
  obtain ⟨jsons, harray, hbs⟩ := bind_eq_ok h
  obtain ⟨json, hjson, hitems⟩ := bind_eq_ok harray
  obtain ⟨v, hv, rfl⟩ := field_toJson.1 hjson
  cases v with
  | list items =>
    rw [PyValue.toJson_list] at hitems
    cases hitems
    exact ⟨items, hv, hbs⟩
  | dict identity entries => simp [Json.getArr?] at hitems
  | _ => simp [PyValue.toJson, Json.getArr?] at hitems

theorem listField_obj {β : Type} {item : Json → Except String β} {entries : List (String × Json)} {name : String}
    {jsons : List Json} (h : entries.lookup name = some (.arr jsons)) :
    listField item (.obj entries) name = parseList item jsons := by
  unfold listField arrayField
  rw [field_obj entries name h]
  rfl

/-- The items of a list are in what the list is in. -/
theorem within_item {value item : PyValue} {name : String} {items : List PyValue} (h : value.get? name = some (.list items))
    (hitem : item ∈ items) : PyValue.Within item value :=
  (PyValue.Within.item hitem (PyValue.Within.refl item)).trans (within_get? h)

/-- A parser reads one list whose items have expressions. -/
structure ReadsList {β : Type} (parse : (Json → String → Except String Expr) → Json → Except String α) (name : String)
    (item : (Json → String → Except String Expr) → Json → Except String β) : Prop where
  congr : ∀ {expression expression' : Json → String → Except String Expr} {json json' : Json},
    (∀ other, other ≠ name → field json' other = field json other) →
    listField (item expression') json' name = listField (item expression) json name → parse expression' json' = parse expression json
  ok : ∀ {expression : Json → String → Except String Expr} {json : Json} {a : α}, parse expression json = .ok a →
    ∃ bs, listField (item expression) json name = .ok bs

theorem reads_memory : ReadsList parseMemoryWith "writes" parseMemoryWriteWith where
  congr {expression expression' json json'} hfields hlist := by
    unfold listField at hlist
    have hrefinement : ∀ json : Json, json.getObjVal? "init_refinement" = field json "init_refinement" := fun _ => rfl
    unfold parseMemoryWith
    rw [hlist]
    simp only [stringField, natField, arrayField, optionalPartialValueField, sourceField, hrefinement]
    rw [hfields "name" (by decide), hfields "address_width" (by decide), hfields "data_width" (by decide),
      hfields "init" (by decide), hfields "init_refinement" (by decide), hfields "source" (by decide)]
  ok h := by
    obtain ⟨_, -, h⟩ := bind_eq_ok h
    obtain ⟨_, -, h⟩ := bind_eq_ok h
    obtain ⟨_, -, h⟩ := bind_eq_ok h
    obtain ⟨_, -, h⟩ := bind_eq_ok h
    obtain ⟨_, -, h⟩ := bind_eq_ok h
    obtain ⟨writes, hwrites, -⟩ := bind_eq_ok h
    exact ⟨writes, hwrites⟩

theorem reads_instance : ReadsList parseInstanceWith "connections" parseInstanceConnectionWith where
  congr {expression expression' json json'} hfields hlist := by
    unfold listField at hlist
    unfold parseInstanceWith
    rw [hlist]
    simp only [stringField, arrayField, sourceField]
    rw [hfields "name" (by decide), hfields "module_name" (by decide), hfields "parameters" (by decide),
      hfields "source" (by decide)]
  ok h := by
    obtain ⟨_, -, h⟩ := bind_eq_ok h
    obtain ⟨_, -, h⟩ := bind_eq_ok h
    obtain ⟨_, -, h⟩ := bind_eq_ok h
    obtain ⟨connections, hconnections, -⟩ := bind_eq_ok h
    exact ⟨connections, hconnections⟩

/-- A part with a list of parts. -/
theorem encodes_list {β : Type} {parse : (Json → String → Except String Expr) → Json → Except String α} {name : String}
    {item : (Json → String → Except String Expr) → Json → Except String β} (hreads : ReadsList parse name item)
    {encode : PyValue → Encoder Json} (hitem : Encodes document encode item) :
    Encodes document (fun value => do
      let entries ← StateT.lift value.jsonEntries?
      let items ← (← itemsOf value name).mapM encode
      pure (.obj (Dict.setEntries name (.arr items) entries))) parse := by
  intro value a s hw ha hs
  obtain ⟨bs, hbs⟩ := hreads.ok ha
  obtain ⟨items, hitems, hparse⟩ := listField_toJson hbs
  cases value with
  | dict identity entries =>
    simp only [itemsOf, bind_assoc, wp_bind, wp_lift, wp_pure]
    refine ⟨_, rfl, .list items, hitems, items, rfl, ?_⟩
    refine wp_mono (encodes_items hitem (fun x hx => (within_item hitems hx).trans hw) hparse hs) ?_
    rintro jsons s₁ ⟨hs₁, hg, hsettled⟩
    refine ⟨hs₁, hg, hsettled.mono fun known hknown => ?_⟩
    rw [← ha]
    refine hreads.congr (fun other hother => ?_) ?_
    · rw [PyValue.toJson_dict]
      exact field_obj_congr (Dict.lookup_setEntries_ne hother _ _)
    · rw [listField_obj (Dict.lookup_setEntries_self _ _ _), hknown, hbs]
  | _ => cases hitems

/-- A connection is its fields apart from its value, and its value. -/
theorem connection_congr {expression expression' : Json → String → Except String Expr} {json json' : Json}
    (hfields : ∀ name, name ≠ "value" → field json' name = field json name)
    (hvalue : connectionValue expression' json' = connectionValue expression json) :
    parseInstanceConnectionWith expression' json' = parseInstanceConnectionWith expression json := by
  unfold parseInstanceConnectionWith
  simp only [stringField, natField, sourceField]
  rw [hfields "port" (by decide), hfields "direction" (by decide), hfields "signal" (by decide), hfields "width" (by decide),
    hfields "source" (by decide), hvalue]

/-- A reference is no null. -/
theorem connectionValue_ref {known : List Expr} {json : Json} {e : Expr} (h : expressionRef known json "value" = .ok e) :
    connectionValue (expressionRef known) json = .ok (some e) := by
  have href := h
  obtain ⟨reference, hreference, -⟩ := bind_eq_ok h
  obtain ⟨value, hvalue, hnat⟩ := bind_eq_ok hreference
  have hnull : value.isNull = false := by
    cases value with
    | null => cases hnat
    | _ => rfl
  unfold connectionValue
  rw [hvalue, ok_bind, hnull, if_neg Bool.false_ne_true, href]
  rfl

/-- A connection with an expression. -/
theorem encodeConnection_of_ne {connection v : PyValue} (hv : connection.get? "value" = some v) (hne : v ≠ .none) :
    encodeConnection connection = Json.obj <$> encodeFields ["value"] connection := by
  unfold encodeConnection
  rw [hv]
  cases v with
  | none => exact absurd rfl hne
  | _ => rfl

theorem encodes_connection (hdoc : document.Coherent) : Encodes document encodeConnection parseInstanceConnectionWith := by
  intro connection a s hw ha hs
  have hparse := ha
  obtain ⟨_, -, ha⟩ := bind_eq_ok ha
  obtain ⟨_, -, ha⟩ := bind_eq_ok ha
  obtain ⟨_, -, ha⟩ := bind_eq_ok ha
  obtain ⟨_, -, ha⟩ := bind_eq_ok ha
  obtain ⟨value, hvalue, -⟩ := bind_eq_ok ha
  have hconnection := hvalue
  obtain ⟨valueJson, hfield, hvalue⟩ := bind_eq_ok hvalue
  obtain ⟨v, hv, rfl⟩ := field_toJson.1 hfield
  obtain ⟨identity, entries, rfl⟩ := dict_of_field hfield
  by_cases hnone : v = .none
  · subst hnone
    unfold encodeConnection
    rw [wp_bind, wp_lift]
    refine ⟨.none, hv, ?_⟩
    simp only [wp_bind, wp_lift, wp_pure]
    refine ⟨_, rfl, hs, Grows.refl s, fun _ _ known _ => ?_⟩
    have hfields : ∀ name, field (.obj (Dict.setEntries "value" .null (entries.map fun entry => (entry.1, entry.2.toJson)))) name =
        field (PyValue.dict identity entries).toJson name := by
      intro name
      by_cases hname : name = "value"
      · subst hname
        rw [hfield, PyValue.toJson]
        exact field_obj _ _ (Dict.lookup_setEntries_self _ _ _)
      · rw [PyValue.toJson_dict]
        exact field_obj_congr (Dict.lookup_setEntries_ne hname _ _)
    rw [← hparse]
    refine connection_congr (fun name _ => hfields name) ?_
    unfold connectionValue
    rw [hfields, hfield, ok_bind, ok_bind, PyValue.toJson]
    rfl
  · have hnull : v.toJson.isNull = false := by
      cases v with
      | none => exact absurd rfl hnone
      | list items =>
        rw [PyValue.toJson_list]
        rfl
      | dict identity entries =>
        rw [PyValue.toJson_dict]
        rfl
      | _ =>
        rw [PyValue.toJson]
        rfl
    rw [hnull, if_neg Bool.false_ne_true] at hvalue
    obtain ⟨e, he, rfl⟩ : ∃ e, exprField (PyValue.dict identity entries).toJson "value" = .ok e ∧ some e = value := by
      cases he : exprField (PyValue.dict identity entries).toJson "value" with
      | error message =>
        rw [he] at hvalue
        cases hvalue
      | ok e =>
        rw [he] at hvalue
        cases hvalue
        exact ⟨e, rfl, rfl⟩
    rw [encodeConnection_of_ne hv hnone, wp_map]
    refine wp_mono (encodeFields_spec hdoc (List.nodup_singleton _) hw (List.forall_mem_singleton.2 ⟨e, he⟩) hs) ?_
    rintro entries' s₁ ⟨hs₁, hg, hfields, hreferences⟩
    refine ⟨hs₁, hg, hreferences.mono fun known hr => ?_⟩
    have href := hr "value" (List.mem_singleton_self _)
    rw [← hparse]
    refine connection_congr (fun name hname => hfields name fun h => hname (List.mem_singleton.1 h)) ?_
    rw [connectionValue_ref (href.trans he), hconnection]

/-! ## Modules -/

/-- The fields of a module in which expressions are, and the table. -/
def sharedFields : List String := ["registers", "memories", "outputs", "instances", "expressions"]

theorem parseModule_congr {expression expression' : Json → String → Except String Expr} {json json' : Json}
    (hfields : ∀ name, name ∉ sharedFields → field json' name = field json name)
    (hregisters : listField (parseRegisterWith expression') json' "registers" =
      listField (parseRegisterWith expression) json "registers")
    (hmemories : listField (parseMemoryWith expression') json' "memories" =
      listField (parseMemoryWith expression) json "memories")
    (houtputs : listField (parseOutputWith expression') json' "outputs" =
      listField (parseOutputWith expression) json "outputs")
    (hinstances : listField (parseInstanceWith expression') json' "instances" =
      listField (parseInstanceWith expression) json "instances") :
    parseModuleWith expression' json' = parseModuleWith expression json := by
  unfold listField at hregisters hmemories houtputs hinstances
  unfold parseModuleWith
  rw [hregisters, hmemories, houtputs, hinstances]
  simp only [stringField, arrayField, sourceField]
  rw [hfields "name" (by decide), hfields "ports" (by decide), hfields "domains" (by decide), hfields "unsupported" (by decide),
    hfields "source" (by decide)]

/-- The items under a name, encoded. -/
theorem encodeItems_spec {encode : PyValue → Encoder Json} {item : (Json → String → Except String Expr) → Json → Except String α}
    (hencodes : Encodes document encode item) {name : String} {as : List α}
    (h : listField (item exprField) document.toJson name = .ok as) {s : ExprTable} (hs : TableInv document s) :
    wp (encodeItems encode document name) (fun json s' => TableInv document s' ∧ Grows s s' ∧
      ∃ jsons, json = .arr jsons ∧ Settled (fun known => parseList (item (expressionRef known)) jsons = .ok as) s') s := by
  obtain ⟨items, hitems, hparse⟩ := listField_toJson h
  simp only [encodeItems, itemsOf, bind_assoc, wp_bind, wp_lift, wp_map]
  refine ⟨.list items, hitems, items, rfl, ?_⟩
  refine wp_mono (encodes_items hencodes (fun x hx => within_item hitems hx) hparse hs) ?_
  rintro jsons s₁ ⟨hs₁, hg, hsettled⟩
  exact ⟨hs₁, hg, jsons, rfl, hsettled⟩

/-- The table of nothing. -/
theorem inv_empty : TableInv document ⟨[], Dict.empty⟩ := by
  refine ⟨⟨[], rfl⟩, ?_⟩
  intro identity id hget
  cases hget

/-- A document that is accepted as trees is encoded, and accepted as a table with the same result. -/
theorem encode_spec (hdoc : document.Coherent) {m : Module} (h : parseModuleJson document.toJson = .ok m) :
    ∃ encoded, encodeModuleExpressionDag document = some encoded ∧ parseModuleDagJson encoded = .ok m := by
  have hparse := h
  obtain ⟨_, -, h⟩ := bind_eq_ok h
  obtain ⟨_, -, h⟩ := bind_eq_ok h
  obtain ⟨_, -, h⟩ := bind_eq_ok h
  obtain ⟨registers, hregisters, h⟩ := bind_eq_ok h
  obtain ⟨memories, hmemories, h⟩ := bind_eq_ok h
  obtain ⟨outputs, houtputs, h⟩ := bind_eq_ok h
  obtain ⟨instances, hinstances, -⟩ := bind_eq_ok h
  obtain ⟨items, hitems, -⟩ := listField_toJson hregisters
  cases document with
  | dict identity entries =>
    have hwrite := encodes_fields hdoc reads_write (List.cons_ne_nil _ _)
    have hspec : wp (encodeModule (.dict identity entries)) (fun entries' s' =>
        ∃ known, parseExprTable s'.expressions = .ok known ∧
          parseModuleDagJson (.obj (Dict.setEntries "expressions" (.arr s'.expressions) entries')) = .ok m) ⟨[], Dict.empty⟩ := by
      simp only [encodeModule, wp_bind, wp_lift, wp_pure]
      refine ⟨_, rfl, ?_⟩
      refine wp_mono (encodeItems_spec (encodes_fields hdoc reads_register (List.cons_ne_nil _ _)) hregisters inv_empty) ?_
      rintro _ s₁ ⟨hs₁, hg₁, jsons₁, rfl, h₁⟩
      refine wp_mono (encodeItems_spec (encodes_list reads_memory hwrite) hmemories hs₁) ?_
      rintro _ s₂ ⟨hs₂, hg₂, jsons₂, rfl, h₂⟩
      refine wp_mono (encodeItems_spec (encodes_fields hdoc reads_output (List.cons_ne_nil _ _)) houtputs hs₂) ?_
      rintro _ s₃ ⟨hs₃, hg₃, jsons₃, rfl, h₃⟩
      refine wp_mono (encodeItems_spec (encodes_list reads_instance (encodes_connection hdoc)) hinstances hs₃) ?_
      rintro _ s₄ ⟨hs₄, hg₄, jsons₄, rfl, h₄⟩
      obtain ⟨known, hknown⟩ := hs₄.readable
      refine ⟨known, hknown, ?_⟩
      let json := Json.obj (Dict.setEntries "expressions" (.arr s₄.expressions) (Dict.setEntries "instances" (.arr jsons₄)
        (Dict.setEntries "outputs" (.arr jsons₃) (Dict.setEntries "memories" (.arr jsons₂) (Dict.setEntries "registers" (.arr jsons₁)
          (entries.map fun entry => (entry.1, entry.2.toJson)))))))
      have hmodule : parseModuleWith (expressionRef known) json = .ok m := by
        rw [← hparse]
        refine parseModule_congr (fun name hname => ?_) ?_ ?_ ?_ ?_
        · simp only [sharedFields, List.mem_cons, List.not_mem_nil, or_false, not_or] at hname
          obtain ⟨hr, hm, ho, hi, he⟩ := hname
          rw [PyValue.toJson_dict]
          refine field_obj_congr ?_
          rw [Dict.lookup_setEntries_ne he, Dict.lookup_setEntries_ne hi, Dict.lookup_setEntries_ne ho,
            Dict.lookup_setEntries_ne hm, Dict.lookup_setEntries_ne hr]
        · have hlookup : listField (parseRegisterWith (expressionRef known)) json "registers" = parseList _ jsons₁ :=
            listField_obj (by simp [Dict.lookup_setEntries_ne, Dict.lookup_setEntries_self])
          rw [hlookup, h₁ s₄ ((hg₂.trans hg₃).trans hg₄) known hknown]
          exact hregisters.symm
        · have hlookup : listField (parseMemoryWith (expressionRef known)) json "memories" = parseList _ jsons₂ :=
            listField_obj (by simp [Dict.lookup_setEntries_ne, Dict.lookup_setEntries_self])
          rw [hlookup, h₂ s₄ (hg₃.trans hg₄) known hknown]
          exact hmemories.symm
        · have hlookup : listField (parseOutputWith (expressionRef known)) json "outputs" = parseList _ jsons₃ :=
            listField_obj (by simp [Dict.lookup_setEntries_ne, Dict.lookup_setEntries_self])
          rw [hlookup, h₃ s₄ hg₄ known hknown]
          exact houtputs.symm
        · have hlookup : listField (parseInstanceWith (expressionRef known)) json "instances" = parseList _ jsons₄ :=
            listField_obj (by simp [Dict.lookup_setEntries_ne, Dict.lookup_setEntries_self])
          rw [hlookup, h₄ s₄ (Grows.refl s₄) known hknown]
          exact hinstances.symm
      have htable : arrayField json "expressions" = .ok s₄.expressions := by
        unfold arrayField
        rw [field_obj _ _ (Dict.lookup_setEntries_self _ _ _)]
        rfl
      unfold parseModuleDagJson
      rw [htable, ok_bind, hknown, ok_bind]
      exact hmodule
    obtain ⟨entries', s', hrun, known, hknown, hresult⟩ := hspec
    refine ⟨_, ?_, hresult⟩
    unfold encodeModuleExpressionDag
    rw [hrun]
    rfl
  | _ => cases hitems

end Parts

/-- The operands of a node that is read are in the table. -/
theorem reference_lt {known : List Expr} {node : Json} {e : Expr} (h : parseExprNode known node = .ok e) {reference : Nat}
    (href : RefersTo node reference) : reference < known.length := by
  obtain ⟨kind, name, hkind, hname, hreference⟩ := href
  obtain ⟨kind', hkind', -, hoperands⟩ := parseNode_eq_ok h
  rw [hkind] at hkind'
  cases hkind'
  obtain ⟨e', he'⟩ := hoperands name hname
  unfold expressionRef at he'
  rw [hreference, ok_bind] at he'
  cases hget : known[reference]? with
  | some expression => exact (List.getElem?_eq_some_iff.1 hget).1
  | none =>
    rw [hget] at he'
    cases he'

end DagAux

open DagAux

/-- A document whose expressions are trees that may share parts, and the document with a table of their nodes, are parsed to the same
module; and a table with a node that refers to itself or to a later node is refused. -/
theorem expressionDag_lossless :
    (∀ document : PyValue, document.Coherent → ∀ m, parseModuleJson document.toJson = .ok m →
      ∃ encoded, encodeModuleExpressionDag document = some encoded ∧ parseModuleDagJson encoded = .ok m) ∧
    ∀ json before node after reference, arrayField json "expressions" = .ok (before ++ node :: after) →
      RefersTo node reference → before.length ≤ reference → ∀ m, parseModuleDagJson json ≠ .ok m := by
  constructor
  · exact fun document hdoc m h => encode_spec hdoc h
  · intro json before node after reference htable href hforward m hm
    obtain ⟨known, hknown, -⟩ := bind_eq_ok hm
    rw [htable, ok_bind] at hknown
    refine Tables.build_ne_ok (fun earlier e hlength hnode => ?_) known hknown
    have hlt := reference_lt hnode href
    omega

/-- A position, a signal, and an inversion of it. -/
def positionEntries : List (String × PyValue) :=
  [("file", .str "top.v"), ("start_line", .int 1), ("start_column", .int 0), ("end_line", .int 9), ("end_column", .int 9)]

def signalEntries : List (String × PyValue) :=
  [("kind", .str "signal"), ("width", .int 1), ("name", .str "a"), ("source", .dict 1 positionEntries)]

def inversionEntries : List (String × PyValue) :=
  [("kind", .str "unary"), ("width", .int 1), ("op", .str "bit_not"), ("value", .dict 2 signalEntries),
    ("source", .dict 1 positionEntries)]

def outputEntries (name : String) : List (String × PyValue) :=
  [("name", .str name), ("width", .int 1), ("value", .dict 3 inversionEntries), ("source", .dict 1 positionEntries)]

/-- A module of two outputs that share the inversion. -/
def sharedEntries : List (String × PyValue) :=
  [("name", .str "top"), ("ports", .list []), ("domains", .list []), ("registers", .list []), ("memories", .list []),
    ("outputs", .list [.dict 4 (outputEntries "y"), .dict 5 (outputEntries "z")]), ("instances", .list []),
    ("unsupported", .list []), ("source", .dict 1 positionEntries)]

/-- The module those entries are parsed to. -/
def sharedModule : Module :=
  let source : SourceLocation := ⟨"top.v", 1, 0, 9, 9⟩
  let inversion : Expr := .unary 1 .bitNot (.signal 1 "a" source) source
  { name := "top", ports := [], domains := [], registers := [], memories := []
    outputs := [⟨"y", 1, inversion, source⟩, ⟨"z", 1, inversion, source⟩], instances := [], unsupported := [], source := source }

/-- The table of that module has two nodes, and is parsed to the module. -/
theorem expressionDag_lossless_shared : ∃ encoded nodes, parseModuleJson (PyValue.dict 6 sharedEntries).toJson = .ok sharedModule ∧
    encodeModuleExpressionDag (.dict 6 sharedEntries) = some encoded ∧ arrayField encoded "expressions" = .ok nodes ∧
    nodes.length = 2 ∧ parseModuleDagJson encoded = .ok sharedModule := by
  have hcoherent : (PyValue.dict 6 sharedEntries).Coherent := by
    refine PyValue.coherent_of_dicts (fun identity => match identity with
      | 1 => positionEntries
      | 2 => signalEntries
      | 3 => inversionEntries
      | 4 => outputEntries "y"
      | 5 => outputEntries "z"
      | _ => sharedEntries) ?_
    simp [PyValue.dicts, PyValue.itemsDicts, PyValue.entriesDicts, sharedEntries, outputEntries, inversionEntries, signalEntries,
      positionEntries]
  have hparse : parseModuleJson (PyValue.dict 6 sharedEntries).toJson = .ok sharedModule := by
    have hvalue : (parseModuleJson (PyValue.dict 6 sharedEntries).toJson).toOption = some sharedModule := by decide +kernel
    cases h : parseModuleJson (PyValue.dict 6 sharedEntries).toJson with
    | ok m =>
      rw [h] at hvalue
      rw [Option.some.inj hvalue]
    | error message =>
      rw [h] at hvalue
      cases hvalue
  obtain ⟨encoded, hencoded, hdag⟩ := expressionDag_lossless.1 _ hcoherent sharedModule hparse
  have htable : ((encodeModuleExpressionDag (.dict 6 sharedEntries)).map fun encoded =>
      ((arrayField encoded "expressions").toOption.map List.length)) = some (some 2) := by decide +kernel
  rw [hencoded, Option.map_some, Option.some_inj] at htable
  cases hnodes : arrayField encoded "expressions" with
  | ok nodes =>
    rw [hnodes] at htable
    exact ⟨encoded, nodes, hparse, hencoded, hnodes, Option.some_inj.1 htable, hdag⟩
  | error message =>
    rw [hnodes] at htable
    cases htable

end LoomImport
