import LoomImport.Soundness
import LoomImport.Termination

/-!
# What the translation of a module is worth

The outputs of combinational cells and of memories, then every run: a request over a plain module that records no blocker gives an
expression that denotes the word of the requested vector in every state and under every consistent valuation, exactly when the
memories that are read are addressable.
-/

namespace LoomImport

open ImportIR Words StateOption ValuationAux SoundnessAux LoweringAux MemoriesAux

namespace TranslationAux

variable {Γ : Ctx} {s₀ : State} {σ : Hw.St} {val : Nat → Bool} {src : SourceLocation}

/-! ## Combinational cells -/

/-- A word that is brought to the width it has. -/
theorem denotes_setWidth {e : Expr} {n w : Nat} {v : BitVec n} (h : Denotes σ e v) (hw : n = w) :
    Denotes σ e (v.setWidth w) := by
  subst hw
  rw [BitVec.setWidth_eq]
  exact h

/-- A word of one bit is its bit. -/
theorem denotes_bit {e : Expr} {n : Nat} {v : BitVec n} (h : Denotes σ e v) (hn : n = 1) :
    Denotes σ e (BitVec.ofBool (v.getLsbD 0)) := by
  subst hn
  have hv : v = BitVec.ofBool (v.getLsbD 0) := by
    apply BitVec.eq_of_getLsbD_eq
    intro i hi
    have hzero : i = 0 := by omega
    subst hzero
    simp
  rw [← hv]
  exact h

/-- A combinational cell of a plain module. -/
theorem plain_comb (h : Valuated Γ s₀ σ val) {key : String × String} {cell : Cell} (ha : Asked Γ key cell) {kind : CombKind}
    (hc : Γ.cellSource key.1 cell key.2 = .comb kind) : key.2 = "Y" ∧ kind.isPlain cell = true := by
  obtain ⟨hm, hk⟩ := Ctx.cellSource_of_eq hc
  obtain ⟨hs, -, ht⟩ := supportedComb?_other hk
  have hcell := h.plain.1 _ (Dict.mem_entries_of_get? ha.cell_eq)
  rw [Setting.plainCell, Bool.and_eq_true, hs, Option.isSome_none, if_neg Bool.false_ne_true, if_neg hm, if_neg ht] at hcell
  have hcomb := hcell.2
  simp only [hk, Bool.and_eq_true, decide_eq_true_eq] at hcomb
  have hout := ha.output
  rw [hcomb.1] at hout
  exact ⟨List.mem_singleton.1 hout, hcomb.2⟩

/-- A combinational cell whose expression contains its operands and denotes its value. -/
theorem exact_comb {key : String × String} {cell : Cell} (ha : Asked Γ key cell) {kind : CombKind}
    (hc : Γ.cellSource key.1 cell key.2 = .comb kind) {e : Expr}
    (hlow : Lowers e → ∀ port ∈ kind.operandPorts, Γ.AddressableCone (cell.connection port))
    (hden : (∀ port ∈ kind.operandPorts, Γ.AddressableCone (cell.connection port)) →
      Denotes σ e (Γ.combWord val cell kind (cell.connection key.2).length)) : OutputExact Γ σ val key cell e := by
  have hcone : Γ.AddressableOutput key ↔ ∀ port ∈ kind.operandPorts, Γ.AddressableCone (cell.connection port) := by
    rw [addressable_of_operands ha.cell_eq (by rw [hc]; intro _ h; cases h), operands_comb ha.cell_eq hc]
    exact List.forall_mem_map
  have hword : Γ.outputWord σ val key.1 cell key.2 = Γ.combWord val cell kind (cell.connection key.2).length := by
    unfold Ctx.outputWord
    rw [hc]
  refine ⟨fun h => ?_, fun h => hcone.2 (hlow h)⟩
  rw [hword]
  exact hden (hcone.1 h)

theorem exact_unary {key : String × String} {cell : Cell} (ha : Asked Γ key cell) {kind : UnaryKind}
    (hc : Γ.cellSource key.1 cell key.2 = .comb (.unary kind)) {e : Expr}
    (he : VectorExact Γ σ val (cell.connection "A") (Γ.sourceOf cell.src) e) :
    OutputExact Γ σ val key cell (unaryCell kind (cell.shape (cell.connection key.2).length) (Γ.sourceOf cell.src) e) := by
  refine exact_comb ha hc (fun hlow port hport => ?_) fun hcone => ?_
  · rw [CombKind.operandPorts, List.mem_singleton] at hport
    exact hport ▸ he.lowers (hlow.within (within_unaryCell kind))
  · have hden := he.denotes (hcone "A" (by simp [CombKind.operandPorts]))
    have hw : 0 < (cell.shape (cell.connection key.2).length).width := List.length_pos_iff.2 ha.bits_ne
    exact unaryCell_denotes kind hw hden

theorem exact_binary (h : Valuated Γ s₀ σ val) {key : String × String} {cell : Cell} (ha : Asked Γ key cell)
    {kind : BinaryKind} (hc : Γ.cellSource key.1 cell key.2 = .comb (.binary kind)) {l r : Expr}
    (hl : VectorExact Γ σ val (cell.connection "A") (Γ.sourceOf cell.src) l)
    (hr : VectorExact Γ σ val (cell.connection "B") (Γ.sourceOf cell.src) r) :
    OutputExact Γ σ val key cell (binaryCell kind (cell.shape (cell.connection key.2).length) (Γ.sourceOf cell.src) l r) := by
  have hplain := (plain_comb h ha hc).2
  simp only [CombKind.isPlain, Bool.and_eq_true, decide_eq_true_eq] at hplain
  obtain ⟨hk, hs⟩ := hplain
  refine exact_comb ha hc (fun hlow port hport => ?_) fun hcone => ?_
  · rcases List.mem_cons.1 hport with rfl | hport
    · exact hl.lowers (hlow.within (within_binaryCell hk (Or.inl rfl)))
    · rw [List.mem_singleton] at hport
      exact hport ▸ hr.lowers (hlow.within (within_binaryCell hk (Or.inr rfl)))
  · have hdl := hl.denotes (hcone "A" (by simp [CombKind.operandPorts]))
    have hdr := hr.denotes (hcone "B" (by simp [CombKind.operandPorts]))
    have hw : 0 < (cell.shape (cell.connection key.2).length).width := List.length_pos_iff.2 ha.bits_ne
    exact binaryCell_denotes hk hs hw hdl hdr

theorem exact_mux (h : Valuated Γ s₀ σ val) {key : String × String} {cell : Cell} (ha : Asked Γ key cell)
    (hc : Γ.cellSource key.1 cell key.2 = .comb .mux) {yes no condition : Expr}
    (hyes : VectorExact Γ σ val (cell.connection "B") (Γ.sourceOf cell.src) yes)
    (hno : VectorExact Γ σ val (cell.connection "A") (Γ.sourceOf cell.src) no)
    (hcondition : VectorExact Γ σ val (cell.connection "S") (Γ.sourceOf cell.src) condition) :
    OutputExact Γ σ val key cell (muxCell (cell.connection key.2).length (Γ.sourceOf cell.src) yes no condition) := by
  obtain ⟨hY, hplain⟩ := plain_comb h ha hc
  simp only [CombKind.isPlain, Bool.and_eq_true, decide_eq_true_eq, ← hY] at hplain
  obtain ⟨⟨hA, hB⟩, hS⟩ := hplain
  obtain ⟨hwy, hwn, hwc⟩ := within_muxCell (cell.connection key.2).length (Γ.sourceOf cell.src) yes no condition
  refine exact_comb ha hc (fun hlow port hport => ?_) fun hcone => ?_
  · rcases List.mem_cons.1 hport with rfl | hport
    · exact hyes.lowers (hlow.within hwy)
    · rcases List.mem_cons.1 hport with rfl | hport
      · exact hno.lowers (hlow.within hwn)
      · rw [List.mem_singleton] at hport
        exact hport ▸ hcondition.lowers (hlow.within hwc)
  · have hdy := hyes.denotes (hcone "B" (by simp [CombKind.operandPorts]))
    have hdn := hno.denotes (hcone "A" (by simp [CombKind.operandPorts]))
    have hdc := hcondition.denotes (hcone "S" (by simp [CombKind.operandPorts]))
    exact muxCell_denotes (List.length_pos_iff.2 ha.bits_ne) (denotes_setWidth hdy hB) (denotes_setWidth hdn hA)
      (denotes_bit hdc hS)

/-! ## Memories -/

/-- The expression of a read port, over the expression of its address. -/
def PortExact (Γ : Ctx) (σ : Hw.St) (val : Nat → Bool) (info : MemoryInfo) (port : Nat) (e : Expr) : Prop :=
  ∃ full, e = Γ.portExpr info full ∧ (info.abits = info.addressWidth ∨ Γ.fillOk info = true) ∧
    VectorExact Γ σ val (portBits (info.cell.connection "RD_ADDR") port info.abits) info.source full

/-- A read port of an addressable memory, when the cone of its address is addressable. -/
theorem PortExact.denotes {info : MemoryInfo} {port : Nat} {e : Expr} (h : PortExact Γ σ val info port e)
    (hread : Readable Γ.toSetting info) (hadd : info.Addressable) (hport : port < info.readPorts)
    (hcone : Γ.AddressableCone (portBits (info.cell.connection "RD_ADDR") port info.abits)) :
    Denotes σ e (Γ.readValue info σ (Γ.addressValue val info port)) := by
  obtain ⟨full, rfl, hfill, hfull⟩ := h
  have hden := denotes_setWidth (hfull.denotes hcone) (portBits_length info.shape.readAddr_length hport)
  have hvalue := portExpr_denotes hread hadd hfill hden
  rw [BitVec.toNat_setWidth_of_le (Nat.le_of_eq (portBits_length info.shape.readAddr_length hport))] at hvalue
  exact hvalue

/-- A read port that lowers is one of an addressable memory, and the cone of its address is addressable. -/
theorem PortExact.lowers {info : MemoryInfo} {port : Nat} {e : Expr} (h : PortExact Γ σ val info port e)
    (hport : port < info.readPorts) (hlow : Lowers e) :
    info.Addressable ∧ Γ.AddressableCone (portBits (info.cell.connection "RD_ADDR") port info.abits) := by
  obtain ⟨full, rfl, -, hfull⟩ := h
  have hcone := hfull.lowers (hlow.within (within_portExpr_full Γ.toSetting info full))
  have hwidth : full.width = info.abits := (hfull.denotes hcone).width_eq.trans (portBits_length info.shape.readAddr_length hport)
  exact ⟨addressable_of_lowers hwidth hlow, hcone⟩

/-- An accepted memory of a module that records no blocker can be read. -/
theorem readable (h : Valuated Γ s₀ σ val) (hclean : s₀.unsupported = []) {name : String} {info : MemoryInfo}
    (hinfo : Γ.memoryCells.get? name = some info) : Readable Γ.toSetting info := by
  have hfacts := h.prepared.memory hinfo
  refine ⟨hfacts.init_const, hfacts.init_eq, ?_⟩
  cases hok : Γ.constantOk info.initBits info.source with
  | true => rfl
  | false =>
    have hrecord := h.prepared.image hinfo hok
    rw [hclean] at hrecord
    cases hrecord

/-- The read data of a memory, over its ports. -/
theorem exact_memory (h : Valuated Γ s₀ σ val) (hclean : s₀.unsupported = []) {key : String × String} {cell : Cell}
    (ha : Asked Γ key cell) {info : MemoryInfo} (hc : Γ.cellSource key.1 cell key.2 = .memory info) {es : List Expr}
    (hes : List.Forall₂ (PortExact Γ σ val info) (List.range info.readPorts).reverse es) {e : Expr}
    (he : joinParts src es = some e) : OutputExact Γ σ val key cell e := by
  obtain ⟨-, hport, hinfo⟩ := Ctx.cellSource_of_eq hc
  have hcell : info.cell = cell := by
    have hget := (h.prepared.memory hinfo).cell_eq
    rw [ha.cell_eq] at hget
    exact (Option.some.inj hget).symm
  have hread := readable h hclean hinfo
  have hops := operands_memory ha.cell_eq hc
  constructor
  · rintro ⟨hadd, hcones⟩
    rw [hops] at hcones
    have hadd := hadd cell info ha.cell_eq hc
    have hall : List.Forall₂ (fun port e => Denotes σ e (Γ.readValue info σ (Γ.addressValue val info port)))
        (List.range info.readPorts).reverse es := by
      have hboth := (List.forall₂_and_left (List.range info.readPorts).reverse es).2
        ⟨fun port hmem => List.mem_range.1 (List.mem_reverse.1 hmem), hes⟩
      refine hboth.imp fun port part ⟨hlt, hpart⟩ => ?_
      exact hpart.denotes hread hadd hlt (hcones _ (List.mem_map.2 ⟨port, List.mem_range.2 hlt, rfl⟩))
    have hjoined := JoiningAux.joinParts_denotes hall he
    unfold Ctx.outputWord
    rw [hc]
    refine JoiningAux.denotes_congr hjoined ?_ fun i _ => rfl
    rw [← hcell, hport]
    exact info.shape.readData_length.symm
  · intro hlow
    have hports : ∀ {port}, port < info.readPorts →
        info.Addressable ∧ Γ.AddressableCone (portBits (info.cell.connection "RD_ADDR") port info.abits) := by
      intro port hlt
      obtain ⟨part, hmem, hpart⟩ := exists_of_forall₂ hes (List.mem_reverse.2 (List.mem_range.2 hlt))
      exact hpart.lowers hlt (hlow.within (within_joinParts he hmem))
    constructor
    · intro cell' info' hcell' hc'
      rw [ha.cell_eq] at hcell'
      cases hcell'
      rw [hc] at hc'
      cases hc'
      exact (hports info.shape.readPorts_pos).1
    · rw [hops]
      intro operand ho
      obtain ⟨port, hmem, rfl⟩ := List.mem_map.1 ho
      exact (hports (List.mem_range.1 hmem)).2

/-! ## Runs -/

/-- What holds of the state of a run: what is kept is exact, while nothing is blocked. -/
structure CacheExact (Γ : Ctx) (s₀ : State) (σ : Hw.St) (val : Nat → Bool) (s : State) : Prop where
  records : s₀.unsupported ⊆ s.unsupported
  cached : ∀ {key e}, s.cache.get? key = some e → s.unsupported = [] → ∀ cell, Asked Γ key cell →
    OutputExact Γ σ val key cell e

/-- A state with a new record is blocked. -/
theorem record_blocked {p : Prop} {s : State} {r : UnsupportedRecord} (h : (s.record r).unsupported = []) : p :=
  absurd h (State.unsupported_record_ne_nil s r)

/-- What a run that records no blocker gives. -/
def exactSpec (h : Valuated Γ s₀ σ val) : RunSpec Γ where
  Inv s := CacheExact Γ s₀ σ val s
  Vec bits src e s := s.unsupported = [] → VectorExact Γ σ val bits src e
  Out key e s := s.unsupported = [] → ∀ cell, Asked Γ key cell → OutputExact Γ σ val key cell e
  Res key cell e s := s.unsupported = [] → Asked Γ key cell → OutputExact Γ σ val key cell e
  Port info port e s := s.unsupported = [] → PortExact Γ σ val info port e
  vec_grows hg hv hclean := hv (List.subset_nil.1 (hclean ▸ hg.unsupported))
  port_grows hg hv hclean := hv (List.subset_nil.1 (hclean ▸ hg.unsupported))
  inv_record {s} hs r := ⟨List.Subset.trans hs.records (State.grows_record s r).unsupported, fun _ hclean => record_blocked hclean⟩
  inv_enter hs _ := ⟨hs.records, hs.cached⟩
  cached hs he := hs.cached he
  cycle _ _ _ hclean := record_blocked hclean
  leave {s key rest cell e} hs _ _ hcell hres := by
    have hout : s.unsupported = [] → ∀ cell', Asked Γ key cell' → OutputExact Γ σ val key cell' e := by
      intro hclean cell' ha
      have heq : cell' = cell := by
        have hget := ha.cell_eq
        rw [hcell] at hget
        exact (Option.some.inj hget).symm
      subst heq
      exact hres hclean ha
    refine ⟨⟨hs.records, ?_⟩, hout⟩
    intro key' e' he
    by_cases hk : key' = key
    · subst hk
      have heq : e = e' := by
        have hget : (s.cache.set key' e).get? key' = some e' := he
        rw [Dict.get?_set_self] at hget
        exact Option.some.inj hget
      subst heq
      exact hout
    · have he' : s.cache.get? key' = some e' := by
        rw [← Dict.get?_set_ne s.cache hk]
        exact he
      exact hs.cached he'
  empty _ _ hclean := record_blocked hclean
  constant _ hr hok _ := exact_constant hr hok
  constantBlocked _ _ _ hclean := record_blocked hclean
  named {s bits src e} _ hr he _ := by
    have hne : bits ≠ [] := by
      rintro rfl
      cases hr
    refine exact_leaf (by rw [hr]; exact ⟨rfl, by decide⟩) ?_
    unfold Ctx.aliasExpr at he
    rcases Option.or_eq_some_iff.1 he with he | ⟨-, he⟩
    · exact vectorAlias_denotes (fun hget => h.input_named (h.prepared.inputs ▸ hget)) hne he
    · exact vectorAlias_denotes (fun hget => h.register_named (h.prepared.registers ▸ hget)) hne he
  output _ hr hout hclean := h.exact_output hr (hout hclean)
  bit _ hr hout hclean := h.exact_bit hr (hout hclean)
  split _ hr hes he hclean := exact_split hr (hes.imp fun _ _ hv => hv hclean) he
  register _ hc _ ha := h.exact_register ha hc
  child _ hc _ ha := Valuated.exact_child ha hc
  blocked _ _ hclean := record_blocked hclean
  unary _ hc he hclean ha := exact_unary ha hc (he hclean)
  binary _ hc hl hr hclean ha := exact_binary h ha hc (hl hclean) (hr hclean)
  mux _ hc hy hn hcond hclean ha := exact_mux h ha hc (hy hclean) (hn hclean) (hcond hclean)
  shiftx _ hc _ _ _ _ ha := by
    have hplain := (plain_comb h ha hc).2
    cases hplain
  shiftxBlocked _ _ _ _ _ hclean := record_blocked hclean
  readInRange {s info port full} _ hw hfull hclean :=
    ⟨full, by rw [Setting.portExpr, if_pos hw], Or.inl hw, hfull hclean⟩
  readChecked {s info port full} _ hw hfill hfull hclean :=
    ⟨full, by rw [Setting.portExpr, if_neg hw], Or.inr hfill, hfull hclean⟩
  readBlocked _ _ _ _ hclean := record_blocked hclean
  memory hs hc hes he hclean ha :=
    exact_memory h (List.subset_nil.1 (hclean ▸ hs.records)) ha hc (hes.imp fun _ _ hv => hv hclean) he

end TranslationAux

open TranslationAux

/-! ## Driven modules -/

namespace Ctx

/-- A plain module in which every bit of a connection is driven, no net twice and none by way of itself. -/
structure Regular (Γ : Ctx) : Prop where
  plain : Γ.Plain
  single : Γ.SingleDriven
  driven : Γ.EveryBitDriven
  acyclic : Γ.Acyclic

/-- The netlist assigns a word to a vector: the word every consistent valuation gives it. -/
def Assigns (Γ : Ctx) (σ : Hw.St) (bits : List Bit) (src : SourceLocation) (v : BitVec bits.length) : Prop :=
  (∃ val, Γ.Consistent σ val) ∧ ∀ val, Γ.Consistent σ val → Γ.vectorWord val bits src = v

end Ctx

namespace TranslationAux

/-- The bits a cell output reads are bits of connections of its cell. -/
theorem operands_connection {Γ : Setting} {s₀ : State} (hp : Prepared Γ.ctx.toSetting Γ.ctx s₀) {key : String × String}
    {operand : List Bit × SourceLocation} (ho : operand ∈ Γ.ctx.operands key) {bit : Bit} (hbit : bit ∈ operand.1) :
    ∃ cell port, Γ.ctx.module.cells.get? key.1 = some cell ∧ bit ∈ cell.connection port := by
  cases hcell : Γ.ctx.module.cells.get? key.1 with
  | none =>
    unfold Ctx.operands at ho
    rw [hcell] at ho
    cases ho
  | some cell =>
    cases hc : Γ.ctx.cellSource key.1 cell key.2 with
    | comb kind =>
      rw [operands_comb hcell hc] at ho
      obtain ⟨port, -, rfl⟩ := List.mem_map.1 ho
      exact ⟨cell, port, rfl, hbit⟩
    | memory info =>
      rw [operands_memory hcell hc] at ho
      obtain ⟨port, -, rfl⟩ := List.mem_map.1 ho
      have hinfo := (hp.memory (Ctx.cellSource_of_eq hc).2.2).cell_eq
      rw [hcell] at hinfo
      rw [Option.some.inj hinfo]
      exact ⟨_, "RD_ADDR", rfl, List.mem_of_mem_drop (List.mem_of_mem_take hbit)⟩
    | register =>
      rw [operands_leaf hcell (by rw [hc]; intro _ h; cases h) (by rw [hc]; intro _ h; cases h)] at ho
      cases ho
    | child =>
      rw [operands_leaf hcell (by rw [hc]; intro _ h; cases h) (by rw [hc]; intro _ h; cases h)] at ho
      cases ho
    | blocked kind detail =>
      rw [operands_leaf hcell (by rw [hc]; intro _ h; cases h) (by rw [hc]; intro _ h; cases h)] at ho
      cases ho

/-- The bits of a connection are driven. -/
theorem driven_connection {Γ : Ctx} (h : Γ.Regular) {cellName : String} {cell : Cell}
    (hcell : Γ.module.cells.get? cellName = some cell) {port : String} {bit : Bit} (hbit : bit ∈ cell.connection port) :
    Γ.IsDriven bit := by
  unfold Cell.connection Dict.getD at hbit
  cases hget : cell.connections.get? port with
  | none =>
    rw [hget] at hbit
    cases hbit
  | some bits =>
    rw [hget] at hbit
    exact h.driven _ (Dict.mem_entries_of_get? hcell) _ (Dict.mem_entries_of_get? hget) bit hbit

/-- A driven net is a named one or one a cell output drives. -/
theorem route_driven {Γ : Ctx} {s₀ : State} (hp : Prepared Γ.toSetting Γ s₀) {id : Nat} (h : Γ.IsDriven (.net id)) :
    Γ.route [.net id] ≠ .split := by
  intro hr
  obtain ⟨-, -, halias, -, hdriver⟩ := Ctx.route_of_eq hr
  rcases h with h | h
  · cases h
  · obtain ⟨⟨bit, place⟩, hplace, hbit⟩ := List.mem_map.1 h
    simp only at hbit
    subst hbit
    rcases List.mem_append.1 hplace with hplace | hplace
    · obtain ⟨entry, hentry, hmem⟩ := List.mem_flatMap.1 hplace
      obtain ⟨⟨bit, offset⟩, hpair, heq⟩ := List.mem_map.1 hmem
      cases heq
      obtain ⟨hentry, hdirection⟩ := List.mem_filter.1 hentry
      have hsome := inputs_isSome hentry (of_decide_eq_true hdirection)
      obtain ⟨name, hname⟩ := Option.isSome_iff_exists.1 hsome
      have hkey : entry.2.bits ∈ Γ.inputs.keys := by
        rw [hp.inputs]
        exact List.mem_map.2 ⟨_, Dict.mem_entries_of_get? hname, rfl⟩
      have hnet : Bit.net id ∈ entry.2.bits := List.mem_of_getElem? (List.mem_zipIdx_iff_getElem?.1 hpair)
      have hin : isAlias Γ.inputs [.net id] = true := by
        unfold isAlias
        rw [Bool.or_eq_true]
        exact Or.inr (List.any_eq_true.2 ⟨_, hkey, decide_eq_true hnet⟩)
      rw [hin] at halias
      cases halias
    · obtain ⟨⟨bit, driver, file⟩, hmem, heq⟩ := List.mem_map.1 hplace
      cases heq
      have hsome := hp.driver_isSome hmem
      have hnone : Γ.drivers.get? id = none := hdriver
      rw [hnone] at hsome
      cases hsome

/-- Nothing undriven is called for in a regular module. -/
theorem drivenCone_of_regular {Γ : Setting} (h : Γ.ctx.Regular) {bits : List Bit} (hbits : ∀ bit ∈ bits, Γ.ctx.IsDriven bit)
    (avoid : List (String × String)) : Γ.ctx.DrivenCone avoid bits := by
  refine Avoiding.clear_of_closed (p := fun bits => ∀ bit ∈ bits, Γ.ctx.IsDriven bit) ?_ ?_ hbits
  · rintro bits hdriven ⟨id, rfl, hr⟩
    exact route_driven (prepared_ctx Γ) (hdriven _ List.mem_cons_self) hr
  · rintro bits bits' hdriven ⟨label, hcall, -⟩ bit hbit
    cases hcall with
    | output _ ho =>
      obtain ⟨cell, port, hcell, hconnection⟩ := operands_connection (prepared_ctx Γ) ho hbit
      exact driven_connection h hcell hconnection
    | split _ hmem =>
      rw [List.mem_singleton] at hbit
      exact hbit ▸ hdriven _ hmem

/-- A regular module assigns a word to every vector of driven bits, whatever the state. -/
theorem exists_assigned {Γ : Setting} (h : Γ.ctx.Regular) {bits : List Bit} (hbits : ∀ bit ∈ bits, Γ.ctx.IsDriven bit)
    (σ : Hw.St) (src : SourceLocation) :
    ∃ val, Γ.ctx.Consistent σ val ∧ Γ.ctx.Assigns σ bits src (Γ.ctx.vectorWord val bits src) := by
  obtain ⟨val, hval⟩ := Ctx.exists_consistent h.acyclic h.single σ
  have hnet : ∀ {id}, Γ.ctx.IsDriven (.net id) → .net id ∈ Γ.ctx.places.map Prod.fst :=
    fun hid => hid.resolve_left Bool.false_ne_true
  have hread : ∀ id ∈ Γ.ctx.readNets, .net id ∈ Γ.ctx.places.map Prod.fst := by
    intro id hid
    obtain ⟨key, operand, ho, hbit⟩ := Ctx.of_mem_readNets hid
    obtain ⟨cell, port, hcell, hconnection⟩ := operands_connection (prepared_ctx Γ) ho hbit
    exact hnet (driven_connection h hcell hconnection)
  refine ⟨val, hval, ⟨val, hval⟩, fun val' hval' => vectorWord_congr _ (fun id hid => ?_) src⟩
  exact Ctx.consistent_unique h.acyclic h.single hval' hval hread (hnet (hbits _ hid))

end TranslationAux

/-! ## The result -/

/-- An expression denotes the word the netlist assigns to a vector, in every state. -/
def Setting.Exact (Γ : Setting) (bits : List Bit) (src : SourceLocation) (e : Expr) : Prop :=
  ∀ σ, ∃ v, Γ.ctx.Assigns σ bits src v ∧ Denotes σ e v

/-- A request over a regular module gives an expression; when nothing is blocked, it is the word the netlist assigns to the
vector, exactly when every memory that is read for it is addressable. -/
theorem translation_exact_iff (Γ : Setting) (hΓ : Γ.ctx.Regular) {s : State} (hs : Γ.Reachable s) {bits : List Bit}
    (hbits : ∀ bit ∈ bits, Γ.ctx.IsDriven bit) (src : SourceLocation) :
    (∃ e s', Γ.Returns s bits src e s') ∧
      ∀ e s', Γ.Returns s bits src e s' → s'.unsupported = [] → (Γ.Exact bits src e ↔ Γ.ctx.AddressableCone bits) := by
  have hp := prepared_ctx Γ
  constructor
  · exact (returns_iff_drivenCone hs bits src).2 (drivenCone_of_regular hΓ hbits [])
  · rintro e s' ⟨fuel, hrun⟩ hclean
    have hexact : ∀ {σ val}, Γ.ctx.Consistent σ val → VectorExact Γ.ctx σ val bits src e := by
      intro σ val hval
      have h : Valuated Γ.ctx Γ.start σ val := ⟨hp, hΓ.plain, hval⟩
      have hstart : (exactSpec h).Inv Γ.start := by
        refine ⟨List.Subset.refl _, fun {key e} he => ?_⟩
        rw [hp.cache] at he
        cases he
      exact ((exactSpec h).run fuel bits src s (hs.inv (exactSpec h) hstart) e s' hrun).2.2 hclean
    constructor
    · intro hall
      obtain ⟨v, ⟨⟨val, hval⟩, -⟩, hden⟩ := hall ⟨fun _ _ => 0, fun _ _ _ => 0⟩
      exact (hexact hval).lowers hden.lowers
    · intro hcone σ
      obtain ⟨val, hval, hassigned⟩ := exists_assigned hΓ hbits σ src
      exact ⟨_, hassigned, (hexact hval).denotes hcone⟩

/-- A module that reads a memory of four bits at an input port of some bits. -/
def rom (address : List Bit) : Setting where
  name := "rom"
  module := {
    src := "rom.v:1.1-9.10"
    ports := ⟨[("a", ⟨"input", address⟩), ("y", ⟨"output", [.net 4]⟩)], by simp⟩
    netnames := Dict.empty
    cells := ⟨[("u", {
      type := "$mem_v2"
      src := "rom.v:5.14-5.20"
      parameters := ⟨[("ABITS", .int address.length), ("INIT", .str "0110"), ("OFFSET", .int 0), ("RD_PORTS", .int 1),
        ("SIZE", .int 4), ("WIDTH", .int 1), ("WR_PORTS", .int 0)], by simp⟩
      portDirections := ⟨[("RD_ADDR", "input"), ("RD_DATA", "output")], by decide⟩
      connections := ⟨[("RD_ADDR", address), ("RD_DATA", [.net 4])], by simp⟩ })], by simp⟩ }
  modules := ["rom"]
  policy := some ⟨[{
    name := "reads", module := "rom", file := "rom.v", lineStart := 1, lineEnd := 9
    classification := .uninitializedStateOrMemory, fill := .zero, rationale := "never read", site := none
    name_ne := by decide, rationale_ne := by decide, lines_le := by decide }], by simp, by simp⟩
  sha256 := fun text => text

/-- Two address bits for four words, and one. -/
def romWide : Setting := rom [.net 2, .net 3]

def romNarrow : Setting := rom [.net 2]

namespace TranslationAux

/-- The module is acyclic when its output is no address bit. -/
theorem rom_acyclic {address : List Bit}
    (h : ∀ operand ∈ (rom address).ctx.operands ("u", "RD_DATA"), .net 4 ∉ operand.1) : (rom address).ctx.Acyclic := by
  have hfeeds : ∀ {source target}, (rom address).ctx.Feeds source target → source ≠ 4 ∧ target = 4 := by
    rintro source target ⟨driver, hplace, operand, ho, hsource⟩
    obtain ⟨cell, hcell, hport, hget⟩ := places_output hplace
    rw [ctx_toSetting] at hcell
    have hentry := Dict.mem_entries_of_get? hcell
    obtain ⟨cellName, port, offset⟩ := driver
    cases List.mem_singleton.1 hentry
    cases List.mem_singleton.1 hport
    have htarget : Bit.net target ∈ [Bit.net 4] := List.mem_of_getElem? hget
    refine ⟨?_, Bit.net.inj (List.mem_singleton.1 htarget)⟩
    rintro rfl
    exact h operand ho hsource
  intro id hcycle
  obtain ⟨c, hfirst⟩ : ∃ c, (rom address).ctx.Feeds id c := by
    rcases Relation.TransGen.head'_iff.1 hcycle with ⟨c, hc, -⟩
    exact ⟨c, hc⟩
  obtain ⟨b, -, hlast⟩ := Relation.TransGen.tail'_iff.1 hcycle
  exact (hfeeds hfirst).1 (hfeeds hlast).2

/-- What is said of a module before it is prepared. -/
theorem regular {Γ : Setting} (hplain : Γ.Plain) (hsingle : Γ.SingleDriven) (hdriven : Γ.EveryBitDriven)
    (hacyclic : Γ.ctx.Acyclic) : Γ.ctx.Regular := by
  refine ⟨?_, ?_, ?_, hacyclic⟩
  · rw [ctx_toSetting]
    exact hplain
  · rw [ctx_toSetting]
    exact hsingle
  · rw [ctx_toSetting]
    exact hdriven

/-- A run whose result is known by what it records and whether it lowers. -/
theorem exists_run (Γ : Setting) (s : State) (bits : List Bit) (src : SourceLocation) (fuel : Nat) (lowers : Bool)
    (h : ((expr Γ.ctx fuel bits src s).map fun r => (r.2.unsupported.isEmpty, (lowerExpr? r.1).toBool)) = some (true, lowers)) :
    ∃ e s', Γ.Returns s bits src e s' ∧ s'.unsupported = [] ∧ (lowerExpr? e).toBool = lowers := by
  obtain ⟨⟨e, s'⟩, hrun, heq⟩ := Option.map_eq_some_iff.1 h
  obtain ⟨hempty, hlow⟩ := Prod.mk.inj heq
  exact ⟨e, s', ⟨fuel, hrun⟩, List.isEmpty_iff.1 hempty, hlow⟩

end TranslationAux

/-- With an address for every word, the output of that module is exact. -/
theorem translation_exact_wide : ∃ e s', romWide.Returns romWide.start [.net 4] romWide.moduleSource e s' ∧
    s'.unsupported = [] ∧ romWide.Exact [.net 4] romWide.moduleSource e := by
  have hregular : romWide.ctx.Regular := regular (by decide) (by decide) (by decide) (rom_acyclic (by decide +kernel))
  have hdriven : ∀ bit ∈ [Bit.net 4], romWide.ctx.IsDriven bit := by
    rw [ctx_toSetting]
    decide
  obtain ⟨e, s', hrun, hclean, -⟩ := exists_run romWide romWide.start [.net 4] romWide.moduleSource 4 true (by decide +kernel)
  have hkey : (romWide.ctx.route [.net 4]).output? = some ("u", "RD_DATA") := by decide +kernel
  have hmemory : ((romWide.ctx.memoryCells.get? "u").all fun info => info.Addressable) = true := by decide +kernel
  have haddress : ∀ operand ∈ romWide.ctx.operands ("u", "RD_DATA"),
      (romWide.ctx.route operand.1).output? = none ∧ romWide.ctx.route operand.1 ≠ .split := by decide +kernel
  have hcone : romWide.ctx.AddressableCone [.net 4] := by
    refine (addressable_output hkey).2 ⟨fun cell info hcell hc => ?_, fun operand ho => addressable_leaf (haddress operand ho)⟩
    have hinfo := (Ctx.cellSource_of_eq hc).2.2
    rw [hinfo] at hmemory
    exact of_decide_eq_true hmemory
  have hexact := (translation_exact_iff romWide hregular Setting.Reachable.start hdriven romWide.moduleSource).2 e s' hrun hclean
  exact ⟨e, s', hrun, hclean, hexact.2 hcone⟩

/-- With one address bit for four words it has no lowering, although nothing is blocked. -/
theorem not_translation_exact : romNarrow.ctx.Regular ∧ (∀ bit ∈ [Bit.net 4], romNarrow.ctx.IsDriven bit) ∧
    ∃ e s', romNarrow.Returns romNarrow.start [.net 4] romNarrow.moduleSource e s' ∧ s'.unsupported = [] ∧
      ¬romNarrow.Exact [.net 4] romNarrow.moduleSource e := by
  refine ⟨regular (by decide) (by decide) (by decide) (rom_acyclic (by decide +kernel)), ?_, ?_⟩
  · rw [ctx_toSetting]
    decide
  · obtain ⟨e, s', hrun, hclean, hlow⟩ := exists_run romNarrow romNarrow.start [.net 4] romNarrow.moduleSource 4 false
      (by decide +kernel)
    refine ⟨e, s', hrun, hclean, fun hexact => ?_⟩
    obtain ⟨v, -, hden⟩ := hexact ⟨fun _ _ => 0, fun _ _ _ => 0⟩
    obtain ⟨x, hx⟩ := hden.lowers
    rw [hx] at hlow
    cases hlow

end LoomImport
