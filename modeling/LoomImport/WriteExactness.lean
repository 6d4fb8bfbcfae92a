import LoomImport.Writes
import LoomImport.Memories
import LoomImport.Widths
import LoomImport.Lib.MaskedWrites

/-!
# The writes of a memory are those of its ports

The whole-word writes of a memory, committed in order, against the write ports of the source, applied one after the other, bit by bit.
They agree for every run, every state and all values of the ports, exactly when the memory is addressable.
-/

namespace LoomImport

open ImportIR Words StateOption MaskedWrites

/-! ## The ports of the source -/

/-- The values of a write port. -/
structure PortValue (info : MemoryInfo) where
  address : BitVec info.abits
  enable : BitVec info.width
  data : BitVec info.width

namespace PortValue

variable {info : MemoryInfo}

/-- A port overwrites a bit of a word: its address is the word's, in range, and the bit is enabled. -/
def overwrites (value : PortValue info) (a b : Nat) : Bool :=
  value.address.toNat = a && a < info.size && value.enable.getLsbD b

/-- The memory after a port. -/
def apply (memory : Nat → BitVec info.width) (value : PortValue info) : Nat → BitVec info.width :=
  fun a => ofBits info.width fun b => if value.overwrites a b then value.data.getLsbD b else (memory a).getLsbD b

/-- A port as a masked write. -/
def write (value : PortValue info) : Write info.width where
  address := value.address.toNat % info.size
  mask := if value.address.toNat < info.size then value.enable else 0
  data := value.data

theorem apply_eq (memory : Nat → BitVec info.width) (value : PortValue info) : value.apply memory = value.write.apply memory := by
  funext a
  apply BitVec.eq_of_getLsbD_eq
  intro b hb
  rw [PortValue.apply, getLsbD_ofBits, decide_eq_true hb, Bool.true_and]
  by_cases hin : value.address.toNat < info.size
  · have hmod : value.address.toNat % info.size = value.address.toNat := Nat.mod_eq_of_lt hin
    unfold Write.apply PortValue.write
    simp only [hmod, if_pos hin]
    by_cases ha : a = value.address.toNat
    · subst ha
      rw [if_pos rfl, getLsbD_merge]
      simp [overwrites, hin]
    · have hno : value.overwrites a b = false := by
        simp [overwrites, Ne.symm ha]
      rw [if_neg ha, hno, if_neg Bool.false_ne_true]
  · have hmask : value.write.mask = 0 := if_neg hin
    have hno : value.overwrites a b = false := by
      simp only [overwrites, Bool.and_eq_false_iff, decide_eq_false_iff_not]
      by_cases ha : value.address.toNat = a
      · exact Or.inl (Or.inr (ha ▸ hin))
      · exact Or.inl (Or.inl ha)
    rw [Write.apply_of_mask_zero hmask, hno, if_neg Bool.false_ne_true]

end PortValue

/-- The memory after the ports, the first one first. -/
def sourceWrites {info : MemoryInfo} (values : List (PortValue info)) (memory : Nat → BitVec info.width) :
    Nat → BitVec info.width := values.foldl PortValue.apply memory

theorem sourceWrites_eq {info : MemoryInfo} (values : List (PortValue info)) (memory : Nat → BitVec info.width) :
    sourceWrites values memory = applyAll (values.map PortValue.write) memory := by
  unfold sourceWrites
  induction values generalizing memory with
  | nil => rfl
  | cons value values ih => rw [List.foldl_cons, List.map_cons, applyAll_cons, PortValue.apply_eq, ih]

/-! ## Runs -/

/-- The expressions of a write port. -/
def writeOperands (expr : List Bit → SourceLocation → M Expr) (info : MemoryInfo) (port : Nat) : M WriteOperands := do
  let full ← expr (portBits (info.cell.connection "WR_ADDR") port info.abits) info.source
  let enable ← expr (portBits (info.cell.connection "WR_EN") port info.width) info.source
  let data ← expr (portBits (info.cell.connection "WR_DATA") port info.width) info.source
  pure ⟨full, enable, data⟩

/-- A write port, over its expressions. -/
def MemoryInfo.writePort (info : MemoryInfo) (port : Nat) (operands : WriteOperands) : WritePort where
  address := sliceExpr operands.full 0 info.addressWidth info.source
  mask :=
    if info.abits = info.addressWidth then operands.enable
    else .mux info.width
      (.binary 1 .unsignedLessThan operands.full (.literal info.abits info.size info.source) info.source)
      operands.enable (.literal info.width 0 info.source) info.source
  data := operands.data
  key := info.staticKey port

theorem writePort_eq (expr : List Bit → SourceLocation → M Expr) (info : MemoryInfo) (port : Nat) :
    writePort expr info port = info.writePort port <$> writeOperands expr info port := by
  unfold writePort writeOperands memoryAddress MemoryInfo.writePort
  by_cases hw : info.abits = info.addressWidth
  · simp [hw]
  · simp [hw]

/-- A run that comes to an accepted memory with write ports: from a state between two requests, through the translations of the
expressions of its ports. -/
structure WriteRun where
  Γ : Setting
  cellName : String
  info : MemoryInfo
  accepted : Γ.ctx.memoryCells.get? cellName = some info
  writable : info.writePorts ≠ 0
  fuel : Nat
  before : State
  reachable : Γ.Reachable before
  operands : List WriteOperands
  after : State
  operands_eq : (List.range info.writePorts).mapM (writeOperands (expr Γ.ctx fuel) info) before = some (operands, after)

namespace WriteRun

/-- The memory is declared, and the run leaves a state. -/
def Returns (run : WriteRun) (memory : Memory) (after : State) : Prop :=
  writableMemory (expr run.Γ.ctx run.fuel) run.info run.before = some (memory, after)

/-- The values of the ports in a state. -/
def Valued (run : WriteRun) (σ : Hw.St) (values : List (PortValue run.info)) : Prop :=
  List.Forall₂ (fun operands value => Denotes σ operands.full value.address ∧ Denotes σ operands.enable value.enable ∧
    Denotes σ operands.data value.data) run.operands values

/-- The lowering accepts the expressions of the ports. -/
abbrev OperandsLower (run : WriteRun) : Prop :=
  ∀ operands ∈ run.operands, Lowers operands.full ∧ Lowers operands.enable ∧ Lowers operands.data

/-- The run returns a declaration, it is accepted, and its writes, committed in order, leave the memory the ports leave and everything
else as it was. -/
def CommitsExactly (run : WriteRun) (σ : Hw.St) (values : List (PortValue run.info)) : Prop :=
  ∃ memory after acts, run.Returns memory after ∧ lowerMemory? memory = .ok acts ∧
    (∀ a, ((Hw.sequence acts).run σ σ).mems run.info.loomName a run.info.width =
      sourceWrites values (fun a => σ.mems run.info.loomName a run.info.width) a) ∧
    (∀ name a w, name ≠ run.info.loomName ∨ w ≠ run.info.width → ((Hw.sequence acts).run σ σ).mems name a w = σ.mems name a w) ∧
    ((Hw.sequence acts).run σ σ).regs = σ.regs

end WriteRun

namespace WritesAux

open MemoriesAux ConstantsAux

variable {σ : Hw.St} {info : MemoryInfo}

/-! ## Constant addresses -/

theorem natOfBits_injective {l l' : List Bool} (hlen : l.length = l'.length) (h : natOfBits l = natOfBits l') : l = l' := by
  refine List.ext_getElem hlen fun i hi hi' => ?_
  have hbit := congrArg (fun n => n.testBit i) h
  simp only [testBit_natOfBits, List.getD_eq_getElem?_getD, List.getElem?_eq_getElem hi, List.getElem?_eq_getElem hi',
    Option.getD_some] at hbit
  exact hbit

/-- Known bits are told apart by the ones. -/
theorem isOne_injective {bits bits' : List Bit} (hk : bits.all Bit.isKnown = true) (hk' : bits'.all Bit.isKnown = true)
    (h : bits.map Bit.isOne = bits'.map Bit.isOne) : bits = bits' := by
  have hlen : bits.length = bits'.length := by
    have hl := congrArg List.length h
    rwa [List.length_map, List.length_map] at hl
  have known : ∀ {b : Bit}, b.isKnown = true → b = .const (if b.isOne then '1' else '0') := by
    intro b hb
    rcases b with id | c
    · cases hb
    · simp only [Bit.isKnown, Bool.or_eq_true, decide_eq_true_eq] at hb
      rcases hb with rfl | rfl
      · rfl
      · rfl
  refine List.ext_getElem hlen fun i hi hi' => ?_
  have hone : bits[i].isOne = bits'[i].isOne := by
    have hget := congrArg (fun l => l[i]?) h
    simpa [List.getElem?_map, List.getElem?_eq_getElem hi, List.getElem?_eq_getElem hi'] using hget
  rw [known (List.all_eq_true.1 hk _ (List.getElem_mem hi)), known (List.all_eq_true.1 hk' _ (List.getElem_mem hi')), hone]

/-- A constant address as a number. -/
def keyValue (raw : List Bit) : Nat := natOfBits (raw.map Bit.isOne)

/-- What a constant address says of the write at it: where it is, and that it is of no bits when it is out of range. -/
structure KeyFits (info : MemoryInfo) (raw : List Bit) (write : Write info.width) : Prop where
  known : raw.all Bit.isKnown = true
  length_eq : raw.length = info.abits
  address_eq : write.address = keyValue raw % info.size
  mask_eq : ¬keyValue raw < info.size → write.mask = 0

/-- Constant addresses that differ as the source has them may be the same once they are cut, but then one is out of range. -/
theorem keyed (info : MemoryInfo) : Keyed (KeyFits info) where
  address_eq h h' := h.address_eq.trans h'.address_eq.symm
  apart {k k' x y} hne h h' := by
    by_cases hin : keyValue k < info.size
    · by_cases hin' : keyValue k' < info.size
      · refine Or.inl fun ha => hne ?_
        rw [h.address_eq, h'.address_eq, Nat.mod_eq_of_lt hin, Nat.mod_eq_of_lt hin'] at ha
        have hmap : (k.map Bit.isOne).length = (k'.map Bit.isOne).length := by
          rw [List.length_map, List.length_map, h.length_eq, h'.length_eq]
        exact isOne_injective h.known h'.known (natOfBits_injective hmap ha)
      · exact Or.inr (Or.inr (h'.mask_eq hin'))
    · exact Or.inr (Or.inl (h.mask_eq hin))
  join {k x y} h h' := by
    refine ⟨h.known, h.length_eq, h.address_eq, fun hin => ?_⟩
    show x.mask ||| y.mask = 0
    rw [h.mask_eq hin, h'.mask_eq hin]
    exact BitVec.or_self

/-- A vector of known bits is translated to a literal. -/
theorem expr_known {Γ : Ctx} {fuel : Nat} {bits : List Bit} {src : SourceLocation} {s s' : State} {e : Expr} (hne : bits ≠ [])
    (hknown : bits.all Bit.isKnown = true) (h : expr Γ fuel bits src s = some (e, s')) :
    e = .literal bits.length (keyValue bits) src := by
  have hconst : bits.all Bit.isConst = true := by
    refine List.all_eq_true.2 fun bit hbit => ?_
    have hk := List.all_eq_true.1 hknown bit hbit
    rcases bit with id | c
    · cases hk
    · rfl
  have hno : bits.any Bit.isUnknown = false := by
    refine List.any_eq_false.2 fun bit hbit => ?_
    have hk := List.all_eq_true.1 hknown bit hbit
    rcases bit with id | c
    · cases hk
    · simp only [Bit.isKnown, Bool.or_eq_true, decide_eq_true_eq] at hk
      rcases hk with rfl | rfl
      · decide
      · decide
  have hroute : Γ.route bits = .constant := by
    unfold Ctx.route
    rw [if_neg hne, if_pos hconst]
  cases fuel with
  | zero => cases h
  | succ fuel =>
    have hok : Γ.constantOk bits src = true := by
      unfold Setting.constantOk
      rw [hno]
      rfl
    have hexpr : Γ.constantExpr bits src = .literal bits.length (keyValue bits) src := by
      unfold Setting.constantExpr
      rw [hno, if_neg Bool.false_ne_true]
      rfl
    rw [expr, exprBody_eq, hroute] at h
    simp only [RunsAux.checked, hok, if_true, hexpr] at h
    exact (congrArg Prod.fst (Option.some.inj h)).symm

/-! ## Ports -/

/-- The address of a port at a constant address is a literal. -/
def StaticOperands (info : MemoryInfo) (port : Nat) (operands : WriteOperands) : Prop :=
  ∀ raw, info.staticKey port = some raw → operands.full = .literal info.abits (keyValue raw) info.source

/-- A port denotes a masked write, and its key is right about it. -/
structure PortDenotes (σ : Hw.St) (info : MemoryInfo) (port : WritePort) (tagged : Option (List Bit) × Write info.width) :
    Prop where
  key_eq : port.key = tagged.1
  address : ∃ a : BitVec info.addressWidth, Denotes σ port.address a ∧ a.toNat = tagged.2.address
  mask : Denotes σ port.mask tagged.2.mask
  data : Denotes σ port.data tagged.2.data
  fits : ∀ raw, tagged.1 = some raw → KeyFits info raw tagged.2

/-- The memory has a word for every address it is cut to, and an address. -/
theorem writable_widths (hadd : info.Addressable) (hw : info.writePorts ≠ 0) :
    0 < info.addressWidth ∧ info.addressWidth ≤ info.abits := by
  obtain ⟨hle, hpos⟩ := (addressable_iff info).1 hadd
  exact ⟨hpos.resolve_right hw, hle⟩

/-- A port over the expressions of its address, mask and data. -/
theorem writePort_denotes (hadd : info.Addressable) (hw : info.writePorts ≠ 0) {port : Nat} (hport : port < info.writePorts)
    {operands : WriteOperands} (hstatic : StaticOperands info port operands) {value : PortValue info}
    (hfull : Denotes σ operands.full value.address) (henable : Denotes σ operands.enable value.enable)
    (hdata : Denotes σ operands.data value.data) :
    PortDenotes σ info (info.writePort port operands) (info.staticKey port, value.write) := by
  obtain ⟨hpos, hle⟩ := writable_widths hadd hw
  have hsize := size_eq info
  refine ⟨rfl, ⟨_, hfull.sliceExpr hpos (by omega) info.source, ?_⟩, ?_, hdata, ?_⟩
  · rw [toNat_cut, ← hsize]
    rfl
  · show Denotes σ (if info.abits = info.addressWidth then operands.enable else _)
      (if value.address.toNat < info.size then value.enable else 0)
    by_cases hwidth : info.abits = info.addressWidth
    · have hlt : value.address.toNat < info.size := by
        rw [hsize, ← hwidth]
        exact value.address.isLt
      rw [if_pos hwidth, if_pos hlt]
      exact henable
    · have hlt : info.size < 2 ^ info.abits := by
        rw [hsize]
        exact Nat.pow_lt_pow_right (by decide) (by omega)
      have hrange := hfull.compare .unsignedLessThan rfl (Denotes.literal hfull.pos info.size info.source) info.source
      rw [BinaryOp.compare, ShiftsAux.ult_ofNat hlt] at hrange
      have hmux := Denotes.muxBool hrange henable (Denotes.literal info.shape.width_pos 0 info.source) info.source
      simp only [decide_eq_true_eq] at hmux
      rw [if_neg hwidth]
      exact hmux
  · intro raw hraw
    have haddress : value.address.toNat = keyValue raw := by
      rw [hstatic raw hraw] at hfull
      have hlit := Denotes.literal (σ := σ) info.shape.abits_pos (keyValue raw) info.source
      rw [hfull.unique hlit, BitVec.toNat_ofNat, Nat.mod_eq_of_lt]
      have hlt := natOfBits_map_lt Bit.isOne raw
      unfold MemoryInfo.staticKey at hraw
      simp only at hraw
      split at hraw
      · cases hraw
        rw [portBits_length info.shape.writeAddr_length hport] at hlt
        exact hlt
      · cases hraw
    unfold MemoryInfo.staticKey at hraw
    simp only at hraw
    split at hraw
    · rename_i hknown
      cases hraw
      refine ⟨hknown, portBits_length info.shape.writeAddr_length hport, ?_, fun hout => ?_⟩
      · rw [← haddress]
        rfl
      · rw [← haddress] at hout
        exact if_neg hout
    · cases hraw

/-- A merge of expressions. -/
theorem mergeExpr_denotes {old mask data : Expr} {vo vm vd : BitVec info.width} (ho : Denotes σ old vo) (hm : Denotes σ mask vm)
    (hd : Denotes σ data vd) : Denotes σ (info.mergeExpr old mask data) (merge vo vm vd) :=
  (ho.apply .bitAnd rfl (hm.bitNot info.source) info.source).apply .bitOr rfl (hd.apply .bitAnd rfl hm info.source) info.source

/-- Two ports under one key. -/
theorem joinPorts_denotes {old port : WritePort} {key : List Bit} {x y : Write info.width}
    (ho : PortDenotes σ info old (some key, x)) (hp : PortDenotes σ info port (some key, y)) :
    PortDenotes σ info (info.joinPorts old port) (some key, x.join y) := by
  refine ⟨ho.key_eq, ho.address, ho.mask.apply .bitOr rfl hp.mask info.source, mergeExpr_denotes ho.data hp.mask hp.data, ?_⟩
  intro raw hraw
  exact (keyed info).join (ho.fits raw hraw) (hp.fits raw hraw)

/-! ## Groups -/

/-- The leading run of ports at constant addresses, and the others. -/
theorem split_denotes {ports : List WritePort} {tagged : List (Option (List Bit) × Write info.width)}
    (h : List.Forall₂ (PortDenotes σ info) ports tagged) :
    ∃ (keyedWrites : List (List Bit × Write info.width)) (rest : List (Option (List Bit) × Write info.width)),
      tagged = keyedWrites.map (fun e => (some e.1, e.2)) ++ rest ∧
        List.Forall₂ (fun port (e : List Bit × Write info.width) => PortDenotes σ info port (some e.1, e.2))
          (ports.takeWhile fun port => port.key.isSome) keyedWrites ∧
        List.Forall₂ (PortDenotes σ info) (ports.dropWhile fun port => port.key.isSome) rest := by
  induction h with
  | nil => exact ⟨[], [], rfl, List.Forall₂.nil, List.Forall₂.nil⟩
  | @cons port t ports tagged hp hrest ih =>
    cases hkey : port.key with
    | none =>
      refine ⟨[], t :: tagged, rfl, ?_, ?_⟩
      · rw [List.takeWhile_cons, hkey]
        exact List.Forall₂.nil
      · rw [List.dropWhile_cons, hkey]
        exact List.Forall₂.cons hp hrest
    | some key =>
      obtain ⟨keyedWrites, rest, heq, htake, hdrop⟩ := ih
      have hfirst : t = (some key, t.2) := Prod.ext_iff.2 ⟨hp.key_eq.symm.trans hkey, rfl⟩
      refine ⟨(key, t.2) :: keyedWrites, rest, ?_, ?_, ?_⟩
      · rw [List.map_cons, List.cons_append, ← heq, ← hfirst]
      · rw [List.takeWhile_cons, hkey]
        exact List.Forall₂.cons (hfirst ▸ hp) htake
      · rw [List.dropWhile_cons, hkey]
        exact hdrop

/-- The grouped ports do what the ports do. -/
theorem groupPorts_denotes {ports : List WritePort} {tagged : List (Option (List Bit) × Write info.width)}
    (h : List.Forall₂ (PortDenotes σ info) ports tagged) :
    ∃ tagged', List.Forall₂ (PortDenotes σ info) (info.groupPorts ports) tagged' ∧
      ∀ memory, applyAll (tagged'.map Prod.snd) memory = applyAll (tagged.map Prod.snd) memory := by
  obtain ⟨keyedWrites, rest, rfl, htake, hdrop⟩ := split_denotes h
  let related := Dict.Related fun key port (write : Write info.width) => PortDenotes σ info port (some key, write)
  have hempty : related Dict.empty Dict.empty := List.Forall₂.nil
  have hrelated : related ((ports.takeWhile fun port => port.key.isSome).foldl info.groupPort Dict.empty)
      (group keyedWrites) := by
    refine List.rel_foldl ?_ hempty htake
    intro d d' hd port e hp
    have hstep : info.groupPort d port = d.upsert info.joinPorts e.1 port := by
      unfold MemoryInfo.groupPort
      rw [hp.key_eq]
    rw [hstep]
    exact hd.upsert joinPorts_denotes hp
  have hfits : ∀ e ∈ keyedWrites, KeyFits info e.1 e.2 := by
    intro e he
    obtain ⟨i, hi, rfl⟩ := List.getElem_of_mem he
    exact (htake.get (htake.length_eq ▸ hi) hi).fits _ rfl
  refine ⟨(group keyedWrites).entries.map (fun e => (some e.1, e.2)) ++ rest, ?_, fun memory => ?_⟩
  · refine List.rel_append ?_ hdrop
    unfold Dict.values
    rw [List.forall₂_map_left_iff, List.forall₂_map_right_iff]
    refine List.Forall₂.imp (fun e e' he => ?_) hrelated
    obtain ⟨hkey, hp⟩ := he
    exact hkey ▸ hp
  · have hsnd : ∀ l : List (List Bit × Write info.width), (l.map fun e => (some e.1, e.2)).map Prod.snd = l.map Prod.snd := by
      intro l
      rw [List.map_map]
      rfl
    simp only [List.map_append, applyAll_append, hsnd]
    rw [(applyAll_group (keyed info) hfits memory).1]

/-! ## Whole words -/

/-- The words of a memory in a state. -/
def view (info : MemoryInfo) (σ : Hw.St) : Nat → BitVec info.width := fun a => σ.mems info.loomName a info.width

theorem ofBool_and (a b : Bool) : BitVec.ofBool a &&& BitVec.ofBool b = BitVec.ofBool (a && b) := by
  cases a <;> cases b <;> rfl

/-- The accumulated word of a port. -/
theorem accumulated_denotes {earlier : List WritePort} {tagged : List (Option (List Bit) × Write info.width)}
    (h : List.Forall₂ (PortDenotes σ info) earlier tagged) {port : WritePort} {t : Option (List Bit) × Write info.width}
    (hp : PortDenotes σ info port t) :
    Denotes σ (info.accumulated earlier port) (accumulated MemoryInfo.skips (view info σ) tagged t) := by
  obtain ⟨a, haddress, ha⟩ := hp.address
  refine List.rel_foldl (P := fun (e : Expr) (v : BitVec info.width) => Denotes σ e v) ?_ ?_ h
  · intro acc word hacc other e he
    obtain ⟨b, hother, hb⟩ := he.address
    have hskip : MemoryInfo.skips port.key other.key = MemoryInfo.skips t.1 e.1 := by rw [hp.key_eq, he.key_eq]
    cases hs : MemoryInfo.skips t.1 e.1 with
    | true =>
      simp only [hskip, hs, if_true]
      exact hacc
    | false =>
      simp only [hskip, hs, Bool.false_eq_true, if_false]
      have hequal := hother.compare .equal rfl haddress info.source
      have hboth := hequal.apply .bitAnd rfl (he.mask.reduce .reduceBool rfl info.source) info.source
      rw [BinaryOp.apply, ofBool_and] at hboth
      have hmux := Denotes.muxBool hboth (mergeExpr_denotes hacc he.mask he.data) hacc info.source
      have hcondition : (BinaryOp.equal.compare b a && UnaryOp.reduceBool.reduce e.2.mask) = true ↔
          e.2.address = t.2.address ∧ e.2.mask ≠ 0 := by
        simp only [BinaryOp.compare, UnaryOp.reduce, Bool.and_eq_true, decide_eq_true_eq, ← ha, ← hb, BitVec.toNat_inj]
      simp only [hcondition] at hmux
      exact hmux
  · have hread := haddress.memoryRead info.shape.width_pos (loomName_ne info) info.source
    rw [ha] at hread
    exact hread

/-- A generated write denotes the write of a whole word. -/
structure WriteDenotes (σ : Hw.St) (info : MemoryInfo) (write : MemoryWrite) (word : WordWrite info.width) : Prop where
  enable : Denotes σ write.enable (BitVec.ofBool word.enable)
  address : ∃ a : BitVec info.addressWidth, Denotes σ write.address a ∧ a.toNat = word.address
  data : Denotes σ write.data word.data

theorem completeWrites_denotes {rest : List WritePort} {trest : List (Option (List Bit) × Write info.width)}
    (hrest : List.Forall₂ (PortDenotes σ info) rest trest) :
    ∀ {earlier : List WritePort} {tagged : List (Option (List Bit) × Write info.width)},
      List.Forall₂ (PortDenotes σ info) earlier tagged →
      List.Forall₂ (WriteDenotes σ info) (info.completeWrites earlier rest)
        (completeAll MemoryInfo.skips (view info σ) tagged trest) := by
  induction hrest with
  | nil => exact fun _ => List.Forall₂.nil
  | @cons port t rest trest hp _ ih =>
    intro earlier tagged h
    refine List.Forall₂.cons ⟨hp.mask.reduce .reduceBool rfl info.source, hp.address, ?_⟩ ?_
    · exact mergeExpr_denotes (accumulated_denotes h hp) hp.mask hp.data
    · exact ih (List.rel_append h (List.Forall₂.cons hp List.Forall₂.nil))

/-! ## Actions -/

/-- An action commits the write of a whole word, and nothing else. -/
structure Commits (σ : Hw.St) (info : MemoryInfo) (act : Hw.Act) (word : WordWrite info.width) : Prop where
  view_eq : ∀ acc, view info (act.run σ acc) = word.commit (view info acc)
  other : ∀ acc name a w, name ≠ info.loomName ∨ w ≠ info.width → (act.run σ acc).mems name a w = acc.mems name a w
  regs : ∀ acc, (act.run σ acc).regs = acc.regs

/-- A write that denotes the write of a word lowers to an action that commits it. -/
theorem lowerWrite_commits (ports : List WritePort) {write : MemoryWrite} {word : WordWrite info.width}
    (h : WriteDenotes σ info write word) : ∃ act, lowerWrite? (info.memory ports) write = .ok act ∧ Commits σ info act word := by
  obtain ⟨enable, henable, hevalEnable⟩ := h.enable
  obtain ⟨a, ⟨address, haddress, hevalAddress⟩, ha⟩ := h.address
  obtain ⟨data, hdata, hevalData⟩ := h.data
  have hlower : lowerWrite? (info.memory ports) write =
      .ok (.ite enable (.memWrite info.addressWidth info.width info.loomName write.port address data) .skip) := by
    have he : expectWidth 1 ⟨1, enable⟩ write.source = .ok enable := DenotesAux.expectWidth_self _ _
    have hadd : expectWidth (info.memory ports).addressWidth ⟨info.addressWidth, address⟩ write.source = .ok address :=
      DenotesAux.expectWidth_self _ _
    have hd : expectWidth (info.memory ports).dataWidth ⟨info.width, data⟩ write.source = .ok data :=
      DenotesAux.expectWidth_self _ _
    simp only [lowerWrite?, henable, haddress, hdata, DenotesAux.ok_bind, he, hadd, hd]
    rfl
  refine ⟨_, hlower, ?_, ?_, ?_⟩
  · intro acc
    funext x
    simp only [view, Hw.Act.run, hevalEnable, WordWrite.commit]
    cases word.enable with
    | false => rfl
    | true =>
      have hset : (acc.mems.set info.loomName (address.eval σ).toNat (data.eval σ)) info.loomName x info.width =
          if x = word.address then word.data else acc.mems info.loomName x info.width := by
        rw [Hw.MemEnv.set_apply, hevalAddress, ha, hevalData]
      simp only [true_and]
      exact hset
  · intro acc name x w hother
    simp only [Hw.Act.run, hevalEnable]
    cases word.enable with
    | false => rfl
    | true => exact Hw.MemEnv.set_other acc.mems _ x _ hother
  · intro acc
    simp only [Hw.Act.run, hevalEnable]
    cases word.enable with
    | false => rfl
    | true => rfl

/-- Writes that denote the writes of words lower to actions that commit them. -/
theorem lowerWrites_commit {ports : List WritePort} {writes : List MemoryWrite} {words : List (WordWrite info.width)}
    (h : List.Forall₂ (WriteDenotes σ info) writes words) :
    ∃ acts, writes.mapM (lowerWrite? (info.memory ports)) = .ok acts ∧ List.Forall₂ (Commits σ info) acts words := by
  induction h with
  | nil => exact ⟨[], rfl, List.Forall₂.nil⟩
  | @cons write word writes words hw _ ih =>
    obtain ⟨act, hact, hcommits⟩ := lowerWrite_commits ports hw
    obtain ⟨acts, hacts, hall⟩ := ih
    refine ⟨act :: acts, ?_, List.Forall₂.cons hcommits hall⟩
    rw [List.mapM_cons, hact, DenotesAux.ok_bind, hacts, DenotesAux.ok_bind]
    rfl

/-- Running the actions in order commits the words in order. -/
theorem sequence_commits {acts : List Hw.Act} {words : List (WordWrite info.width)}
    (h : List.Forall₂ (Commits σ info) acts words) (acc : Hw.St) :
    view info (acts.foldl (fun s act => act.run σ s) acc) = words.foldl (fun memory word => word.commit memory) (view info acc) ∧
      (∀ name a w, name ≠ info.loomName ∨ w ≠ info.width →
        (acts.foldl (fun s act => act.run σ s) acc).mems name a w = acc.mems name a w) ∧
      (acts.foldl (fun s act => act.run σ s) acc).regs = acc.regs := by
  induction h generalizing acc with
  | nil => exact ⟨rfl, fun _ _ _ _ => rfl, rfl⟩
  | @cons act word acts words hact _ ih =>
    obtain ⟨hview, hother, hregs⟩ := ih (act.run σ acc)
    refine ⟨?_, fun name a w hne => ?_, ?_⟩
    · rw [List.foldl_cons, hview, hact.view_eq]
      rfl
    · rw [List.foldl_cons, hother name a w hne, hact.other acc name a w hne]
    · rw [List.foldl_cons, hregs, hact.regs]

/-! ## The declaration -/

/-- A number from its words. -/
theorem foldr_words (w n v : Nat) :
    ((List.range n).map fun i => (v >>> (i * w)) &&& (2 ^ w - 1)).foldr (fun value rest => value + 2 ^ w * rest) 0 =
      v % 2 ^ (n * w) := by
  induction n generalizing v with
  | zero => simp [Nat.mod_one]
  | succ n ih =>
    have hshift : ∀ i, v >>> ((i + 1) * w) = (v >>> w) >>> (i * w) := by
      intro i
      rw [← Nat.shiftRight_add, Nat.succ_mul, Nat.add_comm]
    rw [List.range_succ_eq_map, List.map_cons, List.map_map, List.foldr_cons]
    simp only [Function.comp_def, Nat.succ_eq_add_one, hshift]
    rw [ih, Nat.zero_mul, Nat.shiftRight_zero, Nat.and_two_pow_sub_one_eq_mod, Nat.succ_mul, Nat.add_comm, Nat.pow_add,
      Nat.mul_comm (2 ^ (n * w)), Nat.mod_mul, Nat.shiftRight_eq_div_pow]
    omega

/-- An image with unknown bits is the choice of one rule. -/
theorem initRefinement_eq {Γ : Setting} (hinit : info.initExpr = Γ.constantExpr info.initBits info.source) {choice : PartialValue}
    (h : info.initRefinement = some choice) :
    ∃ rule, choice = partialConstant (Γ.constantSite info.initBits info.source) rule info.initBits ∧
      info.packedInit = choice.implementationValue := by
  unfold MemoryInfo.initRefinement at h
  split at h
  · rename_i width choice' source hexpr
    cases h
    have hpacked : info.packedInit = choice.implementationValue := by
      unfold MemoryInfo.packedInit
      rw [hexpr]
    rw [hinit] at hexpr
    unfold Setting.constantExpr at hexpr
    split at hexpr
    · split at hexpr
      · rename_i rule _
        cases hexpr
        exact ⟨rule, rfl, hpacked⟩
      · cases hexpr
    · cases hexpr
  · cases h

/-- The declaration of a memory with an address is accepted, whatever its ports. -/
theorem checkMemory_ok {Γ : Setting} (hinit : info.initExpr = Γ.constantExpr info.initBits info.source)
    (hpos : info.addressWidth ≠ 0) (ports : List WritePort) : checkMemory? (info.memory ports) = .ok () := by
  have hsize := size_eq info
  have hlength : info.initBits.length = 2 ^ info.addressWidth * info.width := by rw [info.initBits_length, ← hsize]
  have hdeclared : ¬((info.memory ports).name.isEmpty = true ∨ (info.memory ports).addressWidth = 0 ∨
      (info.memory ports).dataWidth = 0) := by
    rintro (h | h | h)
    · have hname := loomName_ne info
      rw [show info.loomName.isEmpty = true from h] at hname
      cases hname
    · exact hpos h
    · exact Nat.ne_of_gt info.shape.width_pos h
  have hcells : ¬(info.memory ports).init.length ≠ 2 ^ (info.memory ports).addressWidth := by
    show ¬((List.range info.size).map _).length ≠ 2 ^ info.addressWidth
    rw [List.length_map, List.length_range, ← hsize]
    exact fun h => h rfl
  have hvalues : ¬¬((info.memory ports).init.all (· < 2 ^ (info.memory ports).dataWidth)) = true := by
    refine not_not.2 (List.all_eq_true.2 fun value hvalue => ?_)
    obtain ⟨address, -, rfl⟩ := List.mem_map.1 hvalue
    rw [Nat.and_two_pow_sub_one_eq_mod]
    exact decide_eq_true (Nat.mod_lt _ (Nat.two_pow_pos _))
  unfold checkMemory?
  rw [if_neg hdeclared, if_neg hcells, if_neg hvalues]
  cases hrefinement : (info.memory ports).initRefinement with
  | none => rfl
  | some choice =>
    obtain ⟨rule, hrule, hpacked⟩ := initRefinement_eq hinit hrefinement
    have hne : info.initBits ≠ [] := by
      refine List.length_pos_iff.1 ?_
      rw [hlength]
      exact Nat.mul_pos (Nat.two_pow_pos _) info.shape.width_pos
    have hvalid : choice.validB (2 ^ info.addressWidth * info.width) = true := by
      rw [hrule, ← hlength]
      exact partialConstant_valid (siteOf_ne Γ.sha256 _) rule hne
    have hlt : choice.implementationValue < 2 ^ (info.size * info.width) := by
      have hallowed := hvalid
      unfold PartialValue.validB PartialValue.allowedB at hallowed
      simp only [Bool.and_eq_true, decide_eq_true_eq] at hallowed
      rw [hsize]
      exact hallowed.2.1
    have hvalue : ¬choice.implementationValue ≠
        (info.memory ports).init.foldr (fun value rest => value + 2 ^ (info.memory ports).dataWidth * rest) 0 := by
      refine not_not.2 ?_
      show _ = ((List.range info.size).map fun address =>
        (info.packedInit >>> (address * info.width)) &&& (2 ^ info.width - 1)).foldr (fun value rest => value + 2 ^ info.width * rest) 0
      rw [foldr_words, hpacked, Nat.mod_eq_of_lt hlt]
    have hrefines : ¬¬choice.validB (2 ^ (info.memory ports).addressWidth * (info.memory ports).dataWidth) = true :=
      not_not.2 hvalid
    simp only
    rw [if_neg hrefines, if_neg hvalue]
    rfl

/-! ## Runs -/

/-- The declaration, over the expressions of the ports. -/
theorem writableMemory_eq (expr : List Bit → SourceLocation → M Expr) (info : MemoryInfo) :
    writableMemory expr info =
      (fun operands => info.memory (List.zipWith info.writePort (List.range info.writePorts) operands)) <$>
        (List.range info.writePorts).mapM (writeOperands expr info) := by
  have hport : writePort expr info = fun port => info.writePort port <$> writeOperands expr info port :=
    funext (writePort_eq expr info)
  unfold writableMemory
  rw [hport, mapM_map]
  simp

/-- The addresses that are constants are literals in every run. -/
theorem static_operands (run : WriteRun) :
    List.Forall₂ (StaticOperands run.info) (List.range run.info.writePorts) run.operands := by
  have hspec := wlp_mapM (f := writeOperands (expr run.Γ.ctx run.fuel) run.info) (I := fun _ => True) (G := fun _ _ => True)
    (P := fun port operands _ => StaticOperands run.info port operands) (fun _ => trivial) (fun _ _ => trivial)
    (fun _ h => h) (List.range run.info.writePorts) (fun port hport s _ => ?_) run.before trivial
  · exact (hspec _ _ run.operands_eq).2.2
  · simp only [writeOperands, wlp_bind, wlp_pure]
    intro full s₁ hfull enable s₂ _ data s₃ _
    refine ⟨trivial, trivial, fun raw hraw => ?_⟩
    have hlength := portBits_length run.info.shape.writeAddr_length (List.mem_range.1 hport)
    unfold MemoryInfo.staticKey at hraw
    simp only at hraw
    split at hraw
    · rename_i hknown
      cases hraw
      have hne : portBits (run.info.cell.connection "WR_ADDR") port run.info.abits ≠ [] := by
        refine List.length_pos_iff.1 ?_
        rw [hlength]
        exact run.info.shape.abits_pos
      have hliteral := expr_known hne hknown hfull
      rw [hlength] at hliteral
      exact hliteral
    · cases hraw

/-- The expressions of a port have the widths of its vectors in every run. -/
theorem operands_widths (run : WriteRun) : ∀ operands ∈ run.operands, operands.full.width = run.info.abits ∧
    operands.enable.width = run.info.width ∧ operands.data.width = run.info.width := by
  let R := widthSpec (prepared_ctx run.Γ)
  have hstart : R.Inv run.Γ.start := by
    intro key e he
    rw [(prepared run.Γ).cache, Dict.get?_empty] at he
    cases he
  have hspec := wlp_mapM (f := writeOperands (expr run.Γ.ctx run.fuel) run.info) (I := R.Inv) (G := fun _ _ => True)
    (P := fun _ operands _ => operands.full.width = run.info.abits ∧ operands.enable.width = run.info.width ∧
      operands.data.width = run.info.width) (fun _ => trivial) (fun _ _ => trivial)
    (fun _ h => h) (List.range run.info.writePorts) (fun port hport s hs => ?_) run.before (run.reachable.inv R hstart)
  · intro operands hmem
    obtain ⟨i, hi, rfl⟩ := List.getElem_of_mem hmem
    have hall := (hspec _ _ run.operands_eq).2.2
    exact hall.get (hall.length_eq ▸ hi) hi
  · have hvector : ∀ {packed : List Bit} {width : Nat}, packed.length = run.info.writePorts * width → 0 < width →
        ∀ s, R.Inv s → wlp (expr run.Γ.ctx run.fuel (portBits packed port width) run.info.source)
          (fun e s' => R.Inv s' ∧ e.width = width) s := by
      intro packed width hpacked hpos s hs
      have hlength := portBits_length hpacked (List.mem_range.1 hport)
      refine wlp_mono (R.run run.fuel _ _ s hs) ?_
      rintro e s' ⟨hs', -, he⟩
      refine ⟨hs', hlength ▸ he ?_⟩
      rw [← List.length_pos_iff, hlength]
      exact hpos
    simp only [writeOperands, wlp_bind, wlp_pure]
    refine wlp_mono (hvector run.info.shape.writeAddr_length run.info.shape.abits_pos s hs) ?_
    rintro full s₁ ⟨hs₁, hfull⟩
    refine wlp_mono (hvector run.info.shape.writeEn_length run.info.shape.width_pos s₁ hs₁) ?_
    rintro enable s₂ ⟨hs₂, henable⟩
    refine wlp_mono (hvector run.info.shape.writeData_length run.info.shape.width_pos s₂ hs₂) ?_
    rintro data s₃ ⟨hs₃, hdata⟩
    exact ⟨hs₃, trivial, hfull, henable, hdata⟩

/-- Expressions that lower give the ports values in every state. -/
theorem exists_valued (run : WriteRun) (h : run.OperandsLower) (σ : Hw.St) : ∃ values, run.Valued σ values := by
  have key : ∀ l : List WriteOperands, (∀ operands ∈ l, (operands.full.width = run.info.abits ∧
      operands.enable.width = run.info.width ∧ operands.data.width = run.info.width) ∧
      Lowers operands.full ∧ Lowers operands.enable ∧ Lowers operands.data) →
      ∃ values : List (PortValue run.info), List.Forall₂ (fun operands value => Denotes σ operands.full value.address ∧
        Denotes σ operands.enable value.enable ∧ Denotes σ operands.data value.data) l values := by
    intro l
    induction l with
    | nil => exact fun _ => ⟨[], List.Forall₂.nil⟩
    | cons operands l ih =>
      intro hl
      obtain ⟨values, hvalues⟩ := ih fun o ho => hl o (List.mem_cons_of_mem _ ho)
      obtain ⟨⟨hwfull, hwenable, hwdata⟩, hfull, henable, hdata⟩ := hl operands List.mem_cons_self
      obtain ⟨address, haddress⟩ := hfull.denotes hwfull σ
      obtain ⟨enable, henable⟩ := henable.denotes hwenable σ
      obtain ⟨data, hdata⟩ := hdata.denotes hwdata σ
      exact ⟨⟨address, enable, data⟩ :: values, List.Forall₂.cons ⟨haddress, henable, hdata⟩ hvalues⟩
  exact key run.operands fun operands hmem => ⟨operands_widths run operands hmem, h operands hmem⟩

/-- The ports denote the writes of their values. -/
theorem ports_denote (hadd : info.Addressable) (hw : info.writePorts ≠ 0) {l : List Nat} (hl : ∀ port ∈ l, port < info.writePorts)
    {operands : List WriteOperands} (hstatic : List.Forall₂ (StaticOperands info) l operands)
    {values : List (PortValue info)} (hvalues : List.Forall₂ (fun operands (value : PortValue info) =>
      Denotes σ operands.full value.address ∧ Denotes σ operands.enable value.enable ∧ Denotes σ operands.data value.data)
      operands values) :
    ∃ tagged, List.Forall₂ (PortDenotes σ info) (List.zipWith info.writePort l operands) tagged ∧
      tagged.map Prod.snd = values.map PortValue.write := by
  induction hstatic generalizing values with
  | nil =>
    cases hvalues
    exact ⟨[], List.Forall₂.nil, rfl⟩
  | @cons port ops l operands hport _ ih =>
    cases hvalues with
    | @cons _ value _ values hv hvs =>
      obtain ⟨tagged, htagged, hwrites⟩ := ih (fun port hmem => hl port (List.mem_cons_of_mem _ hmem)) hvs
      obtain ⟨hfull, henable, hdata⟩ := hv
      refine ⟨_ :: tagged, List.Forall₂.cons
        (writePort_denotes hadd hw (hl port List.mem_cons_self) hport hfull henable hdata) htagged, ?_⟩
      rw [List.map_cons, List.map_cons, hwrites]

/-- What holds of ports and of ports that are joined holds of the ports after they are grouped. -/
theorem forall_groupPorts (info : MemoryInfo) {P : WritePort → Prop} (hjoin : ∀ {a b}, P a → P b → P (info.joinPorts a b))
    {ports : List WritePort} (h : ∀ port ∈ ports, P port) : ∀ port ∈ info.groupPorts ports, P port := by
  have hgroup : ∀ (l : List WritePort) (d : Dict (List Bit) WritePort), (∀ port ∈ l, P port) → (∀ port ∈ d.values, P port) →
      ∀ port ∈ (l.foldl info.groupPort d).values, P port := by
    intro l
    induction l with
    | nil => exact fun d _ hd => hd
    | cons port l ih =>
      intro d hl hd
      refine ih _ (fun port hmem => hl port (List.mem_cons_of_mem _ hmem)) ?_
      unfold MemoryInfo.groupPort
      cases port.key with
      | none => exact hd
      | some key => exact Dict.forall_values_upsert hjoin hd (hl port List.mem_cons_self)
  intro port hport
  rcases List.mem_append.1 hport with hport | hport
  · exact hgroup _ Dict.empty (fun port hmem => h port ((List.takeWhile_sublist _).subset hmem)) (fun _ hmem => nomatch hmem)
      port hport
  · exact h port ((List.dropWhile_sublist _).subset hport)

theorem groupPorts_ne_nil (info : MemoryInfo) {ports : List WritePort} (h : ports ≠ []) : info.groupPorts ports ≠ [] := by
  cases ports with
  | nil => exact absurd rfl h
  | cons port ports =>
    unfold MemoryInfo.groupPorts
    cases hkey : port.key with
    | none =>
      rw [List.dropWhile_cons, hkey]
      exact List.append_ne_nil_of_right_ne_nil _ (List.cons_ne_nil _ _)
    | some key =>
      refine List.append_ne_nil_of_left_ne_nil ?_ _
      have hgroup : ∀ (l : List WritePort) (d : Dict (List Bit) WritePort), d.entries ≠ [] →
          (l.foldl info.groupPort d).entries ≠ [] := by
        intro l
        induction l with
        | nil => exact fun d hd => hd
        | cons port l ih =>
          intro d hd
          refine ih _ ?_
          unfold MemoryInfo.groupPort
          cases port.key with
          | none => exact hd
          | some key => exact Dict.entries_upsert_ne_nil _ _ _ _
      have hfirst : (info.groupPort Dict.empty port).entries ≠ [] := by
        unfold MemoryInfo.groupPort
        rw [hkey]
        exact Dict.entries_upsert_ne_nil _ _ _ _
      rw [List.takeWhile_cons, hkey, Dict.values, Ne, List.map_eq_nil_iff, Option.isSome_some, if_pos rfl, List.foldl_cons]
      exact hgroup _ _ hfirst

/-- Writes that are passed over do not meet. -/
theorem skips_apart {ports : List WritePort} {tagged : List (Option (List Bit) × Write info.width)}
    (h : List.Forall₂ (PortDenotes σ info) ports tagged) {x y : Option (List Bit) × Write info.width} (hx : x ∈ tagged)
    (hy : y ∈ tagged) (hskip : MemoryInfo.skips x.1 y.1 = true) : x.2.Apart y.2 := by
  have fits : ∀ {t}, t ∈ tagged → ∀ raw, t.1 = some raw → KeyFits info raw t.2 := by
    intro t ht
    obtain ⟨i, hi, rfl⟩ := List.getElem_of_mem ht
    exact (h.get (h.length_eq ▸ hi) hi).fits
  unfold MemoryInfo.skips at hskip
  simp only [Bool.and_eq_true, decide_eq_true_eq] at hskip
  obtain ⟨⟨hkx, hky⟩, hne⟩ := hskip
  obtain ⟨kx, hkx⟩ := Option.isSome_iff_exists.1 hkx
  obtain ⟨ky, hky⟩ := Option.isSome_iff_exists.1 hky
  have hkeys : kx ≠ ky := by
    rintro rfl
    exact hne (hkx.trans hky.symm)
  exact (keyed info).apart hkeys (fits hx kx hkx) (fits hy ky hky)

/-- The declaration of a memory lowers only when the memory has an address that fits in the ports'. -/
theorem addressable_of_lowerMemory {ports : List WritePort} (hne : ports ≠ [])
    (hports : ∀ port ∈ ports, ∃ full : Expr, full.width = info.abits ∧
      port.address = sliceExpr full 0 info.addressWidth info.source) {acts : List Hw.Act}
    (h : lowerMemory? (info.memory ports) = .ok acts) : info.Addressable := by
  obtain ⟨_, hcheck, hwrites⟩ := DenotesAux.bind_eq_ok h
  have hpos : info.addressWidth ≠ 0 := by
    intro hzero
    have hbad : (info.memory ports).name.isEmpty = true ∨ (info.memory ports).addressWidth = 0 ∨
        (info.memory ports).dataWidth = 0 := Or.inr (Or.inl hzero)
    unfold checkMemory? at hcheck
    rw [if_pos hbad] at hcheck
    cases hcheck
  refine (addressable_iff info).2 ⟨?_, Or.inl (Nat.pos_of_ne_zero hpos)⟩
  obtain ⟨port, rest, hgroup⟩ := List.exists_cons_of_ne_nil (groupPorts_ne_nil info hne)
  obtain ⟨full, hwidth, haddress⟩ := forall_groupPorts info (fun ha _ => ha) hports port
    (hgroup ▸ List.mem_cons_self)
  have hwrite : (info.memory ports).writes = info.completeWrite [] port :: info.completeWrites [port] rest := by
    show info.completeWrites [] (info.groupPorts ports) = _
    rw [hgroup]
    rfl
  rw [hwrite, List.mapM_cons] at hwrites
  obtain ⟨act, hact, -⟩ := DenotesAux.bind_eq_ok hwrites
  obtain ⟨_, -, hact⟩ := DenotesAux.bind_eq_ok hact
  obtain ⟨_, hlower, -⟩ := DenotesAux.bind_eq_ok hact
  obtain ⟨x, hx, -⟩ := DenotesAux.bind_eq_ok hlower
  have hlowers : Lowers (sliceExpr full 0 info.addressWidth info.source) := ⟨x, haddress ▸ hx⟩
  unfold sliceExpr at hlowers
  split at hlowers
  · rename_i hsame
    rw [← hwidth, hsame.2]
  · have hfits := hlowers.slice_fits
    rw [hwidth] at hfits
    omega

/-- The declaration over the expressions of the ports. -/
def declaration (run : WriteRun) : Memory :=
  run.info.memory (List.zipWith run.info.writePort (List.range run.info.writePorts) run.operands)

/-- A run returns the declaration over the expressions of its ports. -/
theorem returns_iff_declaration (run : WriteRun) {memory : Memory} {after : State} :
    run.Returns memory after ↔ declaration run = memory ∧ run.after = after := by
  unfold WriteRun.Returns
  rw [writableMemory_eq, map_apply, run.operands_eq, Option.map_some, Option.some_inj, Prod.mk.injEq]
  rfl

end WritesAux

open WritesAux

/-- The writes of an accepted memory do what its ports do, in every state and for all values of the ports, exactly when the memory
is addressable. -/
theorem memoryWrites_exact_iff (run : WriteRun) {σ : Hw.St} {values : List (PortValue run.info)} (hvalues : run.Valued σ values) :
    run.CommitsExactly σ values ↔ run.info.Addressable := by
  unfold WriteRun.CommitsExactly
  constructor
  · rintro ⟨memory, after, acts, hreturns, hlower, -⟩
    obtain ⟨rfl, -⟩ := (returns_iff_declaration run).1 hreturns
    have hlength : run.operands.length = run.info.writePorts := by
      rw [← (static_operands run).length_eq, List.length_range]
    refine addressable_of_lowerMemory ?_ (fun port hport => ?_) hlower
    · rw [← List.length_pos_iff, List.length_zipWith, List.length_range, hlength, Nat.min_self]
      exact Nat.pos_of_ne_zero run.writable
    · obtain ⟨i, hi⟩ := List.getElem?_of_mem hport
      obtain ⟨index, operands, -, hoperands, rfl⟩ := List.getElem?_zipWith_eq_some.1 hi
      obtain ⟨value, -, hfull, -⟩ := exists_of_forall₂ hvalues (List.mem_of_getElem? hoperands)
      exact ⟨operands.full, hfull.width_eq, rfl⟩
  · intro hadd
    obtain ⟨tagged, htagged, hwrites⟩ := ports_denote hadd run.writable (fun port hport => List.mem_range.1 hport)
      (static_operands run) hvalues
    obtain ⟨grouped, hgrouped, hsame⟩ := groupPorts_denotes htagged
    obtain ⟨acts, hacts, hcommits⟩ := lowerWrites_commit (completeWrites_denotes hgrouped List.Forall₂.nil)
    have hcheck := checkMemory_ok ((prepared run.Γ).memory run.accepted).init_eq
      (Nat.ne_of_gt (writable_widths hadd run.writable).1)
      (List.zipWith run.info.writePort (List.range run.info.writePorts) run.operands)
    obtain ⟨hview, hother, hregs⟩ := sequence_commits hcommits σ
    have hdone : (completeAll MemoryInfo.skips (view run.info σ) [] grouped).foldl (fun memory word => word.commit memory)
        (view run.info σ) = sourceWrites values (view run.info σ) := by
      have hskip : ∀ x ∈ [] ++ grouped, ∀ y ∈ [] ++ grouped, MemoryInfo.skips x.1 y.1 = true → x.2.Apart y.2 :=
        fun x hx y hy => skips_apart hgrouped hx hy
      have happly := commit_completeAll (view run.info σ) hskip
      rw [List.map_nil, applyAll_nil, List.nil_append] at happly
      rw [happly, hsame, hwrites, sourceWrites_eq]
    refine ⟨_, _, acts, (returns_iff_declaration run).2 ⟨rfl, rfl⟩, ?_, fun a => ?_, fun name a w hne => ?_, ?_⟩
    · unfold lowerMemory? declaration
      rw [hcheck]
      exact hacts
    · rw [Hw.run_sequence]
      exact congrFun (hview.trans hdone) a
    · rw [Hw.run_sequence]
      exact hother name a w hne
    · rw [Hw.run_sequence]
      exact hregs

/-- The run that comes to a memory of a module before anything is translated, when its expressions take no more than some nested
calls. -/
def writeRun? (Γ : Setting) (cellName : String) (fuel : Nat) : Option WriteRun :=
  match haccepted : Γ.ctx.memoryCells.get? cellName with
  | none => none
  | some info =>
    match hoperands : (List.range info.writePorts).mapM (writeOperands (expr Γ.ctx fuel) info) Γ.start with
    | none => none
    | some (operands, after) =>
      if hwritable : info.writePorts ≠ 0 then
        some {
          Γ := Γ
          cellName := cellName
          info := info
          accepted := haccepted
          writable := hwritable
          fuel := fuel
          before := Γ.start
          reachable := Setting.Reachable.start
          operands := operands
          after := after
          operands_eq := hoperands }
      else none

/-- A module that writes a memory of four words of two bits at four ports: the first and the third at an input, the others at the
words one and two. -/
def ramPorts : Setting where
  name := "ram"
  module := {
    src := "ram.v:1.1-9.10"
    ports := ⟨[("a", ⟨"input", [.net 2, .net 3]⟩), ("we", ⟨"input", (List.range' 4 8).map .net⟩),
      ("wd", ⟨"input", (List.range' 12 8).map .net⟩), ("y", ⟨"output", [.net 20, .net 21]⟩)], by decide⟩
    netnames := Dict.empty
    cells := ⟨[("u", {
      type := "$mem_v2"
      src := "ram.v:5.14-5.20"
      parameters := ⟨[("ABITS", .int 2), ("INIT", .str "01101100"), ("OFFSET", .int 0), ("RD_PORTS", .int 1), ("SIZE", .int 4),
        ("WIDTH", .int 2), ("WR_CLK_ENABLE", .int 15), ("WR_CLK_POLARITY", .int 15), ("WR_PORTS", .int 4)], by decide⟩
      portDirections := ⟨[("RD_DATA", "output")], by decide⟩
      connections := ⟨[("RD_ADDR", [.net 2, .net 3]), ("RD_DATA", [.net 20, .net 21]),
        ("WR_ADDR", [.net 2, .net 3, .const '1', .const '0', .net 2, .net 3, .const '0', .const '1']),
        ("WR_CLK", [.net 22, .net 22, .net 22, .net 22]), ("WR_DATA", (List.range' 12 8).map .net),
        ("WR_EN", (List.range' 4 8).map .net)], by decide⟩ })], by decide⟩ }
  modules := ["ram"]
  policy := none
  sha256 := fun text => text

/-- The writes of that memory are exact. -/
theorem memoryWrites_exact_ports :
    ∃ run ∈ writeRun? ramPorts "u" 3, run.operands.length = 4 ∧ ∀ σ, ∃ values, run.Valued σ values ∧ run.CommitsExactly σ values := by
  have hrun : ∃ run ∈ writeRun? ramPorts "u" 3, run.operands.length = 4 ∧ run.OperandsLower ∧ run.info.Addressable := by
    decide +kernel
  obtain ⟨run, hmem, hports, hlower, hadd⟩ := hrun
  refine ⟨run, hmem, hports, fun σ => ?_⟩
  obtain ⟨values, hvalues⟩ := exists_valued run hlower σ
  exact ⟨values, hvalues, (memoryWrites_exact_iff run hvalues).2 hadd⟩

/-- A module that writes a memory of four bits at an input of one bit. -/
def ramNarrow : Setting where
  name := "ram"
  module := {
    src := "ram.v:1.1-9.10"
    ports := ⟨[("a", ⟨"input", [.net 2]⟩), ("we", ⟨"input", [.net 4]⟩), ("wd", ⟨"input", [.net 5]⟩), ("y", ⟨"output", [.net 6]⟩)],
      by decide⟩
    netnames := Dict.empty
    cells := ⟨[("u", {
      type := "$mem_v2"
      src := "ram.v:5.14-5.20"
      parameters := ⟨[("ABITS", .int 1), ("INIT", .str "0110"), ("OFFSET", .int 0), ("RD_PORTS", .int 1), ("SIZE", .int 4),
        ("WIDTH", .int 1), ("WR_CLK_ENABLE", .int 1), ("WR_CLK_POLARITY", .int 1), ("WR_PORTS", .int 1)], by decide⟩
      portDirections := ⟨[("RD_DATA", "output")], by decide⟩
      connections := ⟨[("RD_ADDR", [.net 2]), ("RD_DATA", [.net 6]), ("WR_ADDR", [.net 2]), ("WR_CLK", [.net 7]),
        ("WR_DATA", [.net 5]), ("WR_EN", [.net 4])], by decide⟩ })], by decide⟩ }
  modules := ["ram"]
  policy := none
  sha256 := fun text => text

/-- With one address bit for four words the declaration has no lowering, although nothing is blocked. -/
theorem not_memoryWrites_exact : ∃ run ∈ writeRun? ramNarrow "u" 3, run.after.unsupported = [] ∧
    ∀ σ, ∃ values, run.Valued σ values ∧ ¬run.CommitsExactly σ values := by
  have hrun : ∃ run ∈ writeRun? ramNarrow "u" 3, run.after.unsupported = [] ∧ run.OperandsLower ∧
      (lowerMemory? (declaration run)).toBool = false := by decide +kernel
  obtain ⟨run, hmem, hclean, hlower, hreject⟩ := hrun
  refine ⟨run, hmem, hclean, fun σ => ?_⟩
  obtain ⟨values, hvalues⟩ := exists_valued run hlower σ
  refine ⟨values, hvalues, ?_⟩
  rintro ⟨memory, after, acts, hreturns, hacts, -⟩
  obtain ⟨rfl, -⟩ := (returns_iff_declaration run).1 hreturns
  rw [hacts] at hreject
  cases hreject

end LoomImport
