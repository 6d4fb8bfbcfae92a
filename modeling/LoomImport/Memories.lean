import LoomImport.Constants
import LoomImport.Lowering
import LoomImport.Prepared
import LoomImport.Shifts

/-!
# Reading a memory

What a read port of a memory gives: the word at its address, or what lies outside, chosen by a rule. A memory that is never written
is read by a selection among the words of its image. The address is cut to the bits that number the words, so a read is translated
exactly when the ports have that many address bits, and there is at least one unless no address is needed.
-/

namespace LoomImport

open ImportIR Words LoweringAux ConstantsAux

/-! ## The reference -/

namespace MemoryInfo

/-- The address of the ports reaches every word, and a memory that is written has more than one. -/
def Addressable (info : MemoryInfo) : Prop := info.size ≤ 2 ^ info.abits ∧ (2 ≤ info.size ∨ info.writePorts = 0)

instance (info : MemoryInfo) : Decidable info.Addressable := inferInstanceAs (Decidable (_ ∧ _))

end MemoryInfo

namespace Setting

variable (Γ : Setting) (info : MemoryInfo)

/-- A word of the image. -/
def imageWord (index : Nat) : BitVec info.width :=
  ofBits info.width fun i =>
    (info.initBits[index * info.width + i]?.map (Bit.filled (Γ.constantFill info.initBits info.source))).getD false

/-- The word of the memory at an address. -/
def memoryWord (σ : Hw.St) (address : Nat) : BitVec info.width :=
  if info.writePorts = 0 then Γ.imageWord info address else σ.mems info.loomName address info.width

/-- What lies outside the memory. -/
def outsideWord : BitVec info.width :=
  ofBits info.width fun _ => ((Γ.policyMatches (Γ.memorySite info) info.source).head?.map PolicyRule.fill) = some .one

/-- What a read at an address gives. -/
def readValue (σ : Hw.St) (address : Nat) : BitVec info.width :=
  if address < info.size then Γ.memoryWord info σ address else Γ.outsideWord info

end Setting

/-- The expression of a read port over that of its address. -/
def Setting.portExpr (Γ : Setting) (info : MemoryInfo) (full : Expr) : Expr :=
  if info.abits = info.addressWidth then info.readWord (sliceExpr full 0 info.addressWidth info.source)
  else .mux info.width (.binary 1 .unsignedLessThan full (.literal info.abits info.size info.source) info.source)
    (info.readWord (sliceExpr full 0 info.addressWidth info.source)) (Γ.fillExpr info) info.source

namespace MemoriesAux

variable {Γ : Setting} {info : MemoryInfo} {σ : Hw.St}

/-- The number of words is the number of addresses of that many bits. -/
theorem size_eq (info : MemoryInfo) : info.size = 2 ^ info.addressWidth := by
  have hpos : info.size ≠ 0 := Nat.ne_of_gt info.shape.size_pos
  obtain ⟨k, hk⟩ := (Nat.and_sub_one_eq_zero_iff_isPowerOfTwo hpos).1 info.shape.size_pow
  have hwidth : info.addressWidth = k := by
    unfold MemoryInfo.addressWidth bitLength
    rw [hk]
    cases k with
    | zero => rfl
    | succ k =>
      have hle : 2 ^ k ≤ 2 ^ (k + 1) - 1 := by
        have h := Nat.two_pow_pos k
        rw [Nat.pow_succ]
        omega
      have hne : 2 ^ (k + 1) - 1 ≠ 0 := by
        have h := Nat.two_pow_pos k
        omega
      have hlt : 2 ^ (k + 1) - 1 < 2 ^ (k + 1) := Nat.sub_lt (Nat.two_pow_pos _) Nat.one_pos
      rw [if_neg hne, (Nat.log2_eq_iff hne).2 ⟨hle, hlt⟩]
  rw [hwidth]
  exact hk

/-- The memories that are addressable have the address bits the adapter cuts an address to. -/
theorem addressable_iff (info : MemoryInfo) :
    info.Addressable ↔ info.addressWidth ≤ info.abits ∧ (0 < info.addressWidth ∨ info.writePorts = 0) := by
  unfold MemoryInfo.Addressable
  rw [size_eq info, Nat.pow_le_pow_iff_right (by decide)]
  have htwo : 2 ≤ 2 ^ info.addressWidth ↔ 0 < info.addressWidth := by
    cases h : info.addressWidth with
    | zero => simp
    | succ k =>
      have hpos := Nat.two_pow_pos k
      rw [Nat.pow_succ]
      omega
  rw [htwo]

/-! ## The image -/

/-- An accepted memory whose image is not blocked. -/
structure Readable (Γ : Setting) (info : MemoryInfo) : Prop where
  init_const : info.initBits.all Bit.isConst = true
  init_eq : info.initExpr = Γ.constantExpr info.initBits info.source
  init_ok : Γ.constantOk info.initBits info.source = true

theorem word_denotes (h : Readable Γ info) {index : Nat} (hi : index < info.size) :
    Denotes σ (info.word index) (Γ.imageWord info index) := by
  have hfit : index * info.width + info.width ≤ info.initBits.length := by
    rw [info.initBits_length, ← Nat.succ_mul]
    exact Nat.mul_le_mul_right _ hi
  have hne : info.initBits ≠ [] := by
    refine List.length_pos_iff.1 (lt_of_lt_of_le ?_ hfit)
    have hw : 0 < info.width := info.shape.width_pos
    omega
  unfold MemoryInfo.word Setting.imageWord
  rw [h.init_eq]
  exact partialSlice_denotes Γ hne h.init_const h.init_ok info.shape.width_pos hfit

/-- The selection among the words up to an index: the word at the address, or the first one when it lies further. -/
theorem select_denotes (h : Readable Γ info) {address : Expr} {a : BitVec info.addressWidth} (ha : Denotes σ address a)
    {k : Nat} (hk : k < info.size) :
    Denotes σ ((List.range' 1 k).foldl (fun result index =>
      .mux info.width (.binary 1 .equal address (.literal info.addressWidth index info.source) info.source)
        (info.word index) result info.source) (info.word 0)) (Γ.imageWord info (if a.toNat ≤ k then a.toNat else 0)) := by
  induction k with
  | zero =>
    have hzero : (if a.toNat ≤ 0 then a.toNat else 0) = 0 := by split <;> omega
    rw [hzero]
    exact word_denotes h info.shape.size_pos
  | succ k ih =>
    rw [List.range'_1_concat, List.foldl_append]
    simp only [List.foldl_cons, List.foldl_nil]
    have hlit := Denotes.literal ha.pos (1 + k) info.source (σ := σ)
    have hsel := Denotes.muxBool (ha.compare .equal rfl hlit info.source) (word_denotes (σ := σ) h (by omega : 1 + k < info.size))
      (ih (by omega)) info.source
    have hvalue : (if BinaryOp.compare .equal a (BitVec.ofNat info.addressWidth (1 + k)) = true then Γ.imageWord info (1 + k)
        else Γ.imageWord info (if a.toNat ≤ k then a.toNat else 0)) =
        Γ.imageWord info (if a.toNat ≤ k + 1 then a.toNat else 0) := by
      have hlt : 1 + k < 2 ^ info.addressWidth := by
        rw [← size_eq info]
        omega
      have heq : BinaryOp.compare .equal a (BitVec.ofNat info.addressWidth (1 + k)) = decide (a.toNat = 1 + k) := by
        have hiff : a = BitVec.ofNat info.addressWidth (1 + k) ↔ a.toNat = 1 + k := by
          rw [← BitVec.toNat_inj, BitVec.toNat_ofNat, Nat.mod_eq_of_lt hlt]
        exact decide_eq_decide.2 hiff
      rw [heq]
      by_cases hk1 : a.toNat = 1 + k
      · rw [if_pos (decide_eq_true hk1), if_pos (by omega), hk1]
      · rw [if_neg (by simpa using hk1)]
        by_cases hle : a.toNat ≤ k
        · rw [if_pos hle, if_pos (by omega)]
        · rw [if_neg hle, if_neg (by omega)]
    rw [hvalue] at hsel
    exact hsel

/-! ## A word -/

theorem loomName_ne (info : MemoryInfo) : info.loomName.isEmpty = false := by
  rw [← Bool.not_eq_true, String.isEmpty_iff]
  intro hempty
  have hlen := congrArg String.length hempty
  rw [MemoryInfo.loomName, String.length_append] at hlen
  have hname : "__loom_mem_".length = 11 := by decide
  simp only [hname, String.length_empty] at hlen
  omega

/-- The address, cut to the bits of the memory. -/
theorem toNat_cut {abits : Nat} (v : BitVec abits) (width : Nat) :
    (v.extractLsb' 0 width).toNat = v.toNat % 2 ^ width := by
  rw [BitVec.extractLsb'_toNat, Nat.shiftRight_zero]

/-- The ports past the last one are empty. -/
theorem portBits_of_le {packed : List Bit} {ports width port : Nat} (hlen : packed.length = ports * width)
    (h : ports ≤ port) : portBits packed port width = [] := by
  unfold portBits
  rw [List.drop_of_length_le, List.take_nil]
  rw [hlen]
  exact Nat.mul_le_mul_right _ h

/-- The bits of a port in a packed connection that has them. -/
theorem portBits_length {packed : List Bit} {ports width port : Nat} (hlen : packed.length = ports * width)
    (hport : port < ports) : (portBits packed port width).length = width := by
  unfold portBits
  rw [List.length_take, List.length_drop, hlen, ← Nat.sub_mul]
  exact Nat.min_eq_left (Nat.le_mul_of_pos_left _ (Nat.sub_pos_of_lt hport))

/-- The word of an addressable memory at the address that is cut to its bits. -/
theorem readWord_denotes (h : Readable Γ info) (hadd : info.Addressable) {full : Expr} {v : BitVec info.abits}
    (hv : Denotes σ full v) :
    Denotes σ (info.readWord (sliceExpr full 0 info.addressWidth info.source))
      (Γ.memoryWord info σ (v.toNat % 2 ^ info.addressWidth)) := by
  obtain ⟨hle, hpos⟩ := (addressable_iff info).1 hadd
  have hcut := toNat_cut v info.addressWidth
  unfold MemoryInfo.readWord Setting.memoryWord
  by_cases hw : info.writePorts = 0
  · rw [if_pos hw, if_pos hw]
    unfold MemoryInfo.romRead
    rcases Nat.eq_zero_or_pos info.addressWidth with h0 | hpos'
    · -- one word: the address is not looked at
      have hone : info.size = 1 := by rw [size_eq info, h0, Nat.pow_zero]
      rw [hone, h0, Nat.pow_zero, Nat.mod_one]
      exact word_denotes h (by omega)
    · have ha := hv.sliceExpr hpos' (by omega : 0 + info.addressWidth ≤ info.abits) info.source
      have hlt : v.toNat % 2 ^ info.addressWidth < info.size := by
        rw [size_eq info]
        exact Nat.mod_lt _ (Nat.two_pow_pos _)
      have hsel := select_denotes h ha (by omega : info.size - 1 < info.size)
      rw [hcut, if_pos (by omega)] at hsel
      exact hsel
  · rw [if_neg hw, if_neg hw, ← hcut]
    have hpos' := hpos.resolve_right hw
    exact (hv.sliceExpr hpos' (by omega) info.source).memoryRead info.shape.width_pos (loomName_ne info) info.source

/-! ## A port -/

/-- What lies outside a memory, once a rule claims it. -/
theorem fillExpr_denotes (hok : Γ.fillOk info = true) : Denotes σ (Γ.fillExpr info) (Γ.outsideWord info) := by
  unfold Setting.fillExpr Setting.outsideWord
  unfold Setting.fillOk at hok
  rw [decide_eq_true_eq] at hok
  obtain ⟨rule, hrule⟩ := List.length_eq_one_iff.1 hok
  rw [hrule]
  have h := partialUnknown_denotes (σ := σ) Γ.sha256 (.cell Γ.name info.cellName "$mem_v2_out_of_range_read" info.source) rule
    info.shape.width_pos info.source
  simp only [List.head?_cons, Option.map_some, Option.some.injEq]
  exact h

/-- A read port of an addressable memory denotes what a read at the value of its address gives. -/
theorem portExpr_denotes (h : Readable Γ info) (hadd : info.Addressable)
    (hfill : info.abits = info.addressWidth ∨ Γ.fillOk info = true) {full : Expr} {v : BitVec info.abits}
    (hv : Denotes σ full v) : Denotes σ (Γ.portExpr info full) (Γ.readValue info σ v.toNat) := by
  have hword := readWord_denotes (σ := σ) h hadd hv
  have hsize := size_eq info
  unfold Setting.portExpr Setting.readValue
  by_cases hw : info.abits = info.addressWidth
  · have hlt : v.toNat < info.size := by
      rw [hsize, ← hw]
      exact v.isLt
    rw [if_pos hw, if_pos hlt]
    rw [Nat.mod_eq_of_lt (hsize ▸ hlt)] at hword
    exact hword
  · rw [if_neg hw]
    have hlt : info.size < 2 ^ info.abits := by
      have hle := ((addressable_iff info).1 hadd).1
      rw [hsize]
      exact Nat.pow_lt_pow_right (by decide) (by omega)
    have hrange := hv.compare .unsignedLessThan rfl (Denotes.literal hv.pos info.size info.source) info.source
    rw [BinaryOp.compare, ShiftsAux.ult_ofNat hlt] at hrange
    have hmux := Denotes.muxBool hrange hword (fillExpr_denotes (hfill.resolve_left hw)) info.source
    by_cases hin : v.toNat < info.size
    · rw [if_pos (decide_eq_true hin), Nat.mod_eq_of_lt (hsize ▸ hin)] at hmux
      rw [if_pos hin]
      exact hmux
    · rw [if_neg (by simpa using hin)] at hmux
      rw [if_neg hin]
      exact hmux

/-! ## What a port that lowers contains -/

/-- A selection among more than one word contains the address. -/
theorem within_select {address : Expr} {k : Nat} (hk : 0 < k) :
    Within address ((List.range' 1 k).foldl (fun result index =>
      .mux info.width (.binary 1 .equal address (.literal info.addressWidth index info.source) info.source)
        (info.word index) result info.source) (info.word 0)) := by
  obtain ⟨k, rfl⟩ : ∃ n, k = n + 1 := ⟨k - 1, by omega⟩
  rw [List.range'_1_concat, List.foldl_append]
  simp only [List.foldl_cons, List.foldl_nil]
  exact (within_binary (Or.inl Within.refl)).child List.mem_cons_self

/-- A word that is read contains the address, unless there is one word that is never written. -/
theorem within_readWord (h : 2 ≤ info.size ∨ info.writePorts ≠ 0) (address : Expr) :
    Within address (info.readWord address) := by
  unfold MemoryInfo.readWord
  by_cases hw : info.writePorts = 0
  · rw [if_pos hw]
    have hsize := h.resolve_right (fun hne => hne hw)
    exact within_select (by omega)
  · rw [if_neg hw]
    exact Within.refl.child List.mem_cons_self

/-- A read port contains the word it reads. -/
theorem within_portExpr (Γ : Setting) (info : MemoryInfo) (full : Expr) :
    Within (info.readWord (sliceExpr full 0 info.addressWidth info.source)) (Γ.portExpr info full) := by
  unfold Setting.portExpr
  split
  · exact Within.refl
  · exact Within.refl.child (List.mem_cons_of_mem _ List.mem_cons_self)

/-- A read port contains its address. -/
theorem within_portExpr_full (Γ : Setting) (info : MemoryInfo) (full : Expr) : Within full (Γ.portExpr info full) := by
  by_cases hw : info.abits = info.addressWidth
  · have hpos : 0 < info.abits := info.shape.abits_pos
    have htwo : 2 ≤ info.size := by
      rw [size_eq info]
      calc 2 = 2 ^ 1 := rfl
        _ ≤ 2 ^ info.addressWidth := Nat.pow_le_pow_right (by decide) (by omega)
    have hslice : Within full (sliceExpr full 0 info.addressWidth info.source) := within_sliceExpr Within.refl 0 _
    exact (hslice.trans (within_readWord (Or.inl htwo) _)).trans (within_portExpr Γ info full)
  · unfold Setting.portExpr
    rw [if_neg hw]
    exact (within_binary (Or.inl Within.refl)).child List.mem_cons_self

/-- A read port that lowers belongs to an addressable memory. -/
theorem addressable_of_lowers {full : Expr} (hwidth : full.width = info.abits) (h : Lowers (Γ.portExpr info full)) :
    info.Addressable := by
  refine (addressable_iff info).2 ?_
  have hpos : 0 < info.abits := info.shape.abits_pos
  -- the slice of the address, where it is part of the word that is read
  have hslice : (2 ≤ info.size ∨ info.writePorts ≠ 0) → 0 < info.addressWidth ∧ info.addressWidth ≤ info.abits := by
    intro hread
    have hl := (h.within (within_portExpr Γ info full)).within (within_readWord hread _)
    unfold sliceExpr at hl
    split at hl
    · rename_i hc
      omega
    · have hfits := hl.slice_fits
      omega
  by_cases hread : 2 ≤ info.size ∨ info.writePorts ≠ 0
  · exact ⟨(hslice hread).2, Or.inl (hslice hread).1⟩
  · have hw : info.writePorts = 0 := not_not.1 fun hne => hread (Or.inr hne)
    have hone : ¬2 ≤ 2 ^ info.addressWidth := fun h2 => hread (Or.inl (size_eq info ▸ h2))
    have hzero : info.addressWidth = 0 := by
      refine Nat.eq_zero_of_not_pos fun hp => hone ?_
      calc 2 = 2 ^ 1 := rfl
        _ ≤ 2 ^ info.addressWidth := Nat.pow_le_pow_right (by decide) hp
    exact ⟨by omega, Or.inr hw⟩

end MemoriesAux

end LoomImport
