import LoomImport.Cells

/-!
# The shift cells

What the adapter's shift expressions denote, against the simlib meaning of the cells. `$sshr` and the accepted `$shiftx` are right
for every width. `$shl` and `$shr` bring both operands to the width of the result first, which loses high bits of the amount, or of
a value that is shifted down; `$shift` widens a signed value to the width of the amount, and its sign bits are shifted into the
result. For each of these the widths at which the expression is right are given exactly.
-/

namespace LoomImport

open ImportIR Words

namespace ShiftsAux

variable {n : Nat}

/-- A bit of a logical right shift. -/
theorem getLsbD_ushiftRight_extend (signed : Bool) (w : Nat) (v : BitVec n) (k i : Nat) :
    (extend signed w v >>> k).getLsbD i =
      (decide (k + i < w) && if k + i < n then v.getLsbD (k + i) else signed && v.msb) := by
  rw [BitVec.getLsbD_ushiftRight, getLsbD_extend]

/-- A bit of a left shift. -/
theorem getLsbD_shiftLeft_extend (signed : Bool) (w : Nat) (v : BitVec n) (k i : Nat) :
    (extend signed w v <<< k).getLsbD i =
      (decide (i < w) && !decide (i < k) && (extend signed w v).getLsbD (i - k)) :=
  BitVec.getLsbD_shiftLeft _ _

/-- A left shift evaluated at the width of the result instead of a wider one gives the same bits. -/
theorem setWidth_shiftLeft_extend (signed : Bool) {w v : Nat} (h : w ≤ v) (x : BitVec n) (k : Nat) :
    (extend signed v x <<< k).setWidth w = extend signed w x <<< k := by
  apply BitVec.eq_of_getLsbD_eq
  intro i hi
  have hv : i < v := by omega
  rw [BitVec.getLsbD_setWidth, getLsbD_shiftLeft_extend, getLsbD_shiftLeft_extend, getLsbD_extend, getLsbD_extend]
  have h1 : i - k < w := by omega
  have h2 : i - k < v := by omega
  simp only [hi, hv, h1, h2, decide_true, Bool.true_and]

/-- A right shift of a zero extension does not depend on the width it is evaluated at, once the result fits. -/
theorem setWidth_ushiftRight_setWidth {w v u : Nat} (hv : n ≤ v) (hu : n ≤ u) (x : BitVec n) (k : Nat) :
    ((extend false v x) >>> k).setWidth w = ((extend false u x) >>> k).setWidth w := by
  apply BitVec.eq_of_getLsbD_eq
  intro i hi
  rw [BitVec.getLsbD_setWidth, BitVec.getLsbD_setWidth, getLsbD_ushiftRight_extend, getLsbD_ushiftRight_extend]
  by_cases hk : k + i < n
  · have h1 : k + i < v := by omega
    have h2 : k + i < u := by omega
    simp [hk, h1, h2]
  · simp [hk]

/-- The top bit of a word, as a one-bit slice. -/
theorem extractLsb'_top {w : Nat} (v : BitVec w) : v.extractLsb' (w - 1) 1 = BitVec.ofBool v.msb := by
  rw [extractLsb'_one, BitVec.msb_eq_getLsbD_last]

/-- The all-ones literal. -/
theorem ofNat_ones (w : Nat) : BitVec.ofNat w (1 <<< w - 1) = BitVec.allOnes w := by
  apply BitVec.eq_of_toNat_eq
  rw [BitVec.toNat_allOnes, BitVec.toNat_ofNat, Nat.shiftLeft_eq, Nat.one_mul]
  exact Nat.mod_eq_of_lt (Nat.sub_lt (Nat.two_pow_pos w) Nat.one_pos)

/-- A literal below the modulus keeps its number. -/
theorem ult_ofNat {w k : Nat} (h : k < 2 ^ w) (v : BitVec w) : v.ult (BitVec.ofNat w k) = decide (v.toNat < k) := by
  rw [BitVec.ult, BitVec.toNat_ofNat, Nat.mod_eq_of_lt h]

theorem two_pow_eq {w : Nat} (h : 0 < w) : 2 ^ w = 2 * 2 ^ (w - 1) := by
  rw [← Nat.pow_succ', Nat.succ_eq_add_one, Nat.sub_add_cancel h]

theorem lt_two_pow_of_le {k w : Nat} (h : k ≤ w) : k < 2 ^ w :=
  lt_of_lt_of_le Nat.lt_two_pow_self (Nat.pow_le_pow_right (by omega) h)

end ShiftsAux

open ShiftsAux

/-! ## `$sshr` -/

section ArithmeticShiftRight

variable {sh : Shape} {σ : Hw.St} {src : SourceLocation}

/-- The sign bits a signed value is filled with reach as far as any amount in range can shift them. -/
theorem sshr_in_range {w : Nat} (hw : 2 * sh.shiftWidth ≤ w) (a : BitVec sh.aWidth) {k : Nat} (hk : k < sh.shiftWidth) :
    (extend true w a >>> k).setWidth sh.width = ((extend true sh.shiftWidth a).sshiftRight k).setWidth sh.width := by
  have ha : sh.aWidth ≤ sh.shiftWidth := Nat.le_max_left _ _
  have hy : sh.width ≤ sh.shiftWidth := Nat.le_max_right _ _
  apply BitVec.eq_of_getLsbD_eq
  intro i hi
  have h1 : k + i < w := by omega
  have h2 : ¬sh.shiftWidth ≤ i := by omega
  rw [BitVec.getLsbD_setWidth, BitVec.getLsbD_setWidth, getLsbD_ushiftRight_extend, BitVec.getLsbD_sshiftRight]
  by_cases hbase : k + i < sh.shiftWidth
  · rw [if_pos hbase, getLsbD_extend]
    simp [h1, h2, hbase]
  · have hn : ¬k + i < sh.aWidth := by omega
    rw [if_neg hbase, if_neg hn, msb_extend_true ha]
    simp [h1, h2]

/-- Out of range, an arithmetic shift leaves the sign. -/
theorem sshr_out_of_range (a : BitVec sh.aWidth) {k : Nat} (hk : sh.shiftWidth ≤ k) {w : Nat} (hw : sh.width ≤ w) :
    ((if a.msb then BitVec.allOnes w else 0#w) : BitVec w).setWidth sh.width =
      ((extend true sh.shiftWidth a).sshiftRight k).setWidth sh.width := by
  have ha : sh.aWidth ≤ sh.shiftWidth := Nat.le_max_left _ _
  have hy : sh.width ≤ sh.shiftWidth := Nat.le_max_right _ _
  apply BitVec.eq_of_getLsbD_eq
  intro i hi
  have h1 : ¬sh.shiftWidth ≤ i := by omega
  have h2 : ¬k + i < sh.shiftWidth := by omega
  have h3 : i < w := by omega
  rw [BitVec.getLsbD_setWidth, BitVec.getLsbD_setWidth, BitVec.getLsbD_sshiftRight, if_neg h2, msb_extend_true ha]
  cases a.msb
  · simp
  · simp [h1, h3]

/-- `$sshr` over operands that denote is right for every width and signedness. -/
theorem arithmeticShiftRight_denotes (hw : 0 < sh.width) {l r : Expr} {a : BitVec sh.aWidth} {b : BitVec sh.bWidth}
    (hl : Denotes σ l a) (hr : Denotes σ r b) :
    Denotes σ (arithmeticShiftRight l r sh.width sh.aSigned src) (Simlib.binary .sshr sh a b) := by
  have hbase : 0 < sh.shiftWidth := lt_of_lt_of_le hw (Nat.le_max_right _ _)
  have ha : sh.aWidth ≤ sh.shiftWidth := Nat.le_max_left _ _
  have hy : sh.width ≤ sh.shiftWidth := Nat.le_max_right _ _
  unfold arithmeticShiftRight
  simp only [hl.width_eq, hr.width_eq]
  cases hs : sh.aSigned with
  | false =>
    -- a logical shift: only the width it is evaluated at may differ
    simp only [Bool.false_eq_true, if_false]
    have hwork : 0 < max (max sh.aWidth sh.width) sh.bWidth := by omega
    have hv := hl.resize hwork false src
    have hamount := hr.resize hwork false src
    have h := ((hv.apply .logicalShiftRight rfl hamount src).resize hw false src)
    rw [hv.width_eq]
    rw [extend_false, BinaryOp.apply, toNat_extend_false (Nat.le_max_right _ _),
      setWidth_ushiftRight_setWidth (u := sh.shiftWidth) (by omega) ha] at h
    rw [Simlib.binary, Simlib.shifted, hs]
    exact h
  | true =>
    simp only [if_true]
    generalize hworkdef : max (max sh.aWidth sh.width * 2) sh.bWidth = work
    have hshift : sh.shiftWidth = max sh.aWidth sh.width := rfl
    have hwork : 0 < work := by omega
    have hv := hl.resize hwork true src
    have hamount := hr.resize hwork false src
    rw [hv.width_eq, ← hshift]
    have hsign : Denotes σ (LoomImport.sliceExpr (LoomImport.resize l work true src) (work - 1) 1 src)
        (BitVec.ofBool a.msb) := by
      rw [← msb_extend_true (w := work) (by omega), ← extractLsb'_top]
      exact hv.sliceExpr Nat.one_pos (by omega) src
    have hfill := Denotes.muxBool hsign (Denotes.literal hwork (1 <<< work - 1) src) (Denotes.literal hwork 0 src) src
    have hrange := hamount.compare .unsignedLessThan rfl (Denotes.literal hwork sh.shiftWidth src) src
    rw [BinaryOp.compare, ult_ofNat (lt_two_pow_of_le (by omega)), toNat_extend_false (by omega)] at hrange
    have hshifted := hv.apply .logicalShiftRight rfl hamount src
    have h := (Denotes.muxBool hrange hshifted hfill src).resize hw true src
    have hvalue : extend true sh.width (if decide (b.toNat < sh.shiftWidth) = true then
        BinaryOp.apply .logicalShiftRight (extend true work a) (extend false work b)
        else if a.msb = true then BitVec.ofNat work (1 <<< work - 1) else BitVec.ofNat work 0) =
        Simlib.binary .sshr sh a b := by
      rw [extend_of_le true (by omega), Simlib.binary, Simlib.shifted, hs, if_pos rfl, BinaryOp.apply,
        toNat_extend_false (by omega), ofNat_ones]
      by_cases hk : b.toNat < sh.shiftWidth
      · rw [if_pos (decide_eq_true hk)]
        exact sshr_in_range (by omega) a hk
      · rw [if_neg (by simpa using hk)]
        exact sshr_out_of_range a (Nat.le_of_not_lt hk) (by omega)
    rw [hvalue] at h
    exact h

end ArithmeticShiftRight

/-! ## `$shift` -/

section VariableShift

variable {sh : Shape} {σ : Hw.St} {src : SourceLocation}

/-- The width `$shift` works at: the amount counts. -/
def Shape.workWidth (sh : Shape) : Nat := max (max sh.aWidth sh.bWidth) sh.width

/-- The magnitude of a negative amount is the negation of its extension. -/
theorem toNat_neg_extend {n w : Nat} (h : n ≤ w) {b : BitVec n} (hb : b.toInt < 0) :
    (-(extend true w b)).toNat = b.toInt.natAbs := by
  have hint := toInt_extend_true h b
  generalize extend true w b = x at hint
  have hlt := x.isLt
  rw [BitVec.toNat_neg]
  rw [BitVec.toInt_eq_toNat_cond] at hint
  split at hint
  · omega
  · rw [Nat.mod_eq_of_lt (by omega)]
    omega

/-- An amount that is not negative keeps its number. -/
theorem toNat_extend_nonneg (signed : Bool) {n w : Nat} (h : n ≤ w) {b : BitVec n} (hb : (signed && b.msb) = false) :
    (extend signed w b).toNat = b.toNat := by
  cases signed
  · exact toNat_extend_false h b
  · rw [Bool.true_and] at hb
    rw [extend_true, BitVec.signExtend_eq_setWidth_of_msb_false hb, ← extend_false, toNat_extend_false h]

/-- What the expression for `$shift` denotes: the simlib shift, evaluated at the width that also holds the amount. -/
theorem variableShift_denotes (hw : 0 < sh.width) {l r : Expr} {a : BitVec sh.aWidth} {b : BitVec sh.bWidth}
    (hl : Denotes σ l a) (hr : Denotes σ r b) :
    Denotes σ (variableShift l r sh.width sh.aSigned sh.bSigned src)
      ((if sh.bSigned && decide (b.toInt < 0) then extend sh.aSigned sh.workWidth a <<< b.toInt.natAbs
        else extend sh.aSigned sh.workWidth a >>> b.toNat).setWidth sh.width) := by
  have hwork : 0 < sh.workWidth := lt_of_lt_of_le hw (Nat.le_max_right _ _)
  have hy : sh.width ≤ sh.workWidth := Nat.le_max_right _ _
  have hb : sh.bWidth ≤ sh.workWidth := le_trans (Nat.le_max_right _ _) (Nat.le_max_left _ _)
  have hv := hl.resize hwork sh.aSigned src
  have hamount := hr.resize hwork sh.bSigned src
  have hright := hv.apply .logicalShiftRight rfl hamount src
  unfold variableShift
  simp only [hl.width_eq, hr.width_eq]
  rw [← BitVec.msb_eq_toInt, ← extend_of_le sh.aSigned hy]
  cases hbs : sh.bSigned with
  | false =>
    rw [hbs] at hright
    simp only [Bool.false_eq_true, if_false, Bool.false_and]
    rw [BinaryOp.apply, toNat_extend_false hb] at hright
    exact hright.resize hw sh.aSigned src
  | true =>
    rw [hbs] at hamount hright
    simp only [if_true, Bool.true_and]
    have hneg : Denotes σ (LoomImport.sliceExpr (LoomImport.resize r sh.workWidth true src) (sh.workWidth - 1) 1 src)
        (BitVec.ofBool b.msb) := by
      rw [← msb_extend_true hb, ← extractLsb'_top]
      exact hamount.sliceExpr Nat.one_pos (by omega) src
    have hleft := hv.apply .shiftLeft rfl (hamount.negate src) src
    have h := (Denotes.muxBool hneg hleft hright src).resize hw sh.aSigned src
    have hvalue : (if b.msb = true then
          BinaryOp.apply .shiftLeft (extend sh.aSigned sh.workWidth a) (-(extend true sh.workWidth b))
        else BinaryOp.apply .logicalShiftRight (extend sh.aSigned sh.workWidth a) (extend true sh.workWidth b)) =
        if b.msb = true then extend sh.aSigned sh.workWidth a <<< b.toInt.natAbs
        else extend sh.aSigned sh.workWidth a >>> b.toNat := by
      cases hm : b.msb with
      | false =>
        simp only [Bool.false_eq_true, if_false]
        rw [BinaryOp.apply, toNat_extend_nonneg true hb (by rw [hm]; rfl)]
      | true =>
        have hlt : b.toInt < 0 := by simpa [BitVec.msb_eq_toInt] using hm
        simp only [if_true]
        rw [BinaryOp.apply, toNat_neg_extend hb hlt]
    rw [hvalue] at h
    exact h

/-- Shifting a signed value right at a width that is larger than it needs to be brings sign bits into the result. -/
theorem shift_right_eq {signed : Bool} {n w v u : Nat} (a : BitVec n) (k : Nat) (hn : n ≤ v) (hwv : w ≤ v) (hvu : v ≤ u)
    (h : signed = false ∨ u = v) :
    (extend signed u a >>> k).setWidth w = (extend signed v a >>> k).setWidth w := by
  rcases h with rfl | rfl
  · exact setWidth_ushiftRight_setWidth (by omega) hn a k
  · rfl

/-- The expression for `$shift` is right for all operands exactly when no sign bit can be shifted into the result: the value is
unsigned, or the amount is no wider than the shift. -/
theorem shift_eq_iff (ha : 0 < sh.aWidth) (hw : 0 < sh.width) :
    (∀ (a : BitVec sh.aWidth) (b : BitVec sh.bWidth),
      (if sh.bSigned && decide (b.toInt < 0) then extend sh.aSigned sh.workWidth a <<< b.toInt.natAbs
        else extend sh.aSigned sh.workWidth a >>> b.toNat).setWidth sh.width = Simlib.binary .shift sh a b) ↔
      (sh.aSigned = true → sh.bWidth ≤ sh.shiftWidth) := by
  have hy : sh.width ≤ sh.shiftWidth := Nat.le_max_right _ _
  have haw : sh.aWidth ≤ sh.shiftWidth := Nat.le_max_left _ _
  have hsw : sh.shiftWidth ≤ sh.workWidth := by
    simp only [Shape.shiftWidth, Shape.workWidth]
    omega
  constructor
  · intro h hs
    refine Nat.le_of_not_lt fun hlt => ?_
    -- all sign bits, shifted down by the width of the shift
    have hk : sh.shiftWidth < 2 ^ (sh.bWidth - 1) := lt_two_pow_of_le (by omega)
    have hk' : sh.shiftWidth < 2 ^ sh.bWidth := lt_two_pow_of_le (Nat.le_of_lt hlt)
    have hnat : (BitVec.ofNat sh.bWidth sh.shiftWidth).toNat = sh.shiftWidth := by
      rw [BitVec.toNat_ofNat, Nat.mod_eq_of_lt hk']
    have hint : ¬(BitVec.ofNat sh.bWidth sh.shiftWidth).toInt < 0 := by
      have hpow := two_pow_eq (by omega : 0 < sh.bWidth)
      rw [BitVec.toInt_eq_toNat_of_lt (by omega)]
      omega
    have hbit := congrArg (fun v => v.getLsbD 0) (h (BitVec.allOnes sh.aWidth) (BitVec.ofNat sh.bWidth sh.shiftWidth))
    simp only [Simlib.binary, Simlib.shift, Simlib.shifted, hint, decide_false, Bool.and_false, Bool.false_eq_true, if_false,
      hnat, BitVec.getLsbD_setWidth, getLsbD_ushiftRight_extend, hs, Bool.true_and] at hbit
    have h1 : ¬sh.shiftWidth < sh.aWidth := by omega
    have h2 : sh.shiftWidth < sh.workWidth := by
      simp only [Shape.workWidth]
      omega
    rw [Nat.add_zero, if_neg h1, BitVec.msb_allOnes ha] at hbit
    simp [h2, hw] at hbit
  · intro h a b
    have hcase : sh.aSigned = false ∨ sh.workWidth = sh.shiftWidth := by
      cases hs : sh.aSigned with
      | false => exact Or.inl rfl
      | true =>
        have hb := h hs
        right
        simp only [Shape.shiftWidth, Shape.workWidth] at hb ⊢
        omega
    rw [Simlib.binary, Simlib.shift, Simlib.shifted]
    split
    · rw [setWidth_shiftLeft_extend _ (le_trans hy hsw), setWidth_shiftLeft_extend _ hy]
    · exact shift_right_eq a _ haw hy hsw hcase

end VariableShift

/-! ## `$shl` and `$shr` -/

section LogicalShift

variable {sh : Shape}

/-- The amount, brought to the width of the result, is the amount when it fits. -/
theorem toNat_amount (hb : sh.bSigned = false) (h : sh.bWidth ≤ sh.width) (b : BitVec sh.bWidth) :
    (extend sh.bSigned sh.width b).toNat = b.toNat := by
  rw [hb, toNat_extend_false h]

/-- The amount 2 to the width of the result is lost when it is brought to that width. -/
theorem toNat_amount_lost (hb : sh.bSigned = false) (h : sh.width < sh.bWidth) :
    (extend sh.bSigned sh.width (BitVec.ofNat sh.bWidth (2 ^ sh.width))).toNat = 0 ∧
      (BitVec.ofNat sh.bWidth (2 ^ sh.width)).toNat = 2 ^ sh.width := by
  have hlt : 2 ^ sh.width < 2 ^ sh.bWidth := Nat.pow_lt_pow_right (by omega) h
  rw [hb, extend_false, BitVec.toNat_setWidth, BitVec.toNat_ofNat, Nat.mod_eq_of_lt hlt]
  exact ⟨Nat.mod_self _, rfl⟩

/-- The lowest bit of one, extended. -/
theorem getLsbD_zero_extend_one (signed : Bool) {n w : Nat} (hn : 0 < n) (hw : 0 < w) :
    (extend signed w (1#n)).getLsbD 0 = true := by
  rw [getLsbD_extend, if_pos hn]
  simp [hn, hw]

/-- One, shifted down by as much as the width it is extended to, or past its own width, leaves no lowest bit. -/
theorem getLsbD_zero_extend_one_shifted (signed : Bool) {n w k : Nat} (hk : 0 < k) (hnk : n ≤ k → w ≤ k) :
    (extend signed w (1#n) >>> k).getLsbD 0 = false := by
  rw [getLsbD_ushiftRight_extend, Nat.add_zero]
  by_cases hn : k < n
  · have h0 : k ≠ 0 := by omega
    rw [if_pos hn]
    simp [h0]
  · have hw : ¬k < w := by
      have hle := hnk (Nat.le_of_not_lt hn)
      omega
    simp [hw]

/-- `$shl` is right for all operands exactly when the amount fits the width of the result. -/
theorem shl_eq_iff (ha : 0 < sh.aWidth) (hw : 0 < sh.width) (hb : sh.bSigned = false) :
    (∀ (a : BitVec sh.aWidth) (b : BitVec sh.bWidth),
      BinaryOp.apply .shiftLeft (extend sh.aSigned sh.width a) (extend sh.bSigned sh.width b) =
        Simlib.binary .shl sh a b) ↔ sh.bWidth ≤ sh.width := by
  have hy : sh.width ≤ sh.shiftWidth := Nat.le_max_right _ _
  constructor
  · intro h
    refine Nat.le_of_not_lt fun hlt => ?_
    -- one, shifted by an amount that is lost: the adapter keeps its lowest bit
    obtain ⟨hlost, hfull⟩ := toNat_amount_lost hb hlt
    have hbit := congrArg (fun v => v.getLsbD 0) (h (1#(sh.aWidth)) (BitVec.ofNat sh.bWidth (2 ^ sh.width)))
    have hpow : 0 < 2 ^ sh.width := Nat.two_pow_pos _
    simp only [BinaryOp.apply, Simlib.binary, Simlib.shifted, hlost, hfull] at hbit
    rw [setWidth_shiftLeft_extend _ hy, getLsbD_shiftLeft_extend, getLsbD_shiftLeft_extend, Nat.sub_zero,
      getLsbD_zero_extend_one sh.aSigned ha hw] at hbit
    simp [hw, hpow] at hbit
  · intro h a b
    rw [BinaryOp.apply, Simlib.binary, Simlib.shifted, toNat_amount hb h, setWidth_shiftLeft_extend _ hy]

/-- `$shr` is right for all operands exactly when both the value and the amount fit the width of the result. -/
theorem shr_eq_iff (ha : 0 < sh.aWidth) (hbw : 0 < sh.bWidth) (hw : 0 < sh.width) (hb : sh.bSigned = false) :
    (∀ (a : BitVec sh.aWidth) (b : BitVec sh.bWidth),
      BinaryOp.apply .logicalShiftRight (extend sh.aSigned sh.width a) (extend sh.bSigned sh.width b) =
        Simlib.binary .shr sh a b) ↔ sh.aWidth ≤ sh.width ∧ sh.bWidth ≤ sh.width := by
  constructor
  · intro h
    have hbfit : sh.bWidth ≤ sh.width := by
      refine Nat.le_of_not_lt fun hlt => ?_
      -- one, shifted by an amount that is lost: the adapter keeps its lowest bit
      obtain ⟨hlost, hfull⟩ := toNat_amount_lost hb hlt
      have hbit := congrArg (fun v => v.getLsbD 0) (h (1#(sh.aWidth)) (BitVec.ofNat sh.bWidth (2 ^ sh.width)))
      have hpow : sh.width < 2 ^ sh.width := Nat.lt_two_pow_self
      simp only [BinaryOp.apply, Simlib.binary, Simlib.shifted, hlost, hfull] at hbit
      rw [BitVec.ushiftRight_zero, getLsbD_zero_extend_one sh.aSigned ha hw, BitVec.getLsbD_setWidth,
        getLsbD_zero_extend_one_shifted sh.aSigned (by omega)
          (fun hle => by simp only [Shape.shiftWidth]; omega)] at hbit
      simp at hbit
    refine ⟨Nat.le_of_not_lt fun hlt => ?_, hbfit⟩
    -- the bit just above the result, shifted down by one
    have hone : (1#(sh.bWidth)).toNat = 1 := by
      rw [BitVec.toNat_ofNat, Nat.mod_eq_of_lt]
      exact Nat.one_lt_two_pow (by omega)
    have hbit := congrArg (fun v => v.getLsbD (sh.width - 1)) (h (BitVec.twoPow sh.aWidth sh.width) (1#(sh.bWidth)))
    have h1 : 1 + (sh.width - 1) = sh.width := by omega
    have h2 : sh.width < sh.shiftWidth := lt_of_lt_of_le hlt (Nat.le_max_left _ _)
    have h3 : sh.width - 1 < sh.width := by omega
    simp only [BinaryOp.apply, Simlib.binary, Simlib.shifted, toNat_amount hb hbfit, hone, BitVec.getLsbD_setWidth,
      getLsbD_ushiftRight_extend, h1, Nat.lt_irrefl, hlt, h2, h3, decide_true, decide_false, Bool.true_and, Bool.false_and,
      if_true, BitVec.getLsbD_twoPow] at hbit
    cases hbit
  · rintro ⟨hale, hble⟩ a b
    have hwidth : sh.shiftWidth = sh.width := Nat.max_eq_right hale
    rw [BinaryOp.apply, Simlib.binary, Simlib.shifted, toNat_amount hb hble]
    apply BitVec.eq_of_getLsbD_eq
    intro i hi
    rw [BitVec.getLsbD_setWidth, getLsbD_ushiftRight_extend, getLsbD_ushiftRight_extend, hwidth]
    simp [hi]

end LogicalShift

/-! ## `$shiftx` -/

section PartSelect

variable {sh : Shape} {σ : Hw.St} {src : SourceLocation}

/-- The accepted `$shiftx` with a fill of zeros selects the bits of A from the amount up, and zeros past its end. -/
theorem partSelect_denotes (hw : 0 < sh.width) {l r fill : Expr} {a : BitVec sh.aWidth} {b : BitVec sh.bWidth}
    (hl : Denotes σ l a) (hr : Denotes σ r b) (hfill : Denotes σ fill (0#(sh.width))) :
    Denotes σ (partSelect l r fill sh.width src) (Simlib.shiftx sh a b) := by
  have hextended : Denotes σ (.concat (sh.width + sh.aWidth) fill l src) (0#(sh.width) ++ a) := hfill.concat hl src
  unfold partSelect
  have hconcat : ∀ w : Nat, (Expr.concat w fill l src).width = w := fun _ => rfl
  simp only [hconcat, hl.width_eq, hr.width_eq, Nat.add_comm sh.aWidth sh.width]
  generalize hworkdef : max (sh.width + sh.aWidth) sh.bWidth = work
  have hwork : 0 < work := by omega
  have hv := hextended.resize hwork false src
  have hamount := hr.resize hwork false src
  have hshifted := (hv.apply .logicalShiftRight rfl hamount src).resize hw false src
  have hrange := hamount.compare .unsignedLessThan rfl (Denotes.literal hwork sh.aWidth src) src
  rw [BinaryOp.compare, ult_ofNat (lt_two_pow_of_le (by omega)), toNat_extend_false (by omega)] at hrange
  have h := Denotes.muxBool hrange hshifted hfill src
  have hvalue : (if decide (b.toNat < sh.aWidth) = true then
        extend false sh.width (BinaryOp.apply .logicalShiftRight (extend false work (0#(sh.width) ++ a)) (extend false work b))
      else 0#(sh.width)) = Simlib.shiftx sh a b := by
    apply BitVec.eq_of_getLsbD_eq
    intro i hi
    rw [Simlib.shiftx, getLsbD_ofBits, decide_eq_true hi, Bool.true_and, BinaryOp.apply, toNat_extend_false (by omega)]
    by_cases hk : b.toNat < sh.aWidth
    · have h1 : b.toNat + i < work := by omega
      have h2 : b.toNat + i < sh.width + sh.aWidth := by omega
      rw [if_pos (decide_eq_true hk), extend_false, BitVec.getLsbD_setWidth, getLsbD_ushiftRight_extend]
      rw [decide_eq_true hi, decide_eq_true h1, Bool.true_and, Bool.true_and, if_pos h2, BitVec.getLsbD_append]
      by_cases hin : b.toNat + i < sh.aWidth
      · rw [if_pos hin, if_pos hin]
      · rw [if_neg hin, if_neg hin, BitVec.getLsbD_zero]
    · have h1 : ¬b.toNat + i < sh.aWidth := by omega
      rw [if_neg (by simpa using hk), if_neg h1]
      simp
  rw [hvalue] at h
  exact h

end PartSelect

end LoomImport
