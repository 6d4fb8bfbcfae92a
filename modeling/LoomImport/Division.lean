import LoomImport.Shifts

/-!
# The division cells

`$div` and `$mod` are brought to the width of the result before dividing, and the division is unsigned whatever the operands are.
What the expression denotes is compared with the simlib value as a fact about numbers: the truncating quotient or remainder of the
operands against the quotient or remainder of their residues. The widths at which the two agree for all operands are given exactly.
-/

namespace LoomImport

open ImportIR Words ShiftsAux

namespace DivisionAux

variable {n : Nat}

/-- Sign extension, or truncation, of a word is its integer at the other width. -/
theorem extend_true_eq_ofInt (w : Nat) (v : BitVec n) : extend true w v = BitVec.ofInt w v.toInt := rfl

/-- Zero extension, or truncation, of a word is its number at the other width. -/
theorem extend_false_eq_ofNat (w : Nat) (v : BitVec n) : extend false w v = BitVec.ofNat w v.toNat := by
  apply BitVec.eq_of_toNat_eq
  rw [extend_false, BitVec.toNat_setWidth, BitVec.toNat_ofNat]

/-- A signed word of a larger width, truncated, is its integer at the smaller width. -/
theorem setWidth_eq_ofInt {w v : Nat} (h : w ≤ v) (x : BitVec v) : x.setWidth w = BitVec.ofInt w x.toInt := by
  rw [← extend_true_eq_ofInt, extend_of_le true h]

/-- An integer taken modulo a larger power of two gives the same word. -/
theorem ofInt_bmod {w v : Nat} (h : w ≤ v) (k : Int) : BitVec.ofInt w (k.bmod (2 ^ v)) = BitVec.ofInt w k := by
  apply BitVec.eq_of_toInt_eq
  rw [BitVec.toInt_ofInt, BitVec.toInt_ofInt]
  exact Int.bmod_bmod_of_dvd (Nat.pow_dvd_pow 2 h)

end DivisionAux

open DivisionAux

section

variable {sh : Shape}

/-- The simlib value of a signed division: the truncating quotient of the integers. -/
theorem simlib_div_signed (hs : sh.signed = true) (a : BitVec sh.aWidth) (b : BitVec sh.bWidth) :
    Simlib.binary .div sh a b = BitVec.ofInt sh.width (a.toInt.tdiv b.toInt) := by
  have hle : sh.width ≤ sh.operationWidth := by
    simp only [Shape.operationWidth]
    omega
  have ha : sh.aWidth ≤ sh.operationWidth := Nat.le_max_left _ _
  have hb : sh.bWidth ≤ sh.operationWidth := by
    simp only [Shape.operationWidth]
    omega
  rw [Simlib.binary, Simlib.div, Simlib.arithmetic, hs, if_pos rfl, setWidth_eq_ofInt hle, BitVec.toInt_sdiv,
    toInt_extend_true ha, toInt_extend_true hb, ofInt_bmod hle]

/-- The simlib value of a signed remainder: it has the sign of the dividend. -/
theorem simlib_mod_signed (hs : sh.signed = true) (a : BitVec sh.aWidth) (b : BitVec sh.bWidth) :
    Simlib.binary .mod sh a b = BitVec.ofInt sh.width (a.toInt.tmod b.toInt) := by
  have hle : sh.width ≤ sh.operationWidth := by
    simp only [Shape.operationWidth]
    omega
  have ha : sh.aWidth ≤ sh.operationWidth := Nat.le_max_left _ _
  have hb : sh.bWidth ≤ sh.operationWidth := by
    simp only [Shape.operationWidth]
    omega
  rw [Simlib.binary, Simlib.mod, Simlib.arithmetic, hs, if_pos rfl, setWidth_eq_ofInt hle, BitVec.toInt_srem,
    toInt_extend_true ha, toInt_extend_true hb]

/-- The simlib value of an unsigned division. -/
theorem simlib_div_unsigned (hs : sh.signed = false) (a : BitVec sh.aWidth) (b : BitVec sh.bWidth) :
    Simlib.binary .div sh a b = BitVec.ofNat sh.width (a.toNat / b.toNat) := by
  have ha : sh.aWidth ≤ sh.operationWidth := Nat.le_max_left _ _
  have hb : sh.bWidth ≤ sh.operationWidth := by
    simp only [Shape.operationWidth]
    omega
  apply BitVec.eq_of_toNat_eq
  rw [Simlib.binary, Simlib.div, Simlib.arithmetic, hs, if_neg Bool.false_ne_true, BitVec.toNat_setWidth, BitVec.toNat_udiv,
    toNat_extend_false ha, toNat_extend_false hb, BitVec.toNat_ofNat]

/-- The simlib value of an unsigned remainder. -/
theorem simlib_mod_unsigned (hs : sh.signed = false) (a : BitVec sh.aWidth) (b : BitVec sh.bWidth) :
    Simlib.binary .mod sh a b = BitVec.ofNat sh.width (a.toNat % b.toNat) := by
  have ha : sh.aWidth ≤ sh.operationWidth := Nat.le_max_left _ _
  have hb : sh.bWidth ≤ sh.operationWidth := by
    simp only [Shape.operationWidth]
    omega
  apply BitVec.eq_of_toNat_eq
  rw [Simlib.binary, Simlib.mod, Simlib.arithmetic, hs, if_neg Bool.false_ne_true, BitVec.toNat_setWidth, BitVec.toNat_umod,
    toNat_extend_false ha, toNat_extend_false hb, BitVec.toNat_ofNat]

end

/-! ## Unsigned operands -/

section Unsigned

variable {sh : Shape}

/-- The widths at which an unsigned division or remainder brought to the width of the result is right: no operand loses a bit, or
the only divisor is one. -/
def Shape.dividesUnsigned (sh : Shape) : Prop := (sh.aWidth ≤ sh.width ∧ sh.bWidth ≤ sh.width) ∨ sh.bWidth = 1

/-- A divisor of one bit that is not zero is one. -/
theorem toNat_of_width_one {n : Nat} (hn : n = 1) {b : BitVec n} (hb : b ≠ 0) : b.toNat = 1 := by
  subst hn
  have hlt := b.isLt
  have hne : b.toNat ≠ 0 := fun h => hb (BitVec.eq_of_toNat_eq (by rw [h]; rfl))
  omega

/-- A number that fits keeps its value as a word. -/
theorem toNat_ofNat_of_lt {w k : Nat} (h : k < 2 ^ w) : (BitVec.ofNat w k).toNat = k := by
  rw [BitVec.toNat_ofNat, Nat.mod_eq_of_lt h]

theorem ofNat_ne_zero {w k : Nat} (h : k < 2 ^ w) (hk : k ≠ 0) : BitVec.ofNat w k ≠ 0 := by
  intro he
  have h' := congrArg BitVec.toNat he
  rw [toNat_ofNat_of_lt h] at h'
  exact hk h'

/-- `$div` with unsigned operands. -/
theorem div_unsigned_eq_iff (ha : 0 < sh.aWidth) (hbw : 0 < sh.bWidth) (hw : 0 < sh.width) :
    (∀ (a : BitVec sh.aWidth) (b : BitVec sh.bWidth), b ≠ 0 →
      extend false sh.width a / extend false sh.width b = BitVec.ofNat sh.width (a.toNat / b.toNat)) ↔
      sh.dividesUnsigned := by
  constructor
  · intro h
    refine Classical.byContradiction fun hno => ?_
    simp only [Shape.dividesUnsigned, not_or, not_and_or] at hno
    obtain ⟨hwide, hb1⟩ := hno
    have hone : 1 < 2 ^ sh.width := Nat.one_lt_two_pow (by omega)
    by_cases hbfit : sh.bWidth ≤ sh.width
    · -- a dividend whose only bit is lost, divided by two
      have hlt : sh.width < sh.aWidth := by omega
      have hA : 2 ^ sh.width < 2 ^ sh.aWidth := Nat.pow_lt_pow_right (by omega) hlt
      have hB : 2 < 2 ^ sh.bWidth := lt_of_lt_of_le (by omega) (Nat.pow_le_pow_right (by omega) (by omega : 2 ≤ sh.bWidth))
      have hv := congrArg BitVec.toNat (h (BitVec.ofNat _ (2 ^ sh.width)) (BitVec.ofNat _ 2) (ofNat_ne_zero hB (by omega)))
      have hhalf : 2 ^ sh.width / 2 = 2 ^ (sh.width - 1) := by
        rw [two_pow_eq hw, Nat.mul_div_cancel_left _ (by omega)]
      have hpos : 0 < 2 ^ (sh.width - 1) := Nat.two_pow_pos _
      rw [extend_false_eq_ofNat, extend_false_eq_ofNat, BitVec.toNat_udiv, toNat_ofNat_of_lt hA, toNat_ofNat_of_lt hB,
        BitVec.toNat_ofNat, Nat.mod_self, Nat.zero_div, BitVec.toNat_ofNat, hhalf, Nat.mod_eq_of_lt (by
          exact Nat.pow_lt_pow_right (by omega) (by omega))] at hv
      omega
    · -- one, divided by a divisor that becomes one
      have hle : 2 ^ (sh.width + 1) ≤ 2 ^ sh.bWidth := Nat.pow_le_pow_right (by omega) (by omega)
      have hB : 2 ^ sh.width + 1 < 2 ^ sh.bWidth := by
        rw [Nat.pow_succ] at hle
        omega
      have hA : 1 < 2 ^ sh.aWidth := Nat.one_lt_two_pow (by omega)
      have hv := congrArg BitVec.toNat
        (h (BitVec.ofNat _ 1) (BitVec.ofNat _ (2 ^ sh.width + 1)) (ofNat_ne_zero hB (by omega)))
      rw [extend_false_eq_ofNat, extend_false_eq_ofNat, BitVec.toNat_udiv, toNat_ofNat_of_lt hA, toNat_ofNat_of_lt hB,
        BitVec.toNat_ofNat, BitVec.toNat_ofNat, BitVec.toNat_ofNat, Nat.add_mod_left, Nat.mod_eq_of_lt hone,
        Nat.div_eq_of_lt (by omega : 1 < 2 ^ sh.width + 1)] at hv
      simp at hv
  · intro h a b hb
    apply BitVec.eq_of_toNat_eq
    rw [BitVec.toNat_udiv, BitVec.toNat_ofNat]
    rcases h with ⟨hA, hB⟩ | h1
    · rw [toNat_extend_false hA, toNat_extend_false hB, Nat.mod_eq_of_lt]
      exact lt_of_le_of_lt (Nat.div_le_self _ _) (lt_of_lt_of_le a.isLt (Nat.pow_le_pow_right (by omega) hA))
    · rw [toNat_extend_false (by omega : sh.bWidth ≤ sh.width), toNat_of_width_one h1 hb, Nat.div_one, Nat.div_one,
        extend_false, BitVec.toNat_setWidth]

/-- `$mod` with unsigned operands. -/
theorem mod_unsigned_eq_iff (ha : 0 < sh.aWidth) (hbw : 0 < sh.bWidth) (hw : 0 < sh.width) :
    (∀ (a : BitVec sh.aWidth) (b : BitVec sh.bWidth), b ≠ 0 →
      extend false sh.width a % extend false sh.width b = BitVec.ofNat sh.width (a.toNat % b.toNat)) ↔
      sh.dividesUnsigned := by
  constructor
  · intro h
    refine Classical.byContradiction fun hno => ?_
    simp only [Shape.dividesUnsigned, not_or, not_and_or] at hno
    obtain ⟨hwide, hb1⟩ := hno
    have hone : 1 < 2 ^ sh.width := Nat.one_lt_two_pow (by omega)
    by_cases hbfit : sh.bWidth ≤ sh.width
    · -- a dividend whose only bit is lost, divided by three
      have hlt : sh.width < sh.aWidth := by omega
      have hfour : 2 ^ 2 ≤ 2 ^ sh.bWidth := Nat.pow_le_pow_right (by omega) (by omega)
      have hfour' : 2 ^ 2 ≤ 2 ^ sh.width := Nat.pow_le_pow_right (by omega) (by omega)
      have hA : 2 ^ sh.width < 2 ^ sh.aWidth := Nat.pow_lt_pow_right (by omega) hlt
      have hB : 3 < 2 ^ sh.bWidth := by omega
      have hv := congrArg BitVec.toNat (h (BitVec.ofNat _ (2 ^ sh.width)) (BitVec.ofNat _ 3) (ofNat_ne_zero hB (by omega)))
      have hrest : 2 ^ sh.width % 3 ≠ 0 := by
        intro h0
        have h3 : Nat.Coprime 3 (2 ^ sh.width) := Nat.Coprime.pow_right _ (by decide)
        have h1 := h3.eq_one_of_dvd (Nat.dvd_of_mod_eq_zero h0)
        omega
      rw [extend_false_eq_ofNat, extend_false_eq_ofNat, BitVec.toNat_umod, toNat_ofNat_of_lt hA, toNat_ofNat_of_lt hB,
        BitVec.toNat_ofNat, Nat.mod_self, Nat.zero_mod, BitVec.toNat_ofNat, Nat.mod_eq_of_lt (a := 2 ^ sh.width % 3) (by
          have h3 : 2 ^ sh.width % 3 < 3 := Nat.mod_lt _ (by omega)
          omega)] at hv
      exact hrest hv.symm
    · -- one, divided by a divisor that becomes one
      have hle : 2 ^ (sh.width + 1) ≤ 2 ^ sh.bWidth := Nat.pow_le_pow_right (by omega) (by omega)
      have hB : 2 ^ sh.width + 1 < 2 ^ sh.bWidth := by
        rw [Nat.pow_succ] at hle
        omega
      have hA : 1 < 2 ^ sh.aWidth := Nat.one_lt_two_pow (by omega)
      have hv := congrArg BitVec.toNat
        (h (BitVec.ofNat _ 1) (BitVec.ofNat _ (2 ^ sh.width + 1)) (ofNat_ne_zero hB (by omega)))
      rw [extend_false_eq_ofNat, extend_false_eq_ofNat, BitVec.toNat_umod, toNat_ofNat_of_lt hA, toNat_ofNat_of_lt hB,
        toNat_ofNat_of_lt hone, BitVec.toNat_ofNat, Nat.add_mod_left, Nat.mod_eq_of_lt hone, Nat.mod_self,
        Nat.mod_eq_of_lt (by omega : 1 < 2 ^ sh.width + 1), toNat_ofNat_of_lt hone] at hv
      cases hv
  · intro h a b hb
    apply BitVec.eq_of_toNat_eq
    rw [BitVec.toNat_umod, BitVec.toNat_ofNat]
    rcases h with ⟨hA, hB⟩ | h1
    · rw [toNat_extend_false hA, toNat_extend_false hB, Nat.mod_eq_of_lt (b := 2 ^ sh.width)]
      exact lt_of_le_of_lt (Nat.mod_le _ _) (lt_of_lt_of_le a.isLt (Nat.pow_le_pow_right (by omega) hA))
    · rw [toNat_extend_false (by omega : sh.bWidth ≤ sh.width), toNat_of_width_one h1 hb, Nat.mod_one, Nat.mod_one,
        Nat.zero_mod]

end Unsigned

/-! ## Signed operands -/

section Signed

variable {sh : Shape}

/-- The widths at which a signed division brought to the width of the result is right. The only divisor of one bit is minus one, and
the one-bit quotient by it is the dividend; with two bits the divisors are one, minus one and minus two. -/
def Shape.dividesSigned (sh : Shape) : Prop :=
  (sh.bWidth = 1 ∧ (sh.aWidth = 1 ∨ sh.width = 1)) ∨ (sh.aWidth = 1 ∧ sh.bWidth = 2 ∧ sh.width = 1)

/-- The widths at which a signed remainder brought to the width of the result is right. -/
def Shape.remaindersSigned (sh : Shape) : Prop :=
  (sh.bWidth = 1 ∧ (sh.aWidth = 1 ∨ sh.width = 1)) ∨ (sh.bWidth = 2 ∧ sh.width = 1)

/-- An integer of at most `m + 1` bits is one of every width above `m`. -/
theorem fits_of_small {w m : Nat} (hm : m < w) {k : Int} (h : -2 ^ m ≤ k ∧ k < 2 ^ m) :
    -2 ^ (w - 1) ≤ k ∧ k < 2 ^ (w - 1) := by
  have hnat : 2 ^ m ≤ 2 ^ (w - 1) := Nat.pow_le_pow_right (by omega) (by omega)
  have hint : (2 : Int) ^ m ≤ 2 ^ (w - 1) := by exact_mod_cast hnat
  omega

/-- An integer of few bits keeps its value as a word. -/
theorem toInt_ofInt_of_small {w m : Nat} (hm : m < w) {k : Int} (h : -2 ^ m ≤ k ∧ k < 2 ^ m) :
    (BitVec.ofInt w k).toInt = k :=
  BitVec.toInt_ofInt_eq_self (by omega) (fits_of_small hm h).1 (fits_of_small hm h).2

/-- An integer of few bits that is not zero is a word that is not zero. -/
theorem ofInt_ne_zero {w m : Nat} (hm : m < w) {k : Int} (h : -2 ^ m ≤ k ∧ k < 2 ^ m ∧ k ≠ 0) : BitVec.ofInt w k ≠ 0 := by
  intro he
  have hv := toInt_ofInt_of_small hm ⟨h.1, h.2.1⟩
  rw [he] at hv
  exact h.2.2 (by simpa using hv.symm)

/-- The word of a negative integer. -/
theorem toNat_ofInt_neg {w k : Nat} (hk : 0 < k) (h : k < 2 ^ w) : (BitVec.ofInt w (-(k : Int))).toNat = 2 ^ w - k := by
  rw [BitVec.ofInt_neg, BitVec.ofInt_natCast, BitVec.toNat_neg, toNat_ofNat_of_lt h, Nat.mod_eq_of_lt (by omega)]

/-- A fact about the operands of a cell, at integers of few bits. -/
theorem at_small {sh : Shape} {P : Int → Int → Prop}
    (h : ∀ (a : BitVec sh.aWidth) (b : BitVec sh.bWidth), b ≠ 0 → P a.toInt b.toInt) {m k : Nat} (hm : m < sh.aWidth)
    (hk : k < sh.bWidth) {x y : Int} (hx : -2 ^ m ≤ x ∧ x < 2 ^ m) (hy : -2 ^ k ≤ y ∧ y < 2 ^ k) (hne : y ≠ 0) : P x y := by
  have hp := h (BitVec.ofInt _ x) (BitVec.ofInt _ y) (ofInt_ne_zero hk ⟨hy.1, hy.2, hne⟩)
  rw [toInt_ofInt_of_small hm hx, toInt_ofInt_of_small hk hy] at hp
  exact hp

/-- The words of one bit. -/
theorem toInt_of_width_one {n : Nat} (hn : n = 1) (a : BitVec n) : a.toInt = 0 ∨ a.toInt = -1 := by
  subst hn
  revert a
  decide

/-- A divisor of one bit that is not zero is minus one. -/
theorem toInt_of_width_one_ne {n : Nat} (hn : n = 1) {b : BitVec n} (hb : b ≠ 0) : b.toInt = -1 := by
  subst hn
  revert b
  decide

/-- A divisor of two bits that is not zero. -/
theorem toInt_of_width_two_ne {n : Nat} (hn : n = 2) {b : BitVec n} (hb : b ≠ 0) :
    b.toInt = 1 ∨ b.toInt = -1 ∨ b.toInt = -2 := by
  subst hn
  revert b
  decide

/-- The quotient of the words of two integers is the word of their quotient. -/
def QuotientAgrees (w : Nat) (x y : Int) : Prop := BitVec.ofInt w x / BitVec.ofInt w y = BitVec.ofInt w (x.tdiv y)

/-- The remainder of the words of two integers is the word of their remainder. -/
def RemainderAgrees (w : Nat) (x y : Int) : Prop := BitVec.ofInt w x % BitVec.ofInt w y = BitVec.ofInt w (x.tmod y)

instance (w : Nat) (x y : Int) : Decidable (QuotientAgrees w x y) := inferInstanceAs (Decidable (_ = _))

instance (w : Nat) (x y : Int) : Decidable (RemainderAgrees w x y) := inferInstanceAs (Decidable (_ = _))

/-! ### Where they disagree -/

/-- From two bits on, minus one, minus two and one are three numbers. -/
theorem toNat_words {w : Nat} (hw : 2 ≤ w) :
    4 ≤ 2 ^ w ∧ (BitVec.ofInt w 1).toNat = 1 ∧ (BitVec.ofInt w (-1)).toNat = 2 ^ w - 1 ∧
      (BitVec.ofInt w (-2)).toNat = 2 ^ w - 2 := by
  have hfour : 2 ^ 2 ≤ 2 ^ w := Nat.pow_le_pow_right (by omega) hw
  refine ⟨hfour, ?_, ?_, ?_⟩
  · exact toNat_ofNat_of_lt (k := 1) (by omega)
  · exact toNat_ofInt_neg (k := 1) (by omega) (by omega)
  · exact toNat_ofInt_neg (k := 2) (by omega) (by omega)

theorem not_quotient_one_negOne {w : Nat} (hw : 2 ≤ w) : ¬QuotientAgrees w 1 (-1) := by
  intro h
  obtain ⟨hfour, hone, hneg, -⟩ := toNat_words hw
  have hv := congrArg BitVec.toNat h
  rw [BitVec.toNat_udiv, hone, hneg, Nat.div_eq_of_lt (by omega), show Int.tdiv 1 (-1) = -1 from rfl, hneg] at hv
  omega

theorem not_quotient_negOne_negTwo {w : Nat} (hw : 2 ≤ w) : ¬QuotientAgrees w (-1) (-2) := by
  intro h
  obtain ⟨hfour, -, hone, htwo⟩ := toNat_words hw
  have hv := congrArg BitVec.toNat h
  have hle : 1 ≤ (2 ^ w - 1) / (2 ^ w - 2) := (Nat.one_le_div_iff (by omega)).2 (by omega)
  rw [BitVec.toNat_udiv, hone, htwo, show Int.tdiv (-1) (-2) = 0 from rfl] at hv
  simp at hv
  omega

theorem not_remainder_one_negOne {w : Nat} (hw : 2 ≤ w) : ¬RemainderAgrees w 1 (-1) := by
  intro h
  obtain ⟨hfour, hone, hneg, -⟩ := toNat_words hw
  have hv := congrArg BitVec.toNat h
  rw [BitVec.toNat_umod, hone, hneg, Nat.mod_eq_of_lt (by omega), show Int.tmod 1 (-1) = 0 from rfl] at hv
  simp at hv

theorem not_remainder_negOne_negTwo {w : Nat} (hw : 2 ≤ w) : ¬RemainderAgrees w (-1) (-2) := by
  intro h
  obtain ⟨hfour, -, hone, htwo⟩ := toNat_words hw
  have hv := congrArg BitVec.toNat h
  have hsplit : 2 ^ w - 1 = 1 + (2 ^ w - 2) := by omega
  rw [BitVec.toNat_umod, show Int.tmod (-1) (-2) = -1 from rfl, hone, htwo, hsplit, Nat.add_mod_right,
    Nat.mod_eq_of_lt (by omega)] at hv
  omega

/-! ### Where they agree -/

/-- Dividing the words of one bit by minus one. -/
theorem quotient_negOne {n w : Nat} (h : n = 1 ∨ w = 1) (a : BitVec n) : QuotientAgrees w a.toInt (-1) := by
  have hneg : a.toInt.tdiv (-1) = -a.toInt := by rw [Int.tdiv_neg, Int.tdiv_one]
  unfold QuotientAgrees
  rw [hneg]
  rcases h with h | h
  · rcases toInt_of_width_one h a with h0 | h1
    · rw [h0]
      simp
    · rcases Nat.eq_zero_or_pos w with rfl | hw
      · exact BitVec.of_length_zero.trans BitVec.of_length_zero.symm
      · have hne : BitVec.ofInt w (-1) ≠ 0 := ofInt_ne_zero hw (by decide)
        rw [h1, BitVec.udiv_self, if_neg (by simpa using hne), Int.neg_neg]
        rfl
  · subst h
    rw [BitVec.ofInt_neg, BitVec.ofInt_neg]
    generalize BitVec.ofInt 1 a.toInt = x
    revert x
    decide

/-- The remainder by minus one. -/
theorem remainder_negOne {n w : Nat} (h : n = 1 ∨ w = 1) (a : BitVec n) : RemainderAgrees w a.toInt (-1) := by
  have hzero : a.toInt.tmod (-1) = 0 := by rw [Int.tmod_neg, Int.tmod_one]
  unfold RemainderAgrees
  rw [hzero]
  rcases h with h | h
  · rcases toInt_of_width_one h a with h0 | h1
    · rw [h0]
      simp
    · rw [h1, BitVec.umod_self]
      rfl
  · subst h
    generalize BitVec.ofInt 1 a.toInt = x
    revert x
    decide

/-- In one bit, the remainder by minus two is the dividend. -/
theorem remainder_negTwo (x : Int) : RemainderAgrees 1 x (-2) := by
  unfold RemainderAgrees
  rw [Int.tmod_def, Int.neg_mul, Int.sub_neg, BitVec.ofInt_add, BitVec.ofInt_mul]
  have htwo : BitVec.ofInt 1 2 = 0 := by decide
  have hneg : BitVec.ofInt 1 (-2) = 0#1 := by decide
  rw [htwo, hneg, BitVec.umod_zero]
  simp

/-- In one bit, the remainder by one is zero. -/
theorem remainder_one (x : Int) : RemainderAgrees 1 x 1 := by
  unfold RemainderAgrees
  rw [Int.tmod_one]
  generalize BitVec.ofInt 1 x = y
  revert y
  decide

/-- `$div` with signed operands. -/
theorem div_signed_eq_iff (ha : 0 < sh.aWidth) (hbw : 0 < sh.bWidth) (hw : 0 < sh.width) :
    (∀ (a : BitVec sh.aWidth) (b : BitVec sh.bWidth), b ≠ 0 → QuotientAgrees sh.width a.toInt b.toInt) ↔
      sh.dividesSigned := by
  unfold Shape.dividesSigned
  constructor
  · intro h
    by_cases hb1 : sh.bWidth = 1
    · refine Or.inl ⟨hb1, Classical.byContradiction fun hno => ?_⟩
      obtain ⟨ha2, hw2⟩ := not_or.1 hno
      exact not_quotient_one_negOne (by omega)
        (at_small h (by omega : 1 < sh.aWidth) (by omega : 0 < sh.bWidth) (by decide) (by decide) (by decide))
    · by_cases hw2 : 2 ≤ sh.width
      · exact absurd (at_small h ha (by omega : 1 < sh.bWidth) (by decide) (by decide) (by decide))
          (not_quotient_negOne_negTwo hw2)
      · have hw1 : sh.width = 1 := by omega
        by_cases ha2 : 2 ≤ sh.aWidth
        · have hbad := at_small h (by omega : 1 < sh.aWidth) (by omega : 1 < sh.bWidth) (x := -2) (y := -2) (by decide)
            (by decide) (by decide)
          rw [hw1] at hbad
          exact absurd hbad (by decide)
        · refine Or.inr ⟨by omega, Classical.byContradiction fun hb2 => ?_, hw1⟩
          have hbad := at_small h ha (by omega : 2 < sh.bWidth) (x := -1) (y := 3) (by decide) (by decide) (by decide)
          rw [hw1] at hbad
          exact absurd hbad (by decide)
  · intro h a b hb
    rcases h with ⟨hb1, hcase⟩ | ⟨ha1, hb2, hw1⟩
    · rw [toInt_of_width_one_ne hb1 hb]
      exact quotient_negOne hcase a
    · rw [hw1]
      rcases toInt_of_width_one ha1 a with h0 | h0 <;> rcases toInt_of_width_two_ne hb2 hb with h1 | h1 | h1 <;>
        rw [h0, h1] <;> decide

/-- `$mod` with signed operands. -/
theorem mod_signed_eq_iff (ha : 0 < sh.aWidth) (hbw : 0 < sh.bWidth) (hw : 0 < sh.width) :
    (∀ (a : BitVec sh.aWidth) (b : BitVec sh.bWidth), b ≠ 0 → RemainderAgrees sh.width a.toInt b.toInt) ↔
      sh.remaindersSigned := by
  unfold Shape.remaindersSigned
  constructor
  · intro h
    by_cases hb1 : sh.bWidth = 1
    · refine Or.inl ⟨hb1, Classical.byContradiction fun hno => ?_⟩
      obtain ⟨ha2, hw2⟩ := not_or.1 hno
      exact not_remainder_one_negOne (by omega)
        (at_small h (by omega : 1 < sh.aWidth) (by omega : 0 < sh.bWidth) (by decide) (by decide) (by decide))
    · by_cases hw2 : 2 ≤ sh.width
      · exact absurd (at_small h ha (by omega : 1 < sh.bWidth) (by decide) (by decide) (by decide))
          (not_remainder_negOne_negTwo hw2)
      · have hw1 : sh.width = 1 := by omega
        refine Or.inr ⟨Classical.byContradiction fun hb2 => ?_, hw1⟩
        have hbad := at_small h ha (by omega : 2 < sh.bWidth) (x := -1) (y := 3) (by decide) (by decide) (by decide)
        rw [hw1] at hbad
        exact absurd hbad (by decide)
  · intro h a b hb
    rcases h with ⟨hb1, hcase⟩ | ⟨hb2, hw1⟩
    · rw [toInt_of_width_one_ne hb1 hb]
      exact remainder_negOne hcase a
    · rw [hw1]
      rcases toInt_of_width_two_ne hb2 hb with h1 | h1 | h1
      · rw [h1]
        exact remainder_one _
      · rw [h1]
        exact remainder_negOne (Or.inr rfl) a
      · rw [h1]
        exact remainder_negTwo _

end Signed

end LoomImport
