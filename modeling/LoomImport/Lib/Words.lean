import Mathlib.Data.BitVec

/-!
# Words: extension by a sign flag, words given bit by bit, masks

Facts about bit vectors in the form a translation between widths needs them: `extend` is zero or sign extension (or truncation)
by a flag, `ofBits` is the word with given bits, and `merge` replaces the bits a mask selects.
-/

namespace Words

/-! ## Extension by a flag -/

/-- Zero or sign extension to a width; truncation when the width is smaller. -/
def extend (signed : Bool) (w : Nat) {n : Nat} (v : BitVec n) : BitVec w :=
  if signed then v.signExtend w else v.setWidth w

section Extend

variable {n : Nat}

@[simp] theorem extend_false (w : Nat) (v : BitVec n) : extend false w v = v.setWidth w := rfl

@[simp] theorem extend_true (w : Nat) (v : BitVec n) : extend true w v = v.signExtend w := rfl

/-- Narrowing does not look at the sign. -/
theorem extend_of_le (signed : Bool) {w : Nat} (h : w ≤ n) (v : BitVec n) : extend signed w v = v.setWidth w := by
  cases signed
  · rfl
  · exact BitVec.signExtend_eq_setWidth_of_le v h

/-- Extending to the same width changes nothing. -/
theorem extend_self (signed : Bool) (v : BitVec n) : extend signed n v = v := by
  rw [extend_of_le signed (Nat.le_refl n), BitVec.setWidth_eq]

/-- The bits of an extension: those of the word, then its sign or zero. -/
theorem getLsbD_extend (signed : Bool) (w : Nat) (v : BitVec n) (i : Nat) :
    (extend signed w v).getLsbD i = (decide (i < w) && if i < n then v.getLsbD i else signed && v.msb) := by
  cases signed
  · rw [extend_false, BitVec.getLsbD_setWidth]
    by_cases h : i < n
    · simp [h]
    · simp [h, BitVec.getLsbD_of_ge v i (by omega)]
  · rw [extend_true, BitVec.getLsbD_signExtend]
    simp

/-- Truncating an extension is extending to the smaller width. -/
theorem setWidth_extend (signed : Bool) {w v : Nat} (h : v ≤ w) (x : BitVec n) :
    (extend signed w x).setWidth v = extend signed v x := by
  apply BitVec.eq_of_getLsbD_eq
  intro i hi
  have hw : i < w := by omega
  simp only [BitVec.getLsbD_setWidth, getLsbD_extend, hi, hw, decide_true, Bool.true_and]

/-- The sign of a word extended by its sign is the word's; extended by zeros to a larger width it is zero. -/
theorem msb_extend (signed : Bool) {w : Nat} (h : n < w) (v : BitVec n) :
    (extend signed w v).msb = (signed && v.msb) := by
  have h1 : ¬w - 1 < n := by omega
  have h2 : w - 1 < w := by omega
  rw [BitVec.msb_eq_getLsbD_last, getLsbD_extend]
  simp [h1, h2]

/-- Sign extension keeps the sign. -/
theorem msb_extend_true {w : Nat} (h : n ≤ w) (v : BitVec n) : (extend true w v).msb = v.msb := by
  rcases Nat.eq_or_lt_of_le h with rfl | hlt
  · rw [extend_self]
  · rw [msb_extend true hlt, Bool.true_and]

/-- Zero extension keeps the number. -/
theorem toNat_extend_false {w : Nat} (h : n ≤ w) (v : BitVec n) : (extend false w v).toNat = v.toNat := by
  rw [extend_false, BitVec.toNat_setWidth, Nat.mod_eq_of_lt]
  exact lt_of_lt_of_le v.isLt (Nat.pow_le_pow_right (by omega) h)

/-- Sign extension keeps the integer. -/
theorem toInt_extend_true {w : Nat} (h : n ≤ w) (v : BitVec n) : (extend true w v).toInt = v.toInt :=
  BitVec.toInt_signExtend_of_le h

/-- Addition commutes with truncation, and so does every other operation that only carries upwards. -/
theorem setWidth_sub {w v : Nat} (h : v ≤ w) (x y : BitVec w) : (x - y).setWidth v = x.setWidth v - y.setWidth v := by
  rw [BitVec.sub_eq_add_neg, BitVec.setWidth_add _ _ h, BitVec.setWidth_neg_of_le h, ← BitVec.sub_eq_add_neg]

/-- A slice of one bit is that bit. -/
theorem extractLsb'_one (v : BitVec n) (i : Nat) : v.extractLsb' i 1 = BitVec.ofBool (v.getLsbD i) := by
  apply BitVec.eq_of_getLsbD_eq
  intro j hj
  have hzero : j = 0 := by omega
  subst hzero
  rw [BitVec.getLsbD_extractLsb', Nat.add_zero]
  simp

end Extend

/-! ## Words given bit by bit -/

/-- The word of a width whose bits are given. -/
def ofBits : (w : Nat) → (Nat → Bool) → BitVec w
  | 0, _ => 0#0
  | w + 1, f => BitVec.cons (f w) (ofBits w f)

@[simp] theorem getLsbD_ofBits (w : Nat) (f : Nat → Bool) (i : Nat) :
    (ofBits w f).getLsbD i = (decide (i < w) && f i) := by
  induction w with
  | zero => simp [ofBits]
  | succ w ih =>
    rw [ofBits, BitVec.getLsbD_cons, ih]
    rcases Nat.lt_trichotomy i w with h | rfl | h
    · have h1 : i ≠ w := by omega
      have h2 : i < w + 1 := by omega
      simp [h, h1, h2]
    · simp
    · have h1 : i ≠ w := by omega
      have h2 : ¬i < w := by omega
      have h3 : ¬i < w + 1 := by omega
      simp [h1, h2, h3]

/-- Two words given bit by bit are equal when the bits below the width agree. -/
theorem ofBits_congr {w : Nat} {f g : Nat → Bool} (h : ∀ i < w, f i = g i) : ofBits w f = ofBits w g := by
  apply BitVec.eq_of_getLsbD_eq
  intro i hi
  rw [getLsbD_ofBits, getLsbD_ofBits, h i hi]

/-- A word is given by its own bits. -/
theorem ofBits_getLsbD {w : Nat} (v : BitVec w) : ofBits w v.getLsbD = v := by
  apply BitVec.eq_of_getLsbD_eq
  intro i hi
  rw [getLsbD_ofBits, decide_eq_true hi, Bool.true_and]

/-! ## Masks -/

/-- Replace the bits a mask selects by those of the data. -/
def merge {w : Nat} (old mask data : BitVec w) : BitVec w := (old &&& ~~~mask) ||| (data &&& mask)

section Merge

variable {w : Nat}

theorem getLsbD_merge (old mask data : BitVec w) (i : Nat) :
    (merge old mask data).getLsbD i = if mask.getLsbD i then data.getLsbD i else old.getLsbD i := by
  unfold merge
  by_cases hi : i < w
  · simp only [BitVec.getLsbD_or, BitVec.getLsbD_and, BitVec.getLsbD_not, hi, decide_true, Bool.true_and]
    cases mask.getLsbD i <;> simp
  · simp [BitVec.getLsbD_of_ge _ i (Nat.le_of_not_lt hi)]

/-- The empty mask replaces nothing. -/
@[simp] theorem merge_zero (old data : BitVec w) : merge old 0 data = old := by
  apply BitVec.eq_of_getLsbD_eq
  intro i _
  simp [getLsbD_merge]

/-- Merging twice is merging once, with the two masks joined and the data merged. -/
theorem merge_merge (old m₁ d₁ m₂ d₂ : BitVec w) :
    merge (merge old m₁ d₁) m₂ d₂ = merge old (m₁ ||| m₂) (merge d₁ m₂ d₂) := by
  apply BitVec.eq_of_getLsbD_eq
  intro i _
  simp only [getLsbD_merge, BitVec.getLsbD_or]
  cases m₁.getLsbD i <;> cases m₂.getLsbD i <;> rfl

end Merge

end Words
