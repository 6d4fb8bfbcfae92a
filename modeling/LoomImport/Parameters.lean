import LoomImport.Constants
import LoomImport.Prepare
import Mathlib.Tactic.Ring

/-!
# Parameters of constants

A constant parameter is a text of the digits 0, 1, x and z, most significant first. It is decoded to the number of its ones, so that
the digits x and z count as zero; the bits of a parameter of a known width keep them. A text that is an integer and has no unknown
digit is decoded to that integer, in whatever way it is spelled.
-/

namespace LoomImport

/-- A constant as Yosys writes it: digits, and not none. -/
def IsConstantText (text : String) : Prop := text ≠ "" ∧ ∀ c ∈ text.toList, c = '0' ∨ c = '1' ∨ c = 'x' ∨ c = 'z'

instance (text : String) : Decidable (IsConstantText text) :=
  @instDecidableAnd _ _ inferInstance (List.decidableBAll (fun c => c = '0' ∨ c = '1' ∨ c = 'x' ∨ c = 'z') text.toList)

/-- A number, or a constant. -/
def Param.Formed : Param → Prop
  | .int _ => True
  | .str text => IsConstantText text

instance (value : Param) : Decidable value.Formed :=
  match value with
  | .int _ => .isTrue trivial
  | .str text => inferInstanceAs (Decidable (IsConstantText text))

/-- The number of the ones of a text of digits, most significant first. -/
def onesOf (text : List Char) : Nat := natOfBits (text.reverse.map fun c => decide (c = '1'))

namespace ParametersAux

theorem natOfBits_concat (bits : List Bool) (b : Bool) :
    natOfBits (bits ++ [b]) = natOfBits bits + 2 ^ bits.length * b.toNat := by
  induction bits with
  | nil => simp [natOfBits]
  | cons c bits ih =>
    rw [List.cons_append, natOfBits, natOfBits, ih, List.length_cons, Nat.pow_succ]
    ring

theorem onesOf_cons (c : Char) (cs : List Char) : onesOf (c :: cs) = 2 ^ cs.length * (decide (c = '1')).toNat + onesOf cs := by
  unfold onesOf
  rw [List.reverse_cons, List.map_append, List.map_singleton, natOfBits_concat, List.length_map, List.length_reverse, Nat.add_comm]

/-- A number is zero when it has no ones. -/
theorem natOfBits_eq_zero {bits : List Bool} : natOfBits bits = 0 ↔ true ∉ bits := by
  induction bits with
  | nil => simp [natOfBits]
  | cons b bits ih =>
    rw [natOfBits, List.mem_cons, not_or, ← ih]
    cases b
    · simp
    · simp

/-! ## Binary texts -/

/-- The digits 0 and 1. -/
def Binary (cs : List Char) : Prop := ∀ c ∈ cs, c = '0' ∨ c = '1'

theorem digitsValue_binary {cs : List Char} (h : Binary cs) (acc : Nat) (afterDigit : Bool) (hne : cs ≠ [] ∨ afterDigit = true) :
    digitsValue 2 acc afterDigit cs = some (acc * 2 ^ cs.length + onesOf cs) := by
  induction cs generalizing acc afterDigit with
  | nil =>
    have hdigit : afterDigit = true := hne.resolve_left fun hnil => hnil rfl
    simp [digitsValue, hdigit, onesOf, natOfBits]
  | cons c cs ih =>
    have hrest := ih (fun d hd => h d (List.mem_cons_of_mem _ hd))
    rcases h c List.mem_cons_self with rfl | rfl
    · have hstep : digitsValue 2 acc afterDigit ('0' :: cs) = digitsValue 2 (acc * 2 + 0) true cs := by
        simp [digitsValue, show digitValue '0' = some 0 from rfl]
      rw [hstep, hrest _ _ (Or.inr rfl), onesOf_cons, List.length_cons, Nat.pow_succ]
      simp
      ring
    · have hstep : digitsValue 2 acc afterDigit ('1' :: cs) = digitsValue 2 (acc * 2 + 1) true cs := by
        simp [digitsValue, show digitValue '1' = some 1 from rfl]
      rw [hstep, hrest _ _ (Or.inr rfl), onesOf_cons, List.length_cons, Nat.pow_succ]
      simp
      ring

/-- White space is no digit. -/
theorem dropWhile_binary {cs : List Char} (h : Binary cs) : cs.dropWhile isAsciiSpace = cs := by
  cases cs with
  | nil => rfl
  | cons c cs =>
    rcases h c List.mem_cons_self with rfl | rfl
    · rfl
    · rfl

theorem map_toAscii_binary {cs : List Char} (h : Binary cs) : cs.map toAscii = cs := by
  refine (List.map_congr_left fun c hc => ?_).trans (List.map_id cs)
  rcases h c hc with rfl | rfl
  · rfl
  · rfl

/-- `int(text, 2)` of digits. -/
theorem pyInt_binary {cs : List Char} (h : Binary cs) (hne : cs ≠ []) : pyInt binaryLiteral cs = some (onesOf cs : Int) := by
  have hliteral : binaryLiteral cs = some (onesOf cs) := by
    have hvalue : digitsValue 2 0 false cs = some (onesOf cs) := by
      rw [digitsValue_binary h 0 false (Or.inl hne), Nat.zero_mul, Nat.zero_add]
    unfold binaryLiteral
    split
    · rcases h 'b' (by simp) with hb | hb
      · cases hb
      · cases hb
    · rcases h 'B' (by simp) with hb | hb
      · cases hb
      · cases hb
    · exact hvalue
  have hreverse : Binary cs.reverse := fun c hc => h c (List.mem_reverse.1 hc)
  unfold pyInt
  rw [map_toAscii_binary h, dropWhile_binary h, dropWhile_binary hreverse, List.reverse_reverse]
  split
  · rcases h '-' (by simp) with hc | hc
    · cases hc
    · cases hc
  · rcases h '+' (by simp) with hc | hc
    · cases hc
    · cases hc
  · rw [hliteral]
    rfl

end ParametersAux

open ParametersAux

/-- A constant text is a binary number when its unknown digits are read as zeros, that of its ones. -/
theorem pyInt_replaceUnknown {text : String} (h : IsConstantText text) :
    pyInt binaryLiteral (text.toList.map replaceUnknown) = some (onesOf text.toList : Int) := by
  have hbinary : Binary (text.toList.map replaceUnknown) := by
    intro c hc
    obtain ⟨d, hd, rfl⟩ := List.mem_map.1 hc
    rcases h.2 d hd with rfl | rfl | rfl | rfl
    · exact Or.inl rfl
    · exact Or.inr rfl
    · exact Or.inl rfl
    · exact Or.inl rfl
  have hne : text.toList.map replaceUnknown ≠ [] := by
    simpa using h.1
  have hones : onesOf (text.toList.map replaceUnknown) = onesOf text.toList := by
    unfold onesOf
    rw [← List.map_reverse, List.map_map]
    refine congrArg natOfBits (List.map_congr_left fun c hc => ?_)
    rcases h.2 c (List.mem_reverse.1 hc) with rfl | rfl | rfl | rfl
    · rfl
    · rfl
    · rfl
    · rfl
  rw [pyInt_binary hbinary hne, hones]

/-- A constant text is decoded to the number of its ones, whatever the default. -/
theorem decodeParameter_text {text : String} (h : IsConstantText text) (default : Int) :
    decodeParameter (some (.str text)) default = (onesOf text.toList : Int) := by
  unfold decodeParameter
  simp only [pyInt_replaceUnknown h]

/-! ## Integers -/

/-- The integer a text stands for: its binary digits, or else a literal with its base in the prefix. -/
def integerOf? (text : List Char) : Option Int := (pyInt binaryLiteral text).or (pyInt prefixedLiteral text)

/-- A text is a binary number with unknown digits: it has an x or a z, and is one when these are read as zeros. -/
def HasUnknownDigit (text : List Char) : Prop :=
  ('x' ∈ text ∨ 'z' ∈ text) ∧ (pyInt binaryLiteral (text.map replaceUnknown)).isSome = true

instance (text : List Char) : Decidable (HasUnknownDigit text) := inferInstanceAs (Decidable (_ ∧ _))

namespace ParametersAux

/-- What is not dropped stays. -/
theorem mem_dropWhile {p : Char → Bool} {c : Char} (hp : p c = false) {cs : List Char} (h : c ∈ cs) : c ∈ cs.dropWhile p := by
  induction cs with
  | nil => cases h
  | cons d cs ih =>
    rw [List.dropWhile_cons]
    split
    · rename_i hd
      rcases List.mem_cons.1 h with rfl | h
      · rw [hp] at hd
        cases hd
      · exact ih h
    · exact h

/-- A letter that is no digit of the base makes a literal of digits none. -/
theorem digitsValue_eq_none {base : Nat} {c : Char} (hmark : c ≠ '_') (hdigit : ∀ d ∈ digitValue c, base ≤ d) {cs : List Char}
    (h : c ∈ cs) (acc : Nat) (afterDigit : Bool) : digitsValue base acc afterDigit cs = none := by
  induction cs generalizing acc afterDigit with
  | nil => cases h
  | cons d cs ih =>
    unfold digitsValue
    rcases List.mem_cons.1 h with rfl | h
    · rw [if_neg hmark]
      cases hd : digitValue c with
      | none => rfl
      | some n => exact if_neg (Nat.not_lt.2 (hdigit n hd))
    · simp only [ih h]
      cases digitValue d <;> simp

/-- A character that makes every literal none makes every integer none, when it is no space and no sign. -/
theorem pyInt_eq_none {literal : List Char → Option Nat} {c : Char} (hascii : toAscii c = c) (hspace : isAsciiSpace c = false)
    (hminus : c ≠ '-') (hplus : c ≠ '+') (hliteral : ∀ {cs}, c ∈ cs → literal cs = none) {cs : List Char} (h : c ∈ cs) :
    pyInt literal cs = none := by
  have hmap : c ∈ cs.map toAscii := List.mem_map.2 ⟨c, h, hascii⟩
  have htrim := List.mem_reverse.2 (mem_dropWhile hspace (List.mem_reverse.2 (mem_dropWhile hspace hmap)))
  unfold pyInt
  split
  · rename_i rest heq
    rw [heq] at htrim
    rw [hliteral ((List.mem_cons.1 htrim).resolve_left hminus)]
    rfl
  · rename_i rest heq
    rw [heq] at htrim
    rw [hliteral ((List.mem_cons.1 htrim).resolve_left hplus)]
    rfl
  · rw [hliteral htrim]
    rfl

/-- A text with an x or a z is no binary literal. -/
theorem binaryLiteral_eq_none {c : Char} (hc : c = 'x' ∨ c = 'z') {cs : List Char} (h : c ∈ cs) : binaryLiteral cs = none := by
  have hne : c ≠ '_' ∧ c ≠ '0' ∧ c ≠ 'b' ∧ c ≠ 'B' := by
    rcases hc with rfl | rfl <;> decide
  obtain ⟨hmark, hzero, hb, hB⟩ := hne
  have hdigits : ∀ {cs : List Char}, c ∈ cs → digitsValue 2 0 false cs = none := by
    intro cs hmem
    refine digitsValue_eq_none hmark ?_ hmem 0 false
    rcases hc with rfl | rfl <;> decide
  have hprefixed : ∀ {cs : List Char}, c ∈ cs → prefixedDigits 2 cs = none := by
    intro cs hmem
    unfold prefixedDigits
    split
    · exact hdigits ((List.mem_cons.1 hmem).resolve_left hmark)
    · exact hdigits hmem
  unfold binaryLiteral
  split
  · exact hprefixed ((List.mem_cons.1 ((List.mem_cons.1 h).resolve_left hzero)).resolve_left hb)
  · exact hprefixed ((List.mem_cons.1 ((List.mem_cons.1 h).resolve_left hzero)).resolve_left hB)
  · exact hdigits h

/-- A text with an x or a z is no binary number. -/
theorem pyInt_binary_eq_none {c : Char} (hc : c = 'x' ∨ c = 'z') {cs : List Char} (h : c ∈ cs) : pyInt binaryLiteral cs = none := by
  have hplain : toAscii c = c ∧ isAsciiSpace c = false ∧ c ≠ '-' ∧ c ≠ '+' := by
    rcases hc with rfl | rfl <;> decide
  obtain ⟨hascii, hspace, hminus, hplus⟩ := hplain
  exact pyInt_eq_none hascii hspace hminus hplus (binaryLiteral_eq_none hc) h

end ParametersAux

/-- A text without unknown digits is decoded to the integer it stands for. -/
theorem decodeParameter_integer {text : String} (h : ¬HasUnknownDigit text.toList) (default : Int) :
    decodeParameter (some (.str text)) default = (integerOf? text.toList).getD default := by
  unfold decodeParameter integerOf?
  by_cases hletter : 'x' ∈ text.toList ∨ 'z' ∈ text.toList
  · have hreplaced : pyInt binaryLiteral (text.toList.map replaceUnknown) = none := by
      rw [← Option.not_isSome_iff_eq_none]
      exact fun hsome => h ⟨hletter, hsome⟩
    have hbinary : pyInt binaryLiteral text.toList = none := by
      rcases hletter with hx | hz
      · exact pyInt_binary_eq_none (Or.inl rfl) hx
      · exact pyInt_binary_eq_none (Or.inr rfl) hz
    simp only [hreplaced, hbinary, Option.none_or]
  · rw [not_or] at hletter
    have hreplace : text.toList.map replaceUnknown = text.toList := by
      refine (List.map_congr_left fun c hc => ?_).trans (List.map_id _)
      refine if_neg ?_
      rintro (rfl | rfl)
      · exact hletter.1 hc
      · exact hletter.2 hc
    simp only [hreplace]
    cases pyInt binaryLiteral text.toList with
    | none => rfl
    | some n => rfl

/-- A constant has an unknown digit when one of its digits is x or z. -/
theorem hasUnknownDigit_iff {text : String} (h : IsConstantText text) :
    HasUnknownDigit text.toList ↔ 'x' ∈ text.toList ∨ 'z' ∈ text.toList := by
  refine and_iff_left ?_
  rw [pyInt_replaceUnknown h]
  rfl

/-- A constant whose digits are known stands for the number of its ones. -/
theorem integerOf_known {text : String} (h : IsConstantText text) (hknown : ¬HasUnknownDigit text.toList) :
    integerOf? text.toList = some (onesOf text.toList : Int) := by
  rw [hasUnknownDigit_iff h, not_or] at hknown
  unfold integerOf?
  rw [pyInt_binary ?_ (by simpa using h.1), Option.some_or]
  intro c hc
  rcases h.2 c hc with rfl | rfl | rfl | rfl
  · exact Or.inl rfl
  · exact Or.inr rfl
  · exact absurd hc hknown.1
  · exact absurd hc hknown.2

end LoomImport
