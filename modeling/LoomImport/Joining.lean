import LoomImport.Translator

/-!
# Parts joined

A vector is translated in parts, most significant first: its bits when it is split, the ports of a memory. When every part denotes a
word of one width, the whole denotes the words side by side.
-/

namespace LoomImport

open ImportIR Words

namespace JoiningAux

variable {σ : Hw.St}

/-- Denoting a word given by its bits, at an equal width and equal bits. -/
theorem denotes_congr {e : Expr} {m n : Nat} {f g : Nat → Bool} (h : Denotes σ e (ofBits m f)) (hw : m = n)
    (hbits : ∀ i < n, f i = g i) : Denotes σ e (ofBits n g) := by
  subst hw
  rw [← ofBits_congr hbits]
  exact h

/-- Two words given by their bits, one above the other. -/
theorem append_ofBits {m n : Nat} (f g : Nat → Bool) :
    ofBits m f ++ ofBits n g = ofBits (m + n) fun i => if i < n then g i else f (i - n) := by
  apply BitVec.eq_of_getLsbD_eq
  intro i hi
  rw [BitVec.getLsbD_append, getLsbD_ofBits, getLsbD_ofBits, getLsbD_ofBits, decide_eq_true hi, Bool.true_and]
  by_cases hn : i < n
  · rw [if_pos hn, if_pos hn, decide_eq_true hn, Bool.true_and]
  · rw [if_neg hn, if_neg hn, decide_eq_true (by omega), Bool.true_and]

variable {w : Nat}

/-- A bit of words side by side. -/
def wordsBit (words : Nat → BitVec w) (i : Nat) : Bool := (words (i / w)).getLsbD (i % w)

/-- A bit of the word just above some words. -/
theorem wordsBit_top (words : Nat → BitVec w) {k i : Nat} (hlow : k * w ≤ i) (hhigh : i - k * w < w) :
    wordsBit words i = (words k).getLsbD (i - k * w) := by
  have hdiv : i / w = k := by
    refine Nat.div_eq_of_lt_le hlow ?_
    rw [Nat.succ_mul]
    omega
  have hmod : i % w = i - k * w := by
    rw [Nat.mod_eq_sub_mul_div, hdiv, Nat.mul_comm]
  rw [wordsBit, hdiv, hmod]

/-- The parts below what is joined so far. -/
theorem concatParts_denotes {words : Nat → BitVec w} (src : SourceLocation) :
    ∀ {k m : Nat} {f : Nat → Bool} {acc : Expr} {es : List Expr}, Denotes σ acc (ofBits m f) →
      List.Forall₂ (fun index e => Denotes σ e (words index)) (List.range k).reverse es →
      Denotes σ (concatParts src acc es) (ofBits (m + k * w) fun i => if i < k * w then wordsBit words i else f (i - k * w)) := by
  intro k
  induction k with
  | zero =>
    intro m f acc es hacc hes
    cases hes
    refine denotes_congr hacc (by rw [Nat.zero_mul, Nat.add_zero]) fun i _ => ?_
    rw [Nat.zero_mul, if_neg (Nat.not_lt_zero i), Nat.sub_zero]
  | succ k ih =>
    intro m f acc es hacc hes
    rw [List.range_succ, List.reverse_append, List.reverse_singleton, List.singleton_append] at hes
    cases hes with
    | cons hpart hrest =>
      rename_i part rest
      rw [← ofBits_getLsbD (words k)] at hpart
      obtain ⟨heq, hconcat⟩ := Denotes.concatParts_cons hacc hpart src rest
      rw [append_ofBits] at hconcat
      rw [heq]
      refine denotes_congr (ih hconcat hrest) (by rw [Nat.succ_mul]; omega) fun i _ => ?_
      rw [Nat.succ_mul]
      by_cases hlow : i < k * w
      · rw [if_pos hlow, if_pos (by omega)]
      · rw [if_neg hlow]
        by_cases htop : i - k * w < w
        · rw [if_pos htop, if_pos (by omega), wordsBit_top words (Nat.le_of_not_lt hlow) htop]
        · rw [if_neg htop, if_neg (by omega), Nat.sub_sub]

/-- The parts of a whole, most significant first. -/
theorem joinParts_denotes {words : Nat → BitVec w} {n : Nat} {src : SourceLocation} {es : List Expr} {e : Expr}
    (hes : List.Forall₂ (fun index e => Denotes σ e (words index)) (List.range n).reverse es)
    (he : joinParts src es = some e) : Denotes σ e (ofBits (n * w) (wordsBit words)) := by
  cases n with
  | zero =>
    cases hes
    cases he
  | succ n =>
    rw [List.range_succ, List.reverse_append, List.reverse_singleton, List.singleton_append] at hes
    cases hes with
    | cons hfirst hrest =>
      cases he
      rw [← ofBits_getLsbD (words n)] at hfirst
      refine denotes_congr (concatParts_denotes src hfirst hrest) (by rw [Nat.succ_mul]; omega) fun i hi => ?_
      by_cases hlow : i < n * w
      · rw [if_pos hlow]
      · rw [Nat.succ_mul] at hi
        rw [if_neg hlow, wordsBit_top words (Nat.le_of_not_lt hlow) (by omega)]

/-- The bits of a vector, each translated on its own. -/
theorem joinBits_denotes {bits : List Bit} {value : Bit → Bool} {src : SourceLocation} {es : List Expr} {e : Expr}
    (hes : List.Forall₂ (fun bit e => Denotes σ e (BitVec.ofBool (value bit))) bits.reverse es)
    (he : joinParts src es = some e) :
    Denotes σ e (ofBits bits.length fun i => (bits[i]?.map value).getD false) := by
  have hbits : bits.reverse = (List.range bits.length).reverse.map fun i => bits.getD i (.const '0') := by
    rw [List.map_reverse]
    congr 1
    refine List.ext_getElem (by simp) fun i h₁ h₂ => ?_
    simp [h₁]
  rw [hbits, List.forall₂_map_left_iff] at hes
  refine denotes_congr (joinParts_denotes hes he) (Nat.mul_one _) fun i hi => ?_
  rw [wordsBit, Nat.div_one, Nat.mod_one, List.getD_eq_getElem?_getD, List.getElem?_eq_getElem hi,
    Option.getD_some, Option.map_some, Option.getD_some]
  cases value bits[i] <;> rfl

end JoiningAux

end LoomImport
