import LoomImport.Runs
import LoomImport.Denotes

/-!
# What constants denote

A constant is a literal when all its bits are known, and the choice of a rule otherwise. Every choice the adapter makes is valid:
it has a site and a rationale, and it agrees with the value where the value is known. So a constant that is not blocked denotes its
bits, with the unknown ones as the rule fills them.
-/

namespace LoomImport

open ImportIR Words

namespace ConstantsAux

/-! ## Numbers of bit vectors -/

/-- A bit of the number of a list of bits. -/
theorem testBit_natOfBits (bits : List Bool) (i : Nat) : (natOfBits bits).testBit i = bits.getD i false := by
  induction bits generalizing i with
  | nil => rw [natOfBits, Nat.zero_testBit, List.getD_nil]
  | cons b bits ih =>
    rw [natOfBits]
    cases i with
    | zero =>
      rw [Nat.testBit_zero, List.getD_cons_zero]
      cases b <;> simp
    | succ i =>
      have hhalf : (b.toNat + 2 * natOfBits bits) / 2 = natOfBits bits := by
        have hb := Bool.toNat_lt b
        omega
      rw [Nat.testBit_succ, hhalf, List.getD_cons_succ, ih]

theorem natOfBits_lt (bits : List Bool) : natOfBits bits < 2 ^ bits.length := by
  refine Nat.lt_pow_two_of_testBit _ fun i hi => ?_
  rw [testBit_natOfBits, List.getD_eq_getElem?_getD, List.getElem?_eq_none hi, Option.getD_none]

/-- The number of a mapped vector. -/
theorem testBit_natOfBits_map (f : Bit → Bool) (bits : List Bit) (i : Nat) :
    (natOfBits (bits.map f)).testBit i = (bits[i]?.map f).getD false := by
  rw [testBit_natOfBits, List.getD_eq_getElem?_getD, List.getElem?_map]

theorem natOfBits_map_lt (f : Bit → Bool) (bits : List Bit) : natOfBits (bits.map f) < 2 ^ bits.length := by
  have h := natOfBits_lt (bits.map f)
  rwa [List.length_map] at h

/-! ## Valid choices -/

theorem siteOf_ne (sha256 : String → String) (payload : SitePayload) : (siteOf sha256 payload).isEmpty = false := by
  rw [← Bool.not_eq_true, String.isEmpty_iff]
  intro h
  have hlen := congrArg String.length h
  rw [siteOf, String.length_append] at hlen
  have hpos : "four_state_".length = 11 := by decide
  simp only [hpos, String.length_empty] at hlen
  omega

theorem reason_ne (rule : PolicyRule) : rule.reason.isEmpty = false := by
  rw [← Bool.not_eq_true, String.isEmpty_iff]
  intro h
  have hlen := congrArg String.length h
  rw [PolicyRule.reason, String.length_append, String.length_append] at hlen
  have hpos : ": ".length = 2 := by decide
  simp only [hpos, String.length_empty] at hlen
  omega

/-- A choice is valid when it has a site and a rationale, fits, and agrees with the value where it is known. -/
theorem validB_intro {choice : PartialValue} {width : Nat} (hw : 0 < width) (hsite : choice.site.isEmpty = false)
    (hreason : choice.rationale.isEmpty = false) (hmask : choice.knownMask < 2 ^ width)
    (hvalue : choice.knownValue < 2 ^ width) (hchoice : choice.implementationValue < 2 ^ width)
    (hagree : ∀ i, choice.knownMask.testBit i = true →
      choice.implementationValue.testBit i = choice.knownValue.testBit i) : choice.validB width = true := by
  have hand : choice.implementationValue &&& choice.knownMask = choice.knownValue &&& choice.knownMask := by
    apply Nat.eq_of_testBit_eq
    intro i
    rw [Nat.testBit_and, Nat.testBit_and]
    cases hk : choice.knownMask.testBit i with
    | true => rw [hagree i hk]
    | false => rw [Bool.and_false, Bool.and_false]
  simp [PartialValue.validB, PartialValue.allowedB, hsite, hreason, hw, hmask, hvalue, hchoice, hand]

/-- The choice for a constant with unknown bits is valid. -/
theorem partialConstant_valid {site : String} (hsite : site.isEmpty = false) (rule : PolicyRule) {bits : List Bit}
    (hne : bits ≠ []) : (partialConstant site rule bits).validB bits.length = true := by
  have hvalue := natOfBits_map_lt Bit.isOne bits
  have hmask := natOfBits_map_lt Bit.isKnown bits
  have hones : 2 ^ bits.length - 1 < 2 ^ bits.length := Nat.sub_lt (Nat.two_pow_pos _) Nat.one_pos
  refine validB_intro (List.length_pos_iff.2 hne) hsite (reason_ne rule) hmask hvalue ?_ ?_
  · unfold partialConstant
    cases rule.fill with
    | zero => exact hvalue
    | one => exact Nat.or_lt_two_pow hvalue (Nat.xor_lt_two_pow hones hmask)
  · intro i hk
    unfold partialConstant at hk ⊢
    simp only at hk
    cases rule.fill with
    | zero => rfl
    | one =>
      have hi : i < bits.length := by
        refine Classical.byContradiction fun hge => ?_
        rw [Nat.testBit_lt_two_pow (lt_of_lt_of_le hmask (Nat.pow_le_pow_right (by omega) (Nat.le_of_not_lt hge)))] at hk
        cases hk
      simp [Nat.testBit_or, Nat.testBit_xor, hk, hi]

/-- The choice for a value of which no bit is known is valid. -/
theorem partialUnknown_valid {site : String} (hsite : site.isEmpty = false) (rule : PolicyRule) {width : Nat}
    (hw : 0 < width) : (partialUnknown site rule width).validB width = true := by
  have hpos := Nat.two_pow_pos width
  refine validB_intro hw hsite (reason_ne rule) hpos hpos ?_ ?_
  · unfold partialUnknown
    cases rule.fill with
    | zero => exact hpos
    | one => exact Nat.sub_lt hpos Nat.one_pos
  · intro i hk
    simp [partialUnknown] at hk

/-- A slice of a valid choice is valid. -/
theorem slice_valid {choice : PartialValue} {width : Nat} (h : choice.validB width = true) (offset : Nat) {w : Nat}
    (hw : 0 < w) : (choice.slice offset w).validB w = true := by
  simp only [PartialValue.validB, PartialValue.allowedB, Bool.and_eq_true, Bool.not_eq_true', decide_eq_true_eq,
    beq_iff_eq] at h
  obtain ⟨⟨⟨⟨⟨hsite, hreason⟩, -⟩, -⟩, -⟩, -, hand⟩ := h
  have hmod : ∀ n : Nat, n &&& (2 ^ w - 1) < 2 ^ w := by
    intro n
    rw [Nat.and_two_pow_sub_one_eq_mod]
    exact Nat.mod_lt _ (Nat.two_pow_pos w)
  refine validB_intro hw hsite hreason (hmod _) (hmod _) (hmod _) ?_
  intro i hk
  simp only [PartialValue.slice, Nat.testBit_and, Nat.testBit_shiftRight, Bool.and_eq_true] at hk ⊢
  have hbit := congrArg (fun n => n.testBit (offset + i)) hand
  simp only [Nat.testBit_and, hk.1, Bool.and_true] at hbit
  rw [hbit]

end ConstantsAux

open ConstantsAux

/-! ## Filled bits -/

/-- A bit of a constant, when unknown ones are filled. -/
def Bit.filled (fill : Fill) : Bit → Bool
  | .net _ => false
  | .const c => if c = '1' then true else if c = '0' then false else fill = .one

namespace Setting

/-- What the unknown bits of a constant are filled with. -/
def constantFill (Γ : Setting) (bits : List Bit) (src : SourceLocation) : Fill :=
  match Γ.policyMatches (Γ.constantSite bits src) src with
  | [rule] => rule.fill
  | _ => .zero

/-- The word of a vector of constants. -/
def constantWord (Γ : Setting) (bits : List Bit) (src : SourceLocation) : BitVec bits.length :=
  ofBits bits.length fun i => (bits[i]?.map (Bit.filled (Γ.constantFill bits src))).getD false

end Setting

namespace ConstantsAux

/-- Without unknown bits the fill does not matter. -/
theorem filled_known {bit : Bit} (hc : bit.isConst = true) (hk : bit.isUnknown = false) (fill : Fill) :
    bit.filled fill = bit.isOne := by
  rcases bit with id | c
  · cases hc
  · by_cases h1 : c = '1'
    · subst h1
      rfl
    · have h0 : c = '0' := by
        simp only [Bit.isUnknown, Bool.and_eq_false_iff, decide_eq_false_iff_not, not_not] at hk
        exact hk.resolve_right h1
      subst h0
      rfl

/-- The number a rule chooses for a constant. -/
theorem testBit_partialConstant {site : String} {rule : PolicyRule} {bits : List Bit} {i : Nat} (hi : i < bits.length)
    (hc : bits.all Bit.isConst = true) :
    (partialConstant site rule bits).implementationValue.testBit i = bits[i].filled rule.fill := by
  have hbit : bits[i].isConst = true := List.all_eq_true.1 hc _ (List.getElem_mem hi)
  unfold partialConstant
  cases rule.fill with
  | zero =>
    simp only [testBit_natOfBits_map, List.getElem?_eq_getElem hi, Option.map_some, Option.getD_some]
    rcases hb : bits[i] with id | c
    · rw [hb] at hbit
      cases hbit
    · by_cases h1 : c = '1'
      · subst h1
        rfl
      · simp [Bit.isOne, Bit.filled, h1]
  | one =>
    simp only [Nat.testBit_or, Nat.testBit_xor, Nat.testBit_two_pow_sub_one, testBit_natOfBits_map,
      List.getElem?_eq_getElem hi, Option.map_some, Option.getD_some, hi, decide_true]
    rcases hb : bits[i] with id | c
    · rw [hb] at hbit
      cases hbit
    · by_cases h1 : c = '1'
      · subst h1
        rfl
      · by_cases h0 : c = '0'
        · subst h0
          rfl
        · simp [Bit.isOne, Bit.isKnown, Bit.filled, h1, h0]

end ConstantsAux

namespace ConstantsAux

/-- What a constant that is not blocked is translated to: a literal or a valid choice, with the bits of its word. -/
theorem constantExpr_cases (Γ : Setting) {bits : List Bit} {src : SourceLocation} (hne : bits ≠ [])
    (hc : bits.all Bit.isConst = true) (hok : Γ.constantOk bits src = true) :
    ∃ n : Nat, (∀ i < bits.length, n.testBit i = (bits[i]?.map (Bit.filled (Γ.constantFill bits src))).getD false) ∧
      (Γ.constantExpr bits src = .literal bits.length n src ∨ ∃ choice : PartialValue,
        choice.validB bits.length = true ∧ choice.implementationValue = n ∧
          Γ.constantExpr bits src = .partialLiteral bits.length choice src) := by
  unfold Setting.constantExpr Setting.constantFill
  unfold Setting.constantOk at hok
  cases hu : bits.any Bit.isUnknown with
  | false =>
    refine ⟨natOfBits (bits.map Bit.isOne), fun i hi => ?_, Or.inl (if_neg Bool.false_ne_true)⟩
    have hmem := List.getElem_mem hi
    have hk : bits[i].isUnknown = false := by
      refine Bool.eq_false_iff.2 fun h' => ?_
      exact Bool.eq_false_iff.1 hu (List.any_eq_true.2 ⟨_, hmem, h'⟩)
    rw [testBit_natOfBits_map, List.getElem?_eq_getElem hi]
    exact (filled_known (List.all_eq_true.1 hc _ hmem) hk _).symm
  | true =>
    rw [hu, Bool.not_true, Bool.false_or, decide_eq_true_eq] at hok
    obtain ⟨rule, hrule⟩ := List.length_eq_one_iff.1 hok
    rw [hrule]
    have hvalid := partialConstant_valid (siteOf_ne Γ.sha256 (.constant Γ.name bits src)) rule hne
    refine ⟨_, fun i hi => ?_, Or.inr ⟨_, hvalid, rfl, if_pos rfl⟩⟩
    rw [testBit_partialConstant hi hc, List.getElem?_eq_getElem hi]
    rfl

end ConstantsAux

/-- A vector of constants that is not blocked denotes its word. -/
theorem constantExpr_denotes {σ : Hw.St} (Γ : Setting) {bits : List Bit} {src : SourceLocation} (hne : bits ≠ [])
    (hc : bits.all Bit.isConst = true) (hok : Γ.constantOk bits src = true) :
    Denotes σ (Γ.constantExpr bits src) (Γ.constantWord bits src) := by
  obtain ⟨n, hbits, hexpr⟩ := constantExpr_cases Γ hne hc hok
  have hword : BitVec.ofNat bits.length n = Γ.constantWord bits src := by
    apply BitVec.eq_of_getLsbD_eq
    intro i hi
    rw [BitVec.getLsbD_ofNat, hbits i hi, Setting.constantWord, getLsbD_ofBits]
  rw [← hword]
  rcases hexpr with he | ⟨choice, hvalid, rfl, he⟩
  · rw [he]
    exact Denotes.literal (List.length_pos_iff.2 hne) n src
  · rw [he]
    exact Denotes.partialLiteral hvalid src

/-- A slice of a vector of constants denotes that part of its word. -/
theorem partialSlice_denotes {σ : Hw.St} (Γ : Setting) {bits : List Bit} {src : SourceLocation} (hne : bits ≠ [])
    (hc : bits.all Bit.isConst = true) (hok : Γ.constantOk bits src = true) {offset width : Nat} (hw : 0 < width)
    (hfit : offset + width ≤ bits.length) :
    Denotes σ (partialSlice (Γ.constantExpr bits src) offset width src)
      (ofBits width fun i => (bits[offset + i]?.map (Bit.filled (Γ.constantFill bits src))).getD false) := by
  obtain ⟨n, hbits, hexpr⟩ := constantExpr_cases Γ hne hc hok
  have hword : BitVec.ofNat width ((n >>> offset) &&& (2 ^ width - 1)) =
      ofBits width fun i => (bits[offset + i]?.map (Bit.filled (Γ.constantFill bits src))).getD false := by
    apply BitVec.eq_of_getLsbD_eq
    intro i hi
    rw [BitVec.getLsbD_ofNat, Nat.testBit_and, Nat.testBit_shiftRight, Nat.testBit_two_pow_sub_one, getLsbD_ofBits,
      hbits (offset + i) (by omega), decide_eq_true hi, Bool.and_true]
  rw [← hword]
  rcases hexpr with he | ⟨choice, hvalid, rfl, he⟩
  · rw [he]
    exact Denotes.literal hw _ src
  · rw [he]
    exact Denotes.partialLiteral (slice_valid hvalid offset hw) src

/-- A choice for a value of which no bit is known denotes what it fills with. -/
theorem partialUnknown_denotes {σ : Hw.St} (sha256 : String → String) (payload : SitePayload) (rule : PolicyRule)
    {width : Nat} (hw : 0 < width) (src : SourceLocation) :
    Denotes σ (.partialLiteral width (partialUnknown (siteOf sha256 payload) rule width) src)
      (ofBits width fun _ => rule.fill = .one) := by
  have h := Denotes.partialLiteral (σ := σ) (partialUnknown_valid (siteOf_ne sha256 payload) rule hw) src
  refine cast (congrArg (Denotes σ _) ?_) h
  apply BitVec.eq_of_getLsbD_eq
  intro i hi
  rw [BitVec.getLsbD_ofNat, getLsbD_ofBits, decide_eq_true hi, Bool.true_and, Bool.true_and]
  unfold partialUnknown
  cases rule.fill with
  | zero => exact Nat.zero_testBit i
  | one =>
    rw [Nat.testBit_two_pow_sub_one, decide_eq_true hi]
    rfl

/-- A choice that fills with zeros denotes zero. -/
theorem partialUnknown_zero_denotes {σ : Hw.St} (sha256 : String → String) (payload : SitePayload) {rule : PolicyRule}
    (hfill : rule.fill = .zero) {width : Nat} (hw : 0 < width) (src : SourceLocation) :
    Denotes σ (.partialLiteral width (partialUnknown (siteOf sha256 payload) rule width) src) (0#(width)) := by
  have h := partialUnknown_denotes (σ := σ) sha256 payload rule hw src
  have hzero : (ofBits width fun _ => decide (rule.fill = .one)) = 0#(width) := by
    apply BitVec.eq_of_getLsbD_eq
    intro i _
    rw [getLsbD_ofBits, hfill]
    simp
  rw [← hzero]
  exact h

end LoomImport
