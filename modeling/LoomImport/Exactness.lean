import LoomImport.Bench
import LoomImport.Constants

/-!
# The shapes at which shifts and divisions are exact

For every type of shift and division, the shapes at which all runs that translate such a cell give its simlib value, for all values
of the operands. A run gives what its operands' values are computed to at the widths the adapter chooses, so a shape is exact when
that is the simlib value; and where it is not, the module with that one cell is a run that is wrong.
-/

namespace LoomImport

open ImportIR Words

namespace ExactnessAux

variable {sh : Shape} {type : String}

/-- No run gives operands of no bits a value, and none is asked for a result of no bits. -/
theorem exact_of_empty (kind : BinaryKind) (h : supportedComb? type = some (.binary kind)) (hempty : sh.Empty)
    (runs : CellRun type sh → Prop) (operands : BitVec sh.aWidth → BitVec sh.bWidth → Prop)
    (value : BitVec sh.aWidth → BitVec sh.bWidth → BitVec sh.width) : sh.Exact type runs operands value := by
  intro run _
  refine ⟨_, _, run.returns_binary h, fun σ a b ha hb _ => ?_⟩
  have hapos := ha.pos
  have hbpos := hb.pos
  have hwpos := run.width_pos
  rcases hempty with h | h | h <;> omega

/-- A cell that is computed to a known value is exact when that is the simlib value, whether or not the runs with blockers count. -/
theorem exact_iff (kind : BinaryKind) (h : supportedComb? type = some (.binary kind)) (hfull : ¬sh.Empty)
    {runs : CellRun type sh → Prop} (hruns : ∀ run, run.Unblocked → runs run)
    {operands : BitVec sh.aWidth → BitVec sh.bWidth → Prop}
    {value computed : BitVec sh.aWidth → BitVec sh.bWidth → BitVec sh.width}
    (hcomputed : ∀ {σ : Hw.St} {l r : Expr} {a : BitVec sh.aWidth} {b : BitVec sh.bWidth} (src : SourceLocation),
      Denotes σ l a → Denotes σ r b → Denotes σ (binaryCell kind sh src l r) (computed a b)) :
    sh.Exact type runs operands value ↔ ∀ a b, operands a b → computed a b = value a b := by
  simp only [Shape.Empty, not_or] at hfull
  obtain ⟨ha, hb, hw⟩ := hfull
  constructor
  · intro hexact a b hab
    have hapos := Nat.pos_of_ne_zero ha
    have hbpos := Nat.pos_of_ne_zero hb
    have hwpos := Nat.pos_of_ne_zero hw
    have htype : type ≠ "bench" := by
      rintro rfl
      cases h
    obtain ⟨result, after, hreturns, hvalue⟩ := Bench.run_exact htype none hapos hbpos hwpos hexact
      (hruns _ (Bench.run_unblocked htype none hapos hbpos hwpos h))
    have hden := hvalue a b hab
    rw [(hreturns.unique (CellRun.returns_binary _ h)).1] at hden
    exact (hcomputed _ (Bench.run_left htype none hapos hbpos hwpos a b)
      (Bench.run_right htype none hapos hbpos hwpos a b)).unique hden
  · intro hall run _
    refine ⟨_, _, run.returns_binary h, fun σ a b hl hr hab => ?_⟩
    rw [← hall a b hab]
    exact hcomputed _ hl hr

/-- A cell whose operands are both brought to the width of the result. -/
theorem width_exact_iff {kind : BinaryKind} (op : BinaryOp) (h : supportedComb? type = some (.binary kind))
    (hkind : ∀ src l r, binaryCell kind sh src l r = widthBinary op sh src l r) (hop : op.isComparison = false)
    (hfull : ¬sh.Empty) {runs : CellRun type sh → Prop} (hruns : ∀ run, run.Unblocked → runs run)
    {operands : BitVec sh.aWidth → BitVec sh.bWidth → Prop}
    {value : BitVec sh.aWidth → BitVec sh.bWidth → BitVec sh.width} :
    sh.Exact type runs operands value ↔
      ∀ a b, operands a b → op.apply (extend sh.aSigned sh.width a) (extend sh.bSigned sh.width b) = value a b := by
  refine exact_iff kind h hfull hruns fun src hl hr => ?_
  rw [hkind]
  exact widthBinary_denotes op hop (Nat.pos_of_ne_zero fun h0 => hfull (Or.inr (Or.inr h0))) hl hr

/-- An exact shape, once it is known where the ones with bits are. -/
theorem empty_or_iff {P Q : Prop} (hempty : sh.Empty → P) (hfull : ¬sh.Empty → (P ↔ Q)) : P ↔ sh.Empty ∨ Q := by
  by_cases he : sh.Empty
  · exact ⟨fun _ => Or.inl he, fun _ => hempty he⟩
  · exact ⟨fun hp => Or.inr ((hfull he).1 hp), fun hq => (hfull he).2 (hq.resolve_left he)⟩

/-- The three widths of a shape that is not empty. -/
theorem widths_pos (h : ¬sh.Empty) : 0 < sh.aWidth ∧ 0 < sh.bWidth ∧ 0 < sh.width := by
  simp only [Shape.Empty, not_or] at h
  omega

end ExactnessAux

open ExactnessAux

/-! ## Divisions -/

/-- The widths at which a division by a divisor that is not zero is exact. -/
def Shape.divides (sh : Shape) : Prop := if sh.aSigned then sh.dividesSigned else sh.dividesUnsigned

/-- The widths at which a remainder by a divisor that is not zero is exact. -/
def Shape.remainders (sh : Shape) : Prop := if sh.aSigned then sh.remaindersSigned else sh.dividesUnsigned

section

variable {sh : Shape}

/-- The runs of `$div` and `$mod` that record no blocker give the simlib value for every divisor that is not zero. -/
def Shape.DivExact (sh : Shape) : Prop := sh.Exact "$div" CellRun.Unblocked (fun _ b => b ≠ 0) (Simlib.binary .div sh)

def Shape.ModExact (sh : Shape) : Prop := sh.Exact "$mod" CellRun.Unblocked (fun _ b => b ≠ 0) (Simlib.binary .mod sh)

theorem divExact_iff (hs : sh.aSigned = sh.bSigned) : sh.DivExact ↔ sh.Empty ∨ sh.divides := by
  refine empty_or_iff (fun he => exact_of_empty .div rfl he _ _ _) fun hfull => ?_
  obtain ⟨ha, hb, hw⟩ := widths_pos hfull
  unfold Shape.DivExact Shape.divides
  rw [width_exact_iff .unsignedDiv rfl (fun _ _ _ => rfl) rfl hfull fun _ h => h, ← hs]
  cases hsigned : sh.aSigned with
  | true =>
    have hboth : sh.signed = true := by rw [Shape.signed, ← hs, hsigned, Bool.and_self]
    rw [if_pos rfl, ← div_signed_eq_iff ha hb hw]
    simp only [simlib_div_signed hboth, BinaryOp.apply, DivisionAux.extend_true_eq_ofInt, QuotientAgrees]
  | false =>
    have hboth : sh.signed = false := by rw [Shape.signed, ← hs, hsigned, Bool.and_self]
    rw [if_neg Bool.false_ne_true, ← div_unsigned_eq_iff ha hb hw]
    simp only [simlib_div_unsigned hboth, BinaryOp.apply]

theorem modExact_iff (hs : sh.aSigned = sh.bSigned) : sh.ModExact ↔ sh.Empty ∨ sh.remainders := by
  refine empty_or_iff (fun he => exact_of_empty .mod rfl he _ _ _) fun hfull => ?_
  obtain ⟨ha, hb, hw⟩ := widths_pos hfull
  unfold Shape.ModExact Shape.remainders
  rw [width_exact_iff .unsignedRem rfl (fun _ _ _ => rfl) rfl hfull fun _ h => h, ← hs]
  cases hsigned : sh.aSigned with
  | true =>
    have hboth : sh.signed = true := by rw [Shape.signed, ← hs, hsigned, Bool.and_self]
    rw [if_pos rfl, ← mod_signed_eq_iff ha hb hw]
    simp only [simlib_mod_signed hboth, BinaryOp.apply, DivisionAux.extend_true_eq_ofInt, RemainderAgrees]
  | false =>
    have hboth : sh.signed = false := by rw [Shape.signed, ← hs, hsigned, Bool.and_self]
    rw [if_neg Bool.false_ne_true, ← mod_unsigned_eq_iff ha hb hw]
    simp only [simlib_mod_unsigned hboth, BinaryOp.apply]

/-- The shapes of the division cells whose runs record a blocker or are exact. -/
theorem division_exact_iff (hs : sh.aSigned = sh.bSigned) :
    (sh.DivExact ↔ sh.Empty ∨ sh.divides) ∧ (sh.ModExact ↔ sh.Empty ∨ sh.remainders) :=
  ⟨divExact_iff hs, modExact_iff hs⟩

/-- Unsigned operands of four bits and a result of eight. -/
theorem division_exact_wide : Shape.DivExact ⟨false, false, 4, 4, 8⟩ ∧ Shape.ModExact ⟨false, false, 4, 4, 8⟩ := by
  have hfit : Shape.dividesUnsigned ⟨false, false, 4, 4, 8⟩ := Or.inl ⟨by decide, by decide⟩
  exact ⟨(division_exact_iff rfl).1.2 (Or.inr hfit), (division_exact_iff rfl).2.2 (Or.inr hfit)⟩

/-- Signed operands of two bits and a result of two: one divided by minus one. -/
theorem division_not_exact_signed : ¬Shape.DivExact ⟨true, true, 2, 2, 2⟩ := by
  unfold Shape.DivExact
  rw [width_exact_iff .unsignedDiv rfl (fun _ _ _ => rfl) rfl (by unfold Shape.Empty; decide) fun _ h => h]
  intro h
  exact absurd (h 1#2 3#2 (by decide)) (by decide)

end

/-! ## Logical shifts -/

section

variable {sh : Shape}

/-- The runs of `$shl` and `$shr` give the simlib value for all operands. -/
def Shape.ShlExact (sh : Shape) : Prop := sh.Exact "$shl" (fun _ => True) (fun _ _ => True) (Simlib.binary .shl sh)

def Shape.ShrExact (sh : Shape) : Prop := sh.Exact "$shr" (fun _ => True) (fun _ _ => True) (Simlib.binary .shr sh)

/-- The shapes of the logical shifts by an unsigned amount that are exact: the amount fits in the result, and to the right the
value does too. -/
theorem logicalShift_exact_iff (hb : sh.bSigned = false) :
    (sh.ShlExact ↔ sh.Empty ∨ sh.bWidth ≤ sh.width) ∧
      (sh.ShrExact ↔ sh.Empty ∨ (sh.aWidth ≤ sh.width ∧ sh.bWidth ≤ sh.width)) := by
  refine ⟨empty_or_iff (fun he => exact_of_empty .shl rfl he _ _ _) fun hfull => ?_,
    empty_or_iff (fun he => exact_of_empty .shr rfl he _ _ _) fun hfull => ?_⟩
  · obtain ⟨ha, -, hw⟩ := widths_pos hfull
    unfold Shape.ShlExact
    rw [width_exact_iff .shiftLeft rfl (fun _ _ _ => rfl) rfl hfull fun _ _ => trivial, ← shl_eq_iff ha hw hb]
    simp only [forall_const]
  · obtain ⟨ha, hbw, hw⟩ := widths_pos hfull
    unfold Shape.ShrExact
    rw [width_exact_iff .logicalShiftRight rfl (fun _ _ _ => rfl) rfl hfull fun _ _ => trivial, ← shr_eq_iff ha hbw hw hb]
    simp only [forall_const]

/-- A value and an amount of the width of the result. -/
theorem logicalShift_exact_narrow : Shape.ShlExact ⟨false, false, 8, 8, 8⟩ ∧ Shape.ShrExact ⟨false, false, 8, 8, 8⟩ :=
  ⟨(logicalShift_exact_iff rfl).1.2 (Or.inr (by decide)), (logicalShift_exact_iff rfl).2.2 (Or.inr (by decide))⟩

/-- A result of one bit, of a value and an amount of two: two shifted right by one, and one shifted left by two. -/
theorem logicalShift_not_exact : ¬Shape.ShlExact ⟨false, false, 1, 2, 1⟩ ∧ ¬Shape.ShrExact ⟨false, false, 2, 1, 1⟩ := by
  unfold Shape.ShlExact Shape.ShrExact
  refine ⟨?_, ?_⟩
  · rw [width_exact_iff .shiftLeft rfl (fun _ _ _ => rfl) rfl (by unfold Shape.Empty; decide) fun _ _ => trivial]
    intro h
    exact absurd (h 1#1 2#2 trivial) (by decide)
  · rw [width_exact_iff .logicalShiftRight rfl (fun _ _ _ => rfl) rfl (by unfold Shape.Empty; decide) fun _ _ => trivial]
    intro h
    exact absurd (h 2#2 1#1 trivial) (by decide)

end

/-! ## Arithmetic right shift -/

/-- Every run of `$sshr` gives the simlib value, for every shape and all operands. -/
theorem sshr_exact (sh : Shape) : sh.Exact "$sshr" (fun _ => True) (fun _ _ => True) (Simlib.binary .sshr sh) := by
  by_cases he : sh.Empty
  · exact exact_of_empty .sshr rfl he _ _ _
  · refine (exact_iff .sshr rfl he (fun _ _ => trivial) fun src hl hr => ?_).2 fun _ _ _ => rfl
    exact arithmeticShiftRight_denotes (widths_pos he).2.2 hl hr

/-- Minus eight in four bits, shifted to six bits by less than six, by six and by more. -/
theorem sshr_exact_signed : ∃ result after,
    (Bench.run "$sshr" (by decide) none ⟨true, false, 4, 4, 6⟩ (by decide) (by decide) (by decide)).Returns result after ∧
      Denotes (Bench.valuation ⟨true, false, 4, 4, 6⟩ 8#4 1#4) result 60#6 ∧
      Denotes (Bench.valuation ⟨true, false, 4, 4, 6⟩ 8#4 6#4) result 63#6 ∧
      Denotes (Bench.valuation ⟨true, false, 4, 4, 6⟩ 8#4 9#4) result 63#6 := by
  have hexact := sshr_exact ⟨true, false, 4, 4, 6⟩
  obtain ⟨result, after, hreturns, hvalue⟩ := Bench.run_exact (by decide) none (by decide) (by decide) (by decide) hexact trivial
  have hbelow : Simlib.binary .sshr ⟨true, false, 4, 4, 6⟩ 8#4 1#4 = 60#6 := by decide
  have hbase : Simlib.binary .sshr ⟨true, false, 4, 4, 6⟩ 8#4 6#4 = 63#6 := by decide
  have habove : Simlib.binary .sshr ⟨true, false, 4, 4, 6⟩ 8#4 9#4 = 63#6 := by decide
  exact ⟨result, after, hreturns, hbelow ▸ hvalue _ _ trivial, hbase ▸ hvalue _ _ trivial, habove ▸ hvalue _ _ trivial⟩

/-! ## Variable shifts and part-selects -/

section

variable {sh : Shape}

/-- The runs of `$shift` give the simlib value for all operands. -/
def Shape.ShiftExact (sh : Shape) : Prop := sh.Exact "$shift" (fun _ => True) (fun _ _ => True) (Simlib.binary .shift sh)

/-- The accepted runs of `$shiftx` select the bits of the value from the amount up, and zeros past its end. -/
def Shape.PartSelectExact (sh : Shape) : Prop := sh.Exact "$shiftx" CellRun.Accepted (fun _ _ => True) (Simlib.shiftx sh)

theorem partSelectExact (sh : Shape) : sh.PartSelectExact := by
  intro run haccepted
  obtain ⟨rule, after, hfill, hreturns⟩ := run.returns_shiftx haccepted
  refine ⟨_, after, hreturns, fun σ a b hl hr _ => ?_⟩
  exact partSelect_denotes run.width_pos hl hr (partialUnknown_zero_denotes _ _ hfill run.width_pos _)

theorem shiftExact_iff (sh : Shape) :
    sh.ShiftExact ↔ sh.Empty ∨ (sh.aSigned = true → sh.bWidth ≤ sh.shiftWidth) := by
  refine empty_or_iff (fun he => exact_of_empty .shift rfl he _ _ _) fun hfull => ?_
  obtain ⟨ha, -, hw⟩ := widths_pos hfull
  unfold Shape.ShiftExact
  rw [exact_iff .shift rfl hfull (fun _ _ => trivial) fun src hl hr => variableShift_denotes hw hl hr, ← shift_eq_iff ha hw]
  simp only [forall_const]

/-- Both are exact when the amount of a signed value fits in the width the shift is evaluated at. -/
theorem variableShift_exact_iff (sh : Shape) :
    (sh.ShiftExact ∧ sh.PartSelectExact) ↔ sh.Empty ∨ (sh.aSigned = true → sh.bWidth ≤ sh.shiftWidth) := by
  rw [shiftExact_iff sh]
  exact and_iff_left (partSelectExact sh)

/-- A signed value shifted left by a negative amount and right by a positive one, and bits selected inside a value and past its end. -/
theorem variableShift_exact_runs :
    (∃ result after,
      (Bench.run "$shift" (by decide) none ⟨true, true, 4, 3, 4⟩ (by decide) (by decide) (by decide)).Returns result after ∧
        Denotes (Bench.valuation ⟨true, true, 4, 3, 4⟩ 9#4 7#3) result 2#4 ∧
        Denotes (Bench.valuation ⟨true, true, 4, 3, 4⟩ 9#4 2#3) result 2#4) ∧
      ∃ result after,
        (Bench.run "$shiftx" (by decide) (some Bench.zeroFill) ⟨false, false, 4, 3, 4⟩ (by decide) (by decide) (by decide)).Returns
            result after ∧
          Denotes (Bench.valuation ⟨false, false, 4, 3, 4⟩ 11#4 1#3) result 5#4 ∧
          Denotes (Bench.valuation ⟨false, false, 4, 3, 4⟩ 11#4 6#3) result 0#4 := by
  constructor
  · have hexact := ((variableShift_exact_iff ⟨true, true, 4, 3, 4⟩).2 (Or.inr (by decide))).1
    obtain ⟨result, after, hreturns, hvalue⟩ := Bench.run_exact (by decide) none (by decide) (by decide) (by decide) hexact trivial
    have hleft : Simlib.binary .shift ⟨true, true, 4, 3, 4⟩ 9#4 7#3 = 2#4 := by decide
    have hright : Simlib.binary .shift ⟨true, true, 4, 3, 4⟩ 9#4 2#3 = 2#4 := by decide
    exact ⟨result, after, hreturns, hleft ▸ hvalue _ _ trivial, hright ▸ hvalue _ _ trivial⟩
  · have hexact := ((variableShift_exact_iff ⟨false, false, 4, 3, 4⟩).2 (Or.inr (by decide))).2
    obtain ⟨result, after, hreturns, hvalue⟩ := Bench.run_exact (by decide) (some Bench.zeroFill) (by decide) (by decide) (by decide)
      hexact (Bench.run_accepted (by decide) (by decide) (by decide) rfl)
    have hinside : Simlib.shiftx ⟨false, false, 4, 3, 4⟩ 11#4 1#3 = 5#4 := by decide
    have hpast : Simlib.shiftx ⟨false, false, 4, 3, 4⟩ 11#4 6#3 = 0#4 := by decide
    exact ⟨result, after, hreturns, hinside ▸ hvalue _ _ trivial, hpast ▸ hvalue _ _ trivial⟩

/-- A signed value of one bit, an amount of two bits and a result of one: minus one shifted right by one. -/
theorem variableShift_not_exact : ¬(Shape.ShiftExact ⟨true, false, 1, 2, 1⟩ ∧ Shape.PartSelectExact ⟨true, false, 1, 2, 1⟩) := by
  rintro ⟨h, -⟩
  unfold Shape.ShiftExact at h
  rw [exact_iff .shift rfl (by unfold Shape.Empty; decide) (fun _ _ => trivial)
    fun src hl hr => variableShift_denotes (by decide) hl hr] at h
  exact absurd (h 1#1 1#2 trivial) (by decide)

end

end LoomImport
