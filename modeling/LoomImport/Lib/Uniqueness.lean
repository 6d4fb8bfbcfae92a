import Mathlib.Data.List.Nodup
import Mathlib.Data.List.Basic

/-!
# Lists without repetitions

`List.eraseDups` keeps the first of equal items. A list has no repetitions when that leaves its length.
-/

namespace Uniqueness

variable {α : Type} [BEq α]

theorem length_eraseDups_le (items : List α) : items.eraseDups.length ≤ items.length := by
  match items with
  | [] => exact Nat.le_refl 0
  | a :: items =>
    have hfilter := List.length_filter_le (fun b => !b == a) items
    have hshorter := length_eraseDups_le (items.filter fun b => !b == a)
    rw [List.eraseDups_cons, List.length_cons, List.length_cons]
    omega
termination_by items.length
decreasing_by exact Nat.lt_succ_of_le (List.length_filter_le _ _)

variable [LawfulBEq α]

theorem nodup_eraseDups (items : List α) : items.eraseDups.Nodup := by
  match items with
  | [] => exact List.nodup_nil
  | a :: items =>
    rw [List.eraseDups_cons, List.nodup_cons]
    refine ⟨?_, nodup_eraseDups (items.filter fun b => !b == a)⟩
    simp
termination_by items.length
decreasing_by exact Nat.lt_succ_of_le (List.length_filter_le _ _)

theorem eraseDups_eq_self {items : List α} (h : items.Nodup) : items.eraseDups = items := by
  induction items with
  | nil => rfl
  | cons a items ih =>
    obtain ⟨hnot, hrest⟩ := List.nodup_cons.1 h
    have hfilter : (items.filter fun b => !b == a) = items := by
      refine List.filter_eq_self.2 fun b hb => ?_
      have hne : b ≠ a := fun e => hnot (e ▸ hb)
      simpa using hne
    rw [List.eraseDups_cons, hfilter, ih hrest]

/-- Erasing the repetitions of a list leaves its length exactly when there are none. -/
theorem length_eraseDups_eq {items : List α} : items.eraseDups.length = items.length ↔ items.Nodup := by
  constructor
  · intro h
    induction items with
    | nil => exact List.nodup_nil
    | cons a items ih =>
      have hfilter := List.length_filter_le (fun b => !b == a) items
      have hshorter := length_eraseDups_le (items.filter fun b => !b == a)
      rw [List.eraseDups_cons, List.length_cons, List.length_cons] at h
      have hall : (items.filter fun b => !b == a) = items :=
        List.filter_eq_self.2 (List.length_filter_eq_length_iff.1 (by omega))
      rw [hall] at h
      refine List.nodup_cons.2 ⟨fun hmem => ?_, ih (by omega)⟩
      have hne := List.filter_eq_self.1 hall a hmem
      simp at hne
  · intro h
    rw [eraseDups_eq_self h]

end Uniqueness
