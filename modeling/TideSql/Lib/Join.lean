import Mathlib.Data.List.Basic

/-!
# Lists joined by a separator and the other ways to read them

A joined list `a ++ (s ++ b)` may be cut at another occurrence of the separator.
-/

namespace Lib.Join
open List

variable {α : Type*}

def Shift (s a b a' b' : List α) : Prop :=
  ∃ w, w ≠ [] ∧ a' = a ++ w ∧ s ++ b = w ++ (s ++ b')

/-- The other readings of a joined list are those cut at another separator. -/
theorem join_eq_iff (s a b a' b' : List α) : a ++ (s ++ b) = a' ++ (s ++ b') ↔
      (a = a' ∧ b = b') ∨ Shift s a b a' b' ∨ Shift s a' b' a b := by
  rw [append_eq_append_iff]
  constructor
  · rintro (⟨w, hLeft, hRight⟩ | ⟨w, hLeft, hRight⟩)
    · rcases eq_or_ne w [] with rfl | hw
      · simp only [append_nil, nil_append, append_cancel_left_eq] at hLeft hRight
        exact Or.inl ⟨hLeft.symm, hRight⟩
      · exact Or.inr (Or.inl ⟨w, hw, hLeft, hRight⟩)
    · rcases eq_or_ne w [] with rfl | hw
      · simp only [append_nil, nil_append, append_cancel_left_eq] at hLeft hRight
        exact Or.inl ⟨hLeft, hRight.symm⟩
      · exact Or.inr (Or.inr ⟨w, hw, hLeft, hRight⟩)
  · rintro (⟨rfl, rfl⟩ | ⟨w, _, hLeft, hRight⟩ | ⟨w, _, hLeft, hRight⟩)
    · exact Or.inl ⟨[], by simp, by simp⟩
    · exact Or.inl ⟨w, hLeft, hRight⟩
    · exact Or.inr ⟨w, hLeft, hRight⟩

theorem block_cases {s b w b' : List α} (h : s ++ b = w ++ (s ++ b')) :
    (∃ x, w = s ++ x ∧ b = x ++ (s ++ b')) ∨ ∃ r, r ≠ [] ∧ s = w ++ r ∧ r ++ b = s ++ b' := by
  rcases List.append_eq_append_iff.mp h with ⟨x, hw, hb⟩ | ⟨r, hs, hr⟩
  · exact Or.inl ⟨x, hw, hb⟩
  · rcases eq_or_ne r [] with rfl | hne
    · refine Or.inl ⟨[], ?_, ?_⟩
      · simpa using hs.symm
      · simpa using hr.symm
    · exact Or.inr ⟨r, hne, hs, hr.symm⟩

end Lib.Join
