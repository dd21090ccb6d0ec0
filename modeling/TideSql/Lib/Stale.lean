import Mathlib.Data.List.Basic

/-!
# First of those taken, first of those wanted

A search takes the first element of a list that passes one test where the first that passes a stronger test is
wanted, or it goes through other parts of a list than those that are wanted.
-/

namespace Lib.Stale
open List

variable {α : Type*} {taken wanted : α → Bool}

/-- Nothing that is taken stands before the first that is wanted. -/
def Agree {α : Type*} (taken wanted : α → Bool) (l : List α) : Prop :=
    ∀ x ∈ l.takeWhile (fun x => !wanted x), taken x = false

instance (l : List α) : Decidable (Agree taken wanted l) := inferInstanceAs (Decidable (∀ x ∈ _, _))

theorem agree_iff (hSub : ∀ x, wanted x = true → taken x = true) (l : List α) :
    Agree taken wanted l ↔ l.find? taken = l.find? wanted := by
  induction l with
  | nil => simp [Agree]
  | cons a l ih =>
    cases hw : wanted a with
    | true =>
      rw [find?_cons_of_pos hw, find?_cons_of_pos (hSub a hw)]
      simp [Agree, hw]
    | false =>
      have hRest : (a :: l).find? wanted = l.find? wanted := find?_cons_of_neg (by simp [hw])
      rw [hRest]
      cases ht : taken a with
      | true =>
        rw [find?_cons_of_pos ht]
        refine iff_of_false (fun h => ?_) fun h => ?_
        · have hTaken := h a (by simp [hw])
          rw [ht] at hTaken
          cases hTaken
        · have hWanted := find?_some h.symm
          rw [hw] at hWanted
          cases hWanted
      | false =>
        have hSkip : (a :: l).find? taken = l.find? taken := find?_cons_of_neg (by simp [ht])
        rw [hSkip, ← ih]
        simp [Agree, hw, ht]

theorem find?_eq_none_of_any {p : α → Bool} {l : List α} : l.find? p = none ↔ l.any p = false := by
  rw [find?_eq_none, any_eq_false]

variable {a b c : List α}

theorem find?_append_eq_iff {p : α → Bool} {o : Option α} (hOther : ∀ x ∈ a, o ≠ some x) :
    (a ++ b).find? p = o ↔ a.any p = false ∧ b.find? p = o := by
  rw [find?_append]
  cases hFind : a.find? p with
  | none => simp [find?_eq_none_of_any.mp hFind]
  | some x =>
    have hMem := mem_of_find?_eq_some hFind
    have hAny : a.any p = true := any_eq_true.mpr ⟨x, hMem, find?_some hFind⟩
    rw [Option.some_or, hAny]
    exact iff_of_false (fun h => hOther x hMem h.symm) fun h => by cases h.1

theorem find?_skip_iff (hApart : ∀ x ∈ a, x ∉ b) :
    (a ++ b).find? taken = b.find? wanted ↔ a.any taken = false ∧ b.find? taken = b.find? wanted :=
  find?_append_eq_iff fun x hx hFind => hApart x hx (mem_of_find?_eq_some hFind)

theorem find?_beyond_iff (hSub : ∀ x, wanted x = true → taken x = true) : (a ++ b).find? taken = a.find? wanted ↔
      if a.any taken then a.find? taken = a.find? wanted else b.any taken = false := by
  rw [find?_append]
  cases hFind : a.find? taken with
  | none =>
    have hNone := find?_eq_none_of_any.mp hFind
    have hWanted : a.find? wanted = none := by
      rw [find?_eq_none]
      exact fun x hx hw => find?_eq_none.mp hFind x hx (hSub x hw)
    rw [hNone, if_neg Bool.false_ne_true, Option.none_or, hWanted, find?_eq_none_of_any]
  | some x =>
    have hAny : a.any taken = true :=
      any_eq_true.mpr ⟨x, mem_of_find?_eq_some hFind, find?_some hFind⟩
    rw [hAny, if_pos rfl, Option.some_or]

theorem find?_missed_iff (hApart : ∀ x ∈ a, x ∉ c) :
    c.find? taken = (a ++ b).find? wanted ↔ a.any wanted = false ∧ c.find? taken = b.find? wanted := by
  rw [eq_comm, find?_append_eq_iff fun x hx hFind => hApart x hx (mem_of_find?_eq_some hFind),
    eq_comm (b := c.find? taken)]

end Lib.Stale
