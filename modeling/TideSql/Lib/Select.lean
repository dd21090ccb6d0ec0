import Mathlib.Data.List.Basic

/-!
# Positions in a part of a list

The element at position `i` stands in the filtered list at the number of
chosen elements before it, and in an initial segment where it stood.
-/

namespace Lib.Select
open List

variable {α : Type*} {p : α → Bool} {l : List α}

theorem getElem?_filter_of_getElem? {i : Nat} {a : α} (h : l[i]? = some a) (ha : p a = true) :
    (l.filter p)[(l.take i).countP p]? = some a := by
  induction l generalizing i with
  | nil => simp at h
  | cons b l ih =>
    cases i with
    | zero =>
      obtain rfl : b = a := by simpa using h
      simp [ha]
    | succ i =>
      have hTail := ih (by simpa using h)
      cases hb : p b with
      | true | false => simpa [hb] using hTail

theorem exists_of_getElem?_filter {q : Nat} {a : α} (h : (l.filter p)[q]? = some a) :
    ∃ i, l[i]? = some a ∧ (l.take i).countP p = q := by
  induction l generalizing q with
  | nil => simp at h
  | cons b l ih =>
    cases hb : p b with
    | false =>
      obtain ⟨i, hi, hq⟩ := ih (q := q) (by simpa [hb] using h)
      exact ⟨i + 1, by simpa using hi, by simpa [hb] using hq⟩
    | true =>
      cases q with
      | zero => exact ⟨0, by simpa [hb] using h, by simp⟩
      | succ q =>
        obtain ⟨i, hi, hq⟩ := ih (q := q) (by simpa [hb] using h)
        exact ⟨i + 1, by simpa using hi, by simpa [hb] using hq⟩

theorem take_zipIdx (l : List α) (n : Nat) : l.zipIdx.take n = (l.take n).zipIdx := by
  apply ext_getElem?
  intro i
  simp only [getElem?_take, getElem?_zipIdx]
  split <;> rfl

theorem mem_take_zipIdx {n i : Nat} {a : α} : (a, i) ∈ l.zipIdx.take n ↔ i < n ∧ l[i]? = some a := by
  rw [take_zipIdx, mk_mem_zipIdx_iff_getElem?, getElem?_take]
  split
  · rename_i hi
    exact (and_iff_right hi).symm
  · rename_i hi
    exact iff_of_false nofun fun h => hi h.1

theorem filter_take_of_lt {n : Nat} (h : ∀ i a, l[i]? = some a → p a = true → i < n) :
    (l.take n).filter p = l.filter p := by
  have hRest : (l.drop n).filter p = [] := by
    rw [filter_eq_nil_iff]
    intro a ha hp
    obtain ⟨i, hi⟩ := List.mem_iff_getElem?.mp ha
    rw [getElem?_drop] at hi
    have := h (n + i) a hi hp
    omega
  conv_rhs => rw [← take_append_drop n l, filter_append, hRest, append_nil]

end Lib.Select
