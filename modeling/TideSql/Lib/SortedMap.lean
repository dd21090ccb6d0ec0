import Mathlib

/-!
# Finite maps kept in key order

The contents of a sorted store, as a cursor over a snapshot of it walks them.
-/

namespace Lib
open List

structure SortedMap (π ρ : Type*) [LinearOrder π] where
  entries : List (π × ρ)
  sorted : entries.Pairwise fun e e' => e.1 < e'.1

namespace SortedMap

variable {π ρ : Type*} [LinearOrder π]

def empty : SortedMap π ρ := ⟨[], List.Pairwise.nil⟩

def erase (m : SortedMap π ρ) (k : π) : SortedMap π ρ where
  entries := m.entries.filter fun e => e.1 ≠ k
  sorted := m.sorted.sublist filter_sublist

def set (m : SortedMap π ρ) (k : π) (r : ρ) : SortedMap π ρ where
  entries := m.entries.filter (fun e => e.1 < k) ++ (k, r) :: m.entries.filter (fun e => k < e.1)
  sorted := by
    rw [pairwise_append, pairwise_cons]
    refine ⟨m.sorted.sublist filter_sublist, ⟨fun e he => ?_, m.sorted.sublist filter_sublist⟩, ?_⟩
    · simpa using (mem_filter.mp he).2
    · intro e he e' he'
      have hLow : e.1 < k := by simpa using (mem_filter.mp he).2
      obtain rfl | hHigh := mem_cons.mp he'
      · exact hLow
      · have hAbove : k < e'.1 := by simpa using (mem_filter.mp hHigh).2
        exact hLow.trans hAbove

def write (m : SortedMap π ρ) (k : π) : Option ρ → SortedMap π ρ
  | none => m.erase k
  | some r => m.set k r

theorem eq_of_mem {m : SortedMap π ρ} {k : π} {r r' : ρ} (h : (k, r) ∈ m.entries) (h' : (k, r') ∈ m.entries) :
    r = r' := by
  have hUnique : ∀ l : List (π × ρ), l.Pairwise (fun e e' => e.1 < e'.1) → (k, r) ∈ l → (k, r') ∈ l → r = r' := by
    intro l hl hr hr'
    induction l with
    | nil => cases hr
    | cons e l ih =>
      obtain ⟨hHead, hTail⟩ := pairwise_cons.mp hl
      obtain rfl | hIn := mem_cons.mp hr
      · obtain hEq | hIn' := mem_cons.mp hr'
        · exact (Prod.mk.inj hEq).2.symm
        · exact absurd (hHead _ hIn') (lt_irrefl k)
      · obtain rfl | hIn' := mem_cons.mp hr'
        · exact absurd (hHead _ hIn) (lt_irrefl k)
        · exact ih hTail hIn hIn'
  exact hUnique m.entries m.sorted h h'

theorem mem_write (m : SortedMap π ρ) (k : π) (v : Option ρ) (e : π × ρ) :
    e ∈ (m.write k v).entries ↔ (e.1 ≠ k ∧ e ∈ m.entries) ∨ (e.1 = k ∧ v = some e.2) := by
  obtain ⟨k', r'⟩ := e
  cases v with
  | none => simp [write, erase, mem_filter, and_comm]
  | some r =>
    simp only [write, set, mem_append, mem_filter, mem_cons, decide_eq_true_eq, Prod.mk.injEq, Option.some.injEq]
    constructor
    · rintro (⟨hMem, hLow⟩ | ⟨rfl, rfl⟩ | ⟨hMem, hHigh⟩)
      · exact Or.inl ⟨ne_of_lt hLow, hMem⟩
      · exact Or.inr ⟨rfl, rfl⟩
      · exact Or.inl ⟨ne_of_gt hHigh, hMem⟩
    · rintro (⟨hNe, hMem⟩ | ⟨rfl, rfl⟩)
      · obtain hLow | hHigh := lt_or_gt_of_ne hNe
        · exact Or.inl ⟨hMem, hLow⟩
        · exact Or.inr (Or.inr ⟨hMem, hHigh⟩)
      · exact Or.inr (Or.inl ⟨rfl, rfl⟩)

/-- What a cursor goes through from the first key not below `k`. -/
def seek (m : SortedMap π ρ) (k : π) : List (π × ρ) := m.entries.filter fun e => k ≤ e.1

theorem mem_seek (m : SortedMap π ρ) (k : π) (e : π × ρ) : e ∈ m.seek k ↔ e ∈ m.entries ∧ k ≤ e.1 := by
  simp [seek, mem_filter]

theorem seek_sorted (m : SortedMap π ρ) (k : π) : (m.seek k).Pairwise fun e e' => e.1 < e'.1 :=
  m.sorted.sublist filter_sublist

theorem tail_seek_of_split {m : SortedMap π ρ} {done rest : List (π × ρ)} {e : π × ρ}
    (h : m.entries = done ++ e :: rest) : (m.seek e.1).tail = rest := by
  have hSorted := m.sorted
  rw [h] at hSorted
  obtain ⟨-, hTail, hDone⟩ := pairwise_append.mp hSorted
  have hBefore : done.filter (fun e' => e.1 ≤ e'.1) = [] := by
    rw [filter_eq_nil_iff]
    intro e' he'
    simpa using hDone e' he' e mem_cons_self
  have hAfter : rest.filter (fun e' => e.1 ≤ e'.1) = rest := by
    rw [filter_eq_self]
    intro e' he'
    simpa using (rel_of_pairwise_cons hTail he').le
  rw [seek, h, filter_append, hBefore, nil_append, filter_cons_of_pos (by simp), hAfter, tail_cons]

theorem mem_tail_seek {m : SortedMap π ρ} {k : π} {r : ρ} (hk : (k, r) ∈ m.entries) (e : π × ρ) :
    e ∈ (m.seek k).tail ↔ e ∈ m.entries ∧ k < e.1 := by
  have hSorted := m.seek_sorted k
  have hSeek : ∀ e, e ∈ m.seek k ↔ e ∈ m.entries ∧ k ≤ e.1 := m.mem_seek k
  cases hList : m.seek k with
  | nil =>
    have hMem := (hSeek (k, r)).mpr ⟨hk, le_refl k⟩
    rw [hList] at hMem
    cases hMem
  | cons a l =>
    rw [hList] at hSorted hSeek
    obtain ⟨hHead, _⟩ := pairwise_cons.mp hSorted
    have hLow : k ≤ a.1 := ((hSeek a).mp mem_cons_self).2
    have hFirst : a = (k, r) := by
      obtain hEq | hIn := mem_cons.mp ((hSeek (k, r)).mpr ⟨hk, le_refl k⟩)
      · exact hEq.symm
      · exact absurd (hHead _ hIn) (not_lt_of_ge hLow)
    rw [tail_cons]
    constructor
    · intro hIn
      have hAbove := hHead e hIn
      rw [hFirst] at hAbove
      exact ⟨((hSeek e).mp (mem_cons_of_mem a hIn)).1, hAbove⟩
    · rintro ⟨hMem, hAbove⟩
      obtain rfl | hIn := mem_cons.mp ((hSeek e).mpr ⟨hMem, hAbove.le⟩)
      · rw [hFirst] at hAbove
        exact absurd hAbove (lt_irrefl k)
      · exact hIn

end SortedMap

end Lib
