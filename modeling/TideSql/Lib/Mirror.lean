import TideSql.Lib.Store

/-!
# Items that are stored under several keys

Each item of a list is stored under all of its keys with the same value.
-/

namespace Lib.Mirror
open List

variable {κ ν α : Type*} [DecidableEq κ] (keys : α → List κ) (value : α → ν)

def records {κ ν α : Type*} (keys : α → List κ) (value : α → ν) (x : α) : List (κ × ν) :=
  (keys x).map fun k => (k, value x)

def Mirrors (s : Store κ ν) (items : List α) : Prop := ∀ k v, s.get k = some v ↔ ∃ x ∈ items, k ∈ keys x ∧ v = value x

def KeysApart {κ α : Type*} (keys : α → List κ) (items : List α) : Prop :=
  ∀ x ∈ items, ∀ y ∈ items, ∀ k, k ∈ keys x → k ∈ keys y → x = y

variable {keys : α → List κ} {value : α → ν} {s : Store κ ν} {items new : List α}

theorem mirrors_empty : Mirrors keys value Store.empty [] := by
  intro k v
  constructor
  · intro h
    cases h
  · rintro ⟨x, hx, -⟩
    cases hx

omit [DecidableEq κ] in
theorem KeysApart.mono {items' : List α} (h : KeysApart keys items) (hSub : ∀ x ∈ items', x ∈ items) :
    KeysApart keys items' :=
  fun x hx y hy => h x (hSub x hx) y (hSub y hy)

theorem Mirrors.congr {items' : List α} (h : Mirrors keys value s items) (hSame : ∀ x, x ∈ items' ↔ x ∈ items) :
    Mirrors keys value s items' := by
  intro k v
  simp only [h k v, hSame]

omit [DecidableEq κ] in
theorem mem_flatMap_records {k : κ} {v : ν} :
    (k, v) ∈ new.flatMap (records keys value) ↔ ∃ x ∈ new, k ∈ keys x ∧ v = value x := by
  rw [mem_flatMap]
  refine exists_congr fun x => and_congr_right fun _ => ?_
  rw [records, mem_map]
  constructor
  · rintro ⟨k', hk', hEq⟩
    cases hEq
    exact ⟨hk', rfl⟩
  · rintro ⟨hk, rfl⟩
    exact ⟨k, hk, rfl⟩

section

variable (h : Mirrors keys value s items)
include h

theorem Mirrors.putAll (hApart : KeysApart keys (items ++ new)) :
    Mirrors keys value (s.putAll (new.flatMap (records keys value))) (items ++ new) := by
  intro k v
  obtain ⟨v', hMem, hGet⟩ | ⟨hNot, hGet⟩ := Store.get_putAll_cases s (new.flatMap (records keys value)) k
  · obtain ⟨x, hx, hk, rfl⟩ := mem_flatMap_records.mp hMem
    rw [hGet, Option.some_inj]
    constructor
    · rintro rfl
      exact ⟨x, mem_append_right _ hx, hk, rfl⟩
    · rintro ⟨y, hy, hky, rfl⟩
      rw [hApart x (mem_append_right _ hx) y hy k hk hky]
  · rw [hGet, h k v]
    constructor
    · rintro ⟨x, hx, hk⟩
      exact ⟨x, mem_append_left _ hx, hk⟩
    · rintro ⟨x, hx, hk, rfl⟩
      obtain hOld | hNew := mem_append.mp hx
      · exact ⟨x, hOld, hk, rfl⟩
      · exact absurd (mem_map.mpr ⟨(k, value x), mem_flatMap_records.mpr ⟨x, hNew, hk, rfl⟩, rfl⟩) hNot

theorem Mirrors.dropAll (hApart : KeysApart keys items) {p : α → Bool} {ks : List κ}
    (hKeys : ∀ k, k ∈ ks ↔ ∃ x ∈ items, p x = true ∧ k ∈ keys x) :
    Mirrors keys value (s.dropAll ks) (items.filter fun x => !p x) := by
  intro k v
  rw [Store.get_dropAll]
  split
  · rename_i hMem
    obtain ⟨x, hx, hp, hk⟩ := (hKeys k).mp hMem
    constructor
    · intro hNone
      cases hNone
    · rintro ⟨y, hy, hky, -⟩
      obtain ⟨hyMem, hyNot⟩ := mem_filter.mp hy
      rw [← hApart x hx y hyMem k hk hky, hp] at hyNot
      cases hyNot
  · rename_i hNot
    rw [h k v]
    constructor
    · rintro ⟨x, hx, hk, rfl⟩
      refine ⟨x, mem_filter.mpr ⟨hx, ?_⟩, hk, rfl⟩
      cases hp : p x with
      | false => rfl
      | true => exact absurd ((hKeys k).mpr ⟨x, hx, hp, hk⟩) hNot
    · rintro ⟨x, hx, hk, rfl⟩
      exact ⟨x, mem_of_mem_filter hx, hk, rfl⟩

theorem Mirrors.replace (hApart : KeysApart keys items) {p : α → Bool} {f : α → α}
    (hNew : KeysApart keys (items.map fun x => if p x then f x else x)) {moved : List α}
    (hMoved : ∀ x, x ∈ moved ↔ x ∈ items ∧ p x = true) :
    Mirrors keys value ((s.dropAll (moved.flatMap keys)).putAll ((moved.map f).flatMap (records keys value)))
      (items.map fun x => if p x then f x else x) := by
  have hKeys : ∀ k, k ∈ moved.flatMap keys ↔ ∃ x ∈ items, p x = true ∧ k ∈ keys x := by
    intro k
    simp only [mem_flatMap, hMoved, and_assoc]
  have hSame : ∀ x, x ∈ items.map (fun x => if p x then f x else x) ↔
      x ∈ items.filter (fun x => !p x) ++ moved.map f := by
    intro x
    rw [mem_append, mem_filter, mem_map, mem_map]
    constructor
    · rintro ⟨y, hy, rfl⟩
      cases hp : p y with
      | false => exact .inl ⟨hy, by simp [hp]⟩
      | true => exact .inr ⟨y, (hMoved y).mpr ⟨hy, hp⟩, rfl⟩
    · rintro (⟨hx, hNot⟩ | ⟨y, hy, rfl⟩)
      · exact ⟨x, hx, by rw [if_neg]; simpa using hNot⟩
      · obtain ⟨hMem, hp⟩ := (hMoved y).mp hy
        exact ⟨y, hMem, by rw [if_pos hp]⟩
  exact ((h.dropAll hApart hKeys).putAll (hNew.mono fun x hx => (hSame x).mpr hx)).congr hSame

end

end Lib.Mirror
