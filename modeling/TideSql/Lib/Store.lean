import Mathlib.Data.List.Basic
import Mathlib.Data.List.Nodup

/-!
# Named stores

A store maps names to contents and lists its names in some order.
-/

namespace Lib

variable {κ γ : Type*} [DecidableEq κ]

namespace Assoc

def lookup (k : κ) : List (κ × γ) → Option γ
  | [] => none
  | (a, v) :: l => if a = k then some v else lookup k l

theorem lookup_isSome_iff (k : κ) (l : List (κ × γ)) : (lookup k l).isSome ↔ k ∈ l.map Prod.fst := by
  induction l with
  | nil => simp [lookup]
  | cons e l ih =>
    rw [lookup, List.map_cons, List.mem_cons, ← ih]
    obtain hKey | hKey := eq_or_ne e.1 k
    · simp [hKey]
    · simp [hKey, Ne.symm hKey]

theorem lookup_eq_some_iff {k : κ} {l : List (κ × γ)} (hNodup : (l.map Prod.fst).Nodup) (v : γ) :
    lookup k l = some v ↔ (k, v) ∈ l := by
  induction l with
  | nil => simp [lookup]
  | cons e l ih =>
    rw [List.map_cons, List.nodup_cons] at hNodup
    rw [lookup, List.mem_cons]
    obtain hKey | hKey := eq_or_ne e.1 k
    · have hAbsent : (k, v) ∉ l := fun hMem => hNodup.1 (List.mem_map.mpr ⟨(k, v), hMem, hKey.symm⟩)
      rw [if_pos hKey, or_iff_left hAbsent, Option.some_inj, Prod.ext_iff]
      exact ⟨fun h => ⟨hKey.symm, h.symm⟩, fun h => h.2.symm⟩
    · rw [if_neg hKey, ih hNodup.2, or_iff_right fun hEq => hKey (congrArg Prod.fst hEq).symm]

theorem lookup_filter_ne (k z : κ) (l : List (κ × γ)) :
    lookup z (l.filter fun e => e.1 ≠ k) = if z = k then none else lookup z l := by
  induction l with
  | nil => simp [lookup]
  | cons e l ih =>
    obtain hKey | hKey := eq_or_ne e.1 k
    · rw [List.filter_cons_of_neg (by simpa using hKey), ih, lookup]
      split
      · rfl
      · rw [if_neg (by rw [hKey]; exact Ne.symm ‹_›)]
    · rw [List.filter_cons_of_pos (by simpa using hKey), lookup, ih, lookup]
      obtain hz | hz := eq_or_ne e.1 z
      · rw [if_pos hz, if_pos hz, if_neg (hz ▸ hKey)]
      · rw [if_neg hz, if_neg hz]

end Assoc

/-- Named contents in the order the store lists them, each name once. -/
structure Store (κ γ : Type*) where
  entries : List (κ × γ)
  nodup : (entries.map Prod.fst).Nodup

namespace Store
open Assoc Option

def get (s : Store κ γ) (k : κ) : Option γ := lookup k s.entries

def names {κ γ : Type*} (s : Store κ γ) : List κ := s.entries.map Prod.fst

def empty {κ γ : Type*} : Store κ γ := ⟨[], List.nodup_nil⟩

def drop (s : Store κ γ) (k : κ) : Store κ γ where
  entries := s.entries.filter fun e => e.1 ≠ k
  nodup := s.nodup.sublist (List.filter_sublist.map Prod.fst)

theorem mem_names_iff (s : Store κ γ) (k : κ) : k ∈ s.names ↔ s.get k ≠ none := by
  rw [names, ← lookup_isSome_iff, isSome_iff_ne_none, get]

theorem mem_entries_iff (s : Store κ γ) (k : κ) (v : γ) : (k, v) ∈ s.entries ↔ s.get k = some v :=
  (lookup_eq_some_iff s.nodup v).symm

@[simp] theorem get_drop (s : Store κ γ) (k z : κ) : (s.drop k).get z = if z = k then none else s.get z :=
  lookup_filter_ne k z s.entries

def put (s : Store κ γ) (k : κ) (v : γ) : Store κ γ where
  entries := (k, v) :: (s.drop k).entries
  nodup := by
    have hFresh : k ∉ (s.drop k).names := by simp [mem_names_iff]
    exact List.nodup_cons.mpr ⟨hFresh, (s.drop k).nodup⟩

@[simp] theorem get_put (s : Store κ γ) (k z : κ) (v : γ) : (s.put k v).get z = if z = k then some v else s.get z := by
  obtain hz | hz := eq_or_ne z k
  · simp [get, put, lookup, hz]
  · have hGet := get_drop s k z
    rw [if_neg hz] at hGet
    rw [if_neg hz, ← hGet, get, put, lookup, if_neg (Ne.symm hz), get]

def modify (s : Store κ γ) (k : κ) (f : γ → γ) : Store κ γ :=
  match s.get k with
  | none => s
  | some v => s.put k (f v)

theorem get_modify_of_ne (s : Store κ γ) {k z : κ} (hNe : z ≠ k) (f : γ → γ) : (s.modify k f).get z = s.get z := by
  rw [modify]
  split
  · rfl
  · rw [get_put, if_neg hNe]

theorem get_modify_self (s : Store κ γ) (k : κ) (f : γ → γ) : (s.modify k f).get k = (s.get k).map f := by
  rw [modify]
  split
  · rename_i hNone
    rw [hNone, map_none]
  · rename_i v hSome
    rw [get_put, if_pos rfl, hSome, map_some]

def rename (s : Store κ γ) (old new : κ) : Store κ γ :=
  match s.get old with
  | none => s
  | some v => (s.drop old).put new v

def moveOver (s : Store κ γ) (old new : κ) : Store κ γ := (s.drop new).rename old new

theorem get_moveOver_self (s : Store κ γ) (k z : κ) : (s.moveOver k k).get z = if z = k then none else s.get z := by
  have hGone : (s.drop k).get k = none := by simp
  simp only [moveOver, rename, hGone, get_drop]

theorem get_moveOver (s : Store κ γ) {old new : κ} (hNe : old ≠ new) (z : κ) : (s.moveOver old new).get z =
      if z = new then s.get old else if z = old then none else s.get z := by
  have hOld : (s.drop new).get old = s.get old := by simp [hNe]
  rw [moveOver, rename, hOld]
  cases hGet : s.get old with
  | none =>
    simp only [get_drop]
    obtain hz | hz := eq_or_ne z old
    · simp [hz, hGet]
    · simp [hz]
  | some v =>
    simp only [get_put, get_drop]
    obtain hz | hz := eq_or_ne z new
    · simp [hz]
    · simp [hz]

def dropAll (s : Store κ γ) (ks : List κ) : Store κ γ := ks.foldl drop s

@[simp] theorem get_dropAll (s : Store κ γ) (ks : List κ) (z : κ) :
    (s.dropAll ks).get z = if z ∈ ks then none else s.get z := by
  induction ks generalizing s with
  | nil => simp [dropAll]
  | cons k ks ih =>
    have hStep : s.dropAll (k :: ks) = (s.drop k).dropAll ks := rfl
    rw [hStep, ih, get_drop]
    obtain hz | hz := eq_or_ne z k
    · simp [hz]
    · simp [hz]

def mapValues {κ γ δ : Type*} (f : κ → γ → δ) (s : Store κ γ) : Store κ δ where
  entries := s.entries.map fun e => (e.1, f e.1 e.2)
  nodup := by simpa [List.map_map, Function.comp_def] using s.nodup

@[simp] theorem get_mapValues {δ : Type*} (f : κ → γ → δ) (s : Store κ γ) (z : κ) :
    (s.mapValues f).get z = (s.get z).map (f z) := by
  rw [get, get, mapValues]
  dsimp only
  induction s.entries with
  | nil => rfl
  | cons e l ih =>
    rw [List.map_cons, lookup, lookup, ih]
    obtain hKey | hKey := eq_or_ne e.1 z
    · simp [hKey]
    · simp [hKey]

theorem mapValues_drop {δ : Type*} (f : κ → γ → δ) (s : Store κ γ) (k : κ) :
    (s.drop k).mapValues f = (s.mapValues f).drop k := by
  simp only [mapValues, drop, List.filter_map, Function.comp_def]

theorem mapValues_put {δ : Type*} (f : κ → γ → δ) (s : Store κ γ) (k : κ) (v : γ) :
    (s.put k v).mapValues f = (s.mapValues f).put k (f k v) := by
  have hRest := congrArg entries (mapValues_drop f s k)
  simp only [mapValues] at hRest
  simp only [mapValues, put, List.map_cons, hRest]

def putAll (s : Store κ γ) (es : List (κ × γ)) : Store κ γ := es.foldl (fun s e => s.put e.1 e.2) s

section

variable (s : Store κ γ)

theorem get_putAll_of_notMem (es : List (κ × γ)) {z : κ} (hz : z ∉ es.map Prod.fst) :
    (s.putAll es).get z = s.get z := by
  induction es generalizing s with
  | nil => rfl
  | cons e es ih =>
    have hStep : s.putAll (e :: es) = (s.put e.1 e.2).putAll es := rfl
    rw [List.map_cons, List.mem_cons, not_or] at hz
    rw [hStep, ih _ hz.2, get_put, if_neg hz.1]

theorem get_putAll_of_mem {es : List (κ × γ)} (hNodup : (es.map Prod.fst).Nodup) {z : κ} {v : γ} (hMem : (z, v) ∈ es) :
    (s.putAll es).get z = some v := by
  induction es generalizing s with
  | nil => cases hMem
  | cons e es ih =>
    have hStep : s.putAll (e :: es) = (s.put e.1 e.2).putAll es := rfl
    rw [List.map_cons, List.nodup_cons] at hNodup
    rw [hStep]
    obtain rfl | hIn := List.mem_cons.mp hMem
    · rw [get_putAll_of_notMem _ es hNodup.1, get_put, if_pos rfl]
    · exact ih _ hNodup.2 hIn

theorem get_putAll_cases (es : List (κ × γ)) (z : κ) :
    (∃ v, (z, v) ∈ es ∧ (s.putAll es).get z = some v) ∨ (z ∉ es.map Prod.fst ∧ (s.putAll es).get z = s.get z) := by
  induction es generalizing s with
  | nil => exact Or.inr ⟨List.not_mem_nil, rfl⟩
  | cons e es ih =>
    obtain ⟨v, hMem, hGet⟩ | ⟨hNot, hGet⟩ := ih (s.put e.1 e.2)
    · exact Or.inl ⟨v, List.mem_cons_of_mem e hMem, hGet⟩
    · have hStep : (s.putAll (e :: es)).get z = (s.put e.1 e.2).get z := hGet
      rw [get_put] at hStep
      obtain rfl | hz := eq_or_ne z e.1
      · exact Or.inl ⟨e.2, List.mem_cons_self, hStep.trans (if_pos rfl)⟩
      · rw [List.map_cons, List.mem_cons, not_or]
        exact Or.inr ⟨⟨hz, hNot⟩, hStep.trans (if_neg hz)⟩

theorem names_drop (k : κ) : (s.drop k).names = s.names.filter (· ≠ k) := by
  rw [names, names, drop, List.filter_map]
  rfl

theorem names_moveOver {old new : κ} (hNe : old ≠ new) (hOld : old ∈ s.names) :
    (s.moveOver old new).names = new :: ((s.names.filter (· ≠ new)).filter (· ≠ old)).filter (· ≠ new) := by
  have hGet : (s.drop new).get old ≠ none := by
    rw [get_drop, if_neg hNe]
    exact (s.mem_names_iff old).mp hOld
  obtain ⟨v, hv⟩ := ne_none_iff_exists'.mp hGet
  rw [moveOver, rename, hv, ← names_drop, ← names_drop, ← names_drop]
  rfl

end

def Unique (s : Store κ γ) : Prop := ∀ k k' v, s.get k = some v → s.get k' = some v → k = k'

def moveAll (f : κ → κ) (s : Store κ γ) (ks : List κ) : Store κ γ :=
  ks.foldl (fun s k => s.moveOver k (f k)) s

section

variable (f : κ → κ) (s : Store κ γ)

@[simp] theorem moveAll_nil : s.moveAll f [] = s := rfl

@[simp] theorem moveAll_cons (k : κ) (ks : List κ) : s.moveAll f (k :: ks) = (s.moveOver k (f k)).moveAll f ks := rfl

theorem moveAll_append (ks ks' : List κ) : s.moveAll f (ks ++ ks') = (s.moveAll f ks).moveAll f ks' := List.foldl_append

end

theorem get_moveOver_cases (s : Store κ γ) (old new z : κ) : (z = old ∧ (s.moveOver old new).get z = none) ∨
      (z = new ∧ (s.moveOver old new).get z = s.get old) ∨
      (z ≠ new ∧ z ≠ old ∧ (s.moveOver old new).get z = s.get z) := by
  obtain hNe | hNe := eq_or_ne old new
  · subst hNe
    rw [get_moveOver_self]
    obtain hz | hz := eq_or_ne z old
    · exact Or.inl ⟨hz, if_pos hz⟩
    · exact Or.inr (Or.inr ⟨hz, hz, if_neg hz⟩)
  · rw [get_moveOver s hNe]
    obtain hz | hz := eq_or_ne z new
    · exact Or.inr (Or.inl ⟨hz, if_pos hz⟩)
    · obtain hOld | hOld := eq_or_ne z old
      · exact Or.inl ⟨hOld, by rw [if_neg hz, if_pos hOld]⟩
      · exact Or.inr (Or.inr ⟨hz, hOld, by rw [if_neg hz, if_neg hOld]⟩)

theorem get_moveOver_origin {s : Store κ γ} {old new z : κ} {v : γ}
    (h : (s.moveOver old new).get z = some v) :
    ∃ z₀, s.get z₀ = some v ∧ ((z = new ∧ z₀ = old) ∨ (z = z₀ ∧ z ≠ new ∧ z ≠ old)) := by
  rcases get_moveOver_cases s old new z with ⟨_, hNone⟩ | ⟨hNew, hGet⟩ | ⟨hNew, hOld, hGet⟩
  · rw [hNone] at h
    cases h
  · exact ⟨old, hGet ▸ h, Or.inl ⟨hNew, rfl⟩⟩
  · exact ⟨z, hGet ▸ h, Or.inr ⟨rfl, hNew, hOld⟩⟩

theorem Unique.moveOver {s : Store κ γ} (h : s.Unique) (old new : κ) : (s.moveOver old new).Unique := by
  intro k k' v hk hk'
  obtain ⟨z, hz, hFrom⟩ := get_moveOver_origin hk
  obtain ⟨z', hz', hFrom'⟩ := get_moveOver_origin hk'
  obtain rfl := h z z' v hz hz'
  rcases hFrom with ⟨hNew, hOld⟩ | ⟨hSame, _, hNe⟩ <;>
    rcases hFrom' with ⟨hNew', hOld'⟩ | ⟨hSame', _, hNe'⟩
  · exact hNew.trans hNew'.symm
  · exact absurd (hSame'.trans hOld) hNe'
  · exact absurd (hSame.trans hOld') hNe
  · exact hSame.trans hSame'.symm

theorem Unique.moveAll {s : Store κ γ} (h : s.Unique) (f : κ → κ) (ks : List κ) : (s.moveAll f ks).Unique := by
  induction ks generalizing s with
  | nil => exact h
  | cons k ks ih => exact ih (h.moveOver k (f k))

theorem Unique.moveOver_lost {s : Store κ γ} (h : s.Unique) {old new : κ} {v : γ} (hv : s.get new = some v)
    (z : κ) : (s.moveOver old new).get z ≠ some v := by
  intro hz
  obtain ⟨z₀, hz₀, hFrom⟩ := get_moveOver_origin hz
  obtain rfl := h z₀ new v hz₀ hv
  obtain ⟨rfl, rfl⟩ | ⟨rfl, hNew, _⟩ := hFrom
  · rw [get_moveOver_self, if_pos rfl] at hz
    cases hz
  · exact hNew rfl

theorem moveAll_lost (f : κ → κ) {s : Store κ γ} {v : γ} (hLost : ∀ z, s.get z ≠ some v) (ks : List κ) (z : κ) :
    (s.moveAll f ks).get z ≠ some v := by
  induction ks generalizing s with
  | nil => exact hLost z
  | cons k ks ih =>
    refine ih fun z' hz' => ?_
    obtain ⟨z₀, hz₀, _⟩ := get_moveOver_origin hz'
    exact hLost z₀ hz₀

section

variable (f : κ → κ) (s : Store κ γ) (ks : List κ)

theorem get_moveAll_of_notTarget (z : κ) (hTarget : ∀ k ∈ ks, f k ≠ z) :
    (s.moveAll f ks).get z = if z ∈ ks then none else s.get z := by
  induction ks generalizing s with
  | nil => simp
  | cons k ks ih =>
    rw [moveAll_cons, ih _ fun k' hk' => hTarget k' (List.mem_cons_of_mem k hk')]
    have hNot : f k ≠ z := hTarget k List.mem_cons_self
    by_cases hMem : z ∈ ks
    · simp [hMem]
    · obtain hk | hk := eq_or_ne z k
      · subst hk
        rw [if_neg hMem, get_moveOver s hNot.symm, if_neg hNot.symm, if_pos rfl, if_pos List.mem_cons_self]
      · rcases get_moveOver_cases s k (f k) z with ⟨h, _⟩ | ⟨h, _⟩ | ⟨_, _, h⟩
        · exact absurd h hk
        · exact absurd h.symm hNot
        · simp [hMem, hk, h]

theorem get_moveAll_target (hNodup : ks.Nodup) (hInj : ∀ k ∈ ks, ∀ k' ∈ ks, f k = f k' → k = k')
    (hApart : ∀ k ∈ ks, ∀ k' ∈ ks, f k ≠ k') (k : κ) (hk : k ∈ ks) : (s.moveAll f ks).get (f k) = s.get k := by
  induction ks generalizing s with
  | nil => cases hk
  | cons a ks ih =>
    obtain ⟨hFresh, hTail⟩ := List.nodup_cons.mp hNodup
    have hNe : a ≠ f a := (hApart a List.mem_cons_self a List.mem_cons_self).symm
    rw [moveAll_cons]
    rcases List.mem_cons.mp hk with rfl | hMem
    · have hTarget : ∀ k' ∈ ks, f k' ≠ f k := fun k' hk' hEq => by
        have hSame := hInj k' (List.mem_cons_of_mem k hk') k List.mem_cons_self hEq
        exact hFresh (hSame ▸ hk')
      have hNotMem : f k ∉ ks := fun hMem =>
        hApart k List.mem_cons_self (f k) (List.mem_cons_of_mem k hMem) rfl
      rw [get_moveAll_of_notTarget f _ ks (f k) hTarget, if_neg hNotMem, get_moveOver s hNe, if_pos rfl]
    · rw [ih _ hTail (fun x hx y hy => hInj x (List.mem_cons_of_mem a hx) y (List.mem_cons_of_mem a hy))
        (fun x hx y hy => hApart x (List.mem_cons_of_mem a hx) y (List.mem_cons_of_mem a hy)) hMem,
        get_moveOver s hNe, if_neg (hApart a List.mem_cons_self k hk).symm,
        if_neg (show k ≠ a from fun hEq => hFresh (hEq ▸ hMem))]

end

def ofNames {κ γ : Type*} (f : κ → γ) (ks : List κ) (h : ks.Nodup) : Store κ γ where
  entries := ks.map fun k => (k, f k)
  nodup := by simpa [List.map_map, Function.comp_def] using h

@[simp] theorem names_ofNames {κ γ : Type*} (f : κ → γ) (ks : List κ) (h : ks.Nodup) : (ofNames f ks h).names = ks := by
  simp [names, ofNames, List.map_map, Function.comp_def]

@[simp] theorem get_ofNames (f : κ → γ) (ks : List κ) (h : ks.Nodup) (z : κ) :
    (ofNames f ks h).get z = if z ∈ ks then some (f z) else none := by
  induction ks with
  | nil => simp [get, ofNames, lookup]
  | cons k ks ih =>
    have hTail := ih (List.nodup_cons.mp h).2
    simp only [get, ofNames, List.map_cons, lookup] at hTail ⊢
    rw [hTail]
    obtain hz | hz := eq_or_ne k z
    · simp [hz]
    · simp [hz, Ne.symm hz]

theorem unique_ofNames (ks : List κ) (h : ks.Nodup) : (ofNames id ks h).Unique := by
  intro k k' v hk hk'
  rw [get_ofNames] at hk hk'
  split at hk <;> split at hk' <;> simp_all

end Store

end Lib
