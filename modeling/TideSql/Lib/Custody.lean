import Mathlib.Logic.Function.Basic
import TideSql.Lib.Store

/-!
# Items on a shelf and in hand

The items of a map stand on a shelf or are in the hands of workers.
-/

namespace Lib.Custody
open Option Function

variable {κ ρ τ : Type*}

/-- `whole` is what stands on the shelf together with what is in hand, and nothing is in two places. -/
structure Split (whole shelf : κ → Option ρ) (hand : τ → Option (κ × ρ)) : Prop where
  shelved {k : κ} {r : ρ} : shelf k = some r → whole k = some r
  held {i : τ} {k : κ} {r : ρ} : hand i = some (k, r) → whole k = some r
  found {k : κ} {r : ρ} : whole k = some r → shelf k = some r ∨ ∃ i, hand i = some (k, r)
  apart {i : τ} {k : κ} {r : ρ} : hand i = some (k, r) → shelf k = none
  single {i j : τ} {k : κ} {r r' : ρ} : hand i = some (k, r) → hand j = some (k, r') → i = j

theorem split_shelf (whole : κ → Option ρ) : Split whole whole fun _ : τ => none where
  shelved h := h
  held h := by cases h
  found h := .inl h
  apart h := by cases h
  single h := by cases h

variable {whole shelf : κ → Option ρ} {hand : τ → Option (κ × ρ)} {i j : τ} {k : κ} {r r' : ρ}

variable [DecidableEq τ]

theorem update_eq_some {f : τ → Option (κ × ρ)} {x : Option (κ × ρ)} {y : κ × ρ} :
    update f i x j = some y ↔ j = i ∧ x = some y ∨ j ≠ i ∧ f j = some y := by
  obtain rfl | hNe := eq_or_ne j i
  · simp
  · simp [hNe]

theorem Split.moved (h : Split whole shelf hand) {whole' shelf' : κ → Option ρ} {x : Option (κ × ρ)}
    (hWhole : ∀ k' ≠ k, whole' k' = whole k') (hShelf : ∀ k' ≠ k, shelf' k' = shelf k')
    (hBefore : ∀ y, hand i = some y → y.1 = k) (hAfter : ∀ y, x = some y → y.1 = k)
    (hOthers : ∀ j ≠ i, ∀ r, hand j ≠ some (k, r)) (hPlaces : shelf' k = none ∨ x = none)
    (hHere : whole' k = (shelf' k).or (x.map Prod.snd)) : Split whole' shelf' (update hand i x) := by
  have hApart {j : τ} {k' : κ} {r : ρ} (hOther : j ≠ i) (hj : hand j = some (k', r)) : k' ≠ k := by
    rintro rfl
    exact hOthers j hOther r hj
  refine ⟨fun {k' r} hOn => ?_, fun {j k' r} hj => ?_, fun {k' r} hr => ?_, fun {j k' r} hj => ?_, ?_⟩
  · obtain rfl | hNe := eq_or_ne k' k
    · rw [hHere, hOn, some_or]
    · exact (hWhole k' hNe).trans (h.shelved ((hShelf k' hNe).symm.trans hOn))
  · obtain ⟨-, rfl⟩ | ⟨hOther, hj⟩ := update_eq_some.mp hj
    · obtain rfl : k' = k := hAfter _ rfl
      rw [hHere, hPlaces.resolve_right (some_ne_none _)]
      rfl
    · exact (hWhole k' (hApart hOther hj)).trans (h.held hj)
  · obtain rfl | hNe := eq_or_ne k' k
    · rw [hHere, or_eq_some_iff, map_eq_some_iff] at hr
      obtain hOn | ⟨-, y, rfl, rfl⟩ := hr
      · exact .inl hOn
      · refine .inr ⟨i, update_eq_some.mpr (.inl ⟨rfl, ?_⟩)⟩
        rw [← hAfter y rfl]
    · obtain hOn | ⟨j, hj⟩ := h.found ((hWhole k' hNe).symm.trans hr)
      · exact .inl ((hShelf k' hNe).trans hOn)
      · refine .inr ⟨j, update_eq_some.mpr (.inr ⟨?_, hj⟩)⟩
        rintro rfl
        exact hNe (hBefore _ hj)
  · obtain ⟨-, rfl⟩ | ⟨hOther, hj⟩ := update_eq_some.mp hj
    · obtain rfl : k' = k := hAfter _ rfl
      exact hPlaces.resolve_right (some_ne_none _)
    · exact (hShelf k' (hApart hOther hj)).trans (h.apart hj)
  · intro j₁ j₂ k' r r' h₁ h₂
    obtain ⟨rfl, e₁⟩ | ⟨hOther₁, e₁⟩ := update_eq_some.mp h₁ <;>
      obtain ⟨rfl, e₂⟩ | ⟨hOther₂, e₂⟩ := update_eq_some.mp h₂
    · rfl
    · exact absurd (hAfter _ e₁) (hApart hOther₂ e₂)
    · exact absurd (hAfter _ e₂) (hApart hOther₁ e₁)
    · exact h.single e₁ e₂

variable [DecidableEq κ]

section

variable (h : Split whole shelf hand)
include h

theorem Split.take (hShelf : shelf k = some r) (hFree : hand i = none) :
    Split whole (update shelf k none) (update hand i (some (k, r))) := by
  refine h.moved (k := k) (fun _ _ => rfl) (fun k' hNe => update_of_ne hNe ..) ?_ ?_ ?_
    (.inl (update_self ..)) ?_
  · simp [hFree]
  · simp
  · intro j _ r' hj
    rw [h.apart hj] at hShelf
    cases hShelf
  · simp [h.shelved hShelf]

theorem Split.putBack (hHand : hand i = some (k, r)) : Split whole (update shelf k (some r)) (update hand i none) := by
  refine h.moved (k := k) (fun _ _ => rfl) (fun k' hNe => update_of_ne hNe ..) ?_ nofun ?_ (.inr rfl) ?_
  · simp [hHand]
  · exact fun j hOther r' hj => hOther (h.single hj hHand)
  · simp [h.held hHand]

theorem Split.add (hAbsent : whole k = none) (hFree : hand i = none) :
    Split (update whole k (some r)) shelf (update hand i (some (k, r))) := by
  have hBare : shelf k = none := Option.eq_none_iff_forall_ne_some.mpr fun r' hOn => by
    rw [h.shelved hOn] at hAbsent
    cases hAbsent
  refine h.moved (k := k) (fun k' hNe => update_of_ne hNe ..) (fun _ _ => rfl) ?_ ?_ ?_ (.inl hBare) ?_
  · simp [hFree]
  · simp
  · intro j _ r' hj
    rw [h.held hj] at hAbsent
    cases hAbsent
  · simp [hBare]

theorem Split.remove (hHand : hand i = some (k, r)) : Split (update whole k none) shelf (update hand i none) := by
  refine h.moved (k := k) (fun k' hNe => update_of_ne hNe ..) (fun _ _ => rfl) ?_ nofun ?_ (.inr rfl) ?_
  · simp [hHand]
  · exact fun j hOther r' hj => hOther (h.single hj hHand)
  · simp [h.apart hHand]

end

section Stores

variable (s : Store κ ρ) (k : κ)

theorem get_put_eq (r : ρ) : (s.put k r).get = update s.get k (some r) := by
  funext k'
  rw [Store.get_put, update_apply]

theorem get_drop_eq : (s.drop k).get = update s.get k none := by
  funext k'
  rw [Store.get_drop, update_apply]

theorem get_putAll_entries : (Store.empty.putAll s.entries).get = s.get := by
  funext k'
  cases hGet : s.get k' with
  | none =>
    refine (Store.get_putAll_of_notMem _ _ fun hMem => ?_).trans rfl
    exact (Store.mem_names_iff s k').mp hMem hGet
  | some r => exact Store.get_putAll_of_mem _ s.nodup ((Store.mem_entries_iff s k' r).mpr hGet)

end Stores

end Lib.Custody
