import Mathlib
import TideSql.Lib.Snapshot

/-!
# Sums over a store

A weight on the entries of a store is added up over it.
-/

namespace Lib.Tally
open Lib.Snapshot List

variable {κ ν : Type*} (g : κ → ν → Int)

def tally (s : Store κ ν) : Int := (s.entries.map fun e => g e.1 e.2).sum

def weigh (k : κ) (v : Option ν) : Int := v.elim 0 (g k)

variable {g}

theorem tally_nonneg (h : ∀ k v, 0 ≤ g k v) (s : Store κ ν) : 0 ≤ tally g s := by
  refine sum_nonneg fun x hx => ?_
  obtain ⟨e, -, rfl⟩ := List.mem_map.mp hx
  exact h e.1 e.2

variable [DecidableEq κ]

theorem sum_filter_ne {l : List (κ × ν)} (hNodup : (l.map Prod.fst).Nodup) (k : κ) :
    ((l.filter fun e => e.1 ≠ k).map fun e => g e.1 e.2).sum =
      (l.map fun e => g e.1 e.2).sum - weigh g k (Assoc.lookup k l) := by
  induction l with
  | nil => rfl
  | cons e l ih =>
    rw [map_cons, nodup_cons] at hNodup
    have hRest := ih hNodup.2
    obtain hKey | hKey := eq_or_ne e.1 k
    · have hNone : Assoc.lookup k l = none := by
        rw [← Option.not_isSome_iff_eq_none, Assoc.lookup_isSome_iff, ← hKey]
        exact hNodup.1
      rw [hNone] at hRest
      rw [filter_cons_of_neg (by simpa using hKey), hRest, Assoc.lookup, if_pos hKey, map_cons, sum_cons,
        weigh, weigh, ← hKey]
      simp
    · rw [filter_cons_of_pos (by simpa using hKey), map_cons, sum_cons, hRest, Assoc.lookup, if_neg hKey,
        map_cons, sum_cons]
      ring

theorem tally_drop (s : Store κ ν) (k : κ) : tally g (s.drop k) = tally g s - weigh g k (s.get k) :=
  sum_filter_ne s.nodup k

theorem tally_put (s : Store κ ν) (k : κ) (v : ν) : tally g (s.put k v) = tally g s - weigh g k (s.get k) + g k v := by
  rw [← tally_drop, add_comm]
  rfl

theorem tally_apply (s : Store κ ν) (o : Op κ ν) :
    tally g (o.apply s) = tally g s - weigh g o.key (s.get o.key) + weigh g o.key ((o.apply s).get o.key) := by
  cases o with
  | put k v => rw [Op.apply, tally_put, Op.key, Store.get_put, if_pos rfl, weigh, weigh, Option.elim_some]
  | del k => rw [Op.apply, tally_drop, Op.key, Store.get_drop, if_pos rfl, weigh, weigh, Option.elim_none, add_zero]

/-- The change that a batch makes depends only on the keys it writes. -/
theorem tally_applyAll_sub {s c : Store κ ν} {ops : List (Op κ ν)} (h : ∀ k ∈ keys ops, c.get k = s.get k) :
    tally g (applyAll c ops) - tally g c = tally g (applyAll s ops) - tally g s := by
  induction ops generalizing s c with
  | nil => simp [applyAll]
  | cons o ops ih =>
    have hHere : c.get o.key = s.get o.key := h o.key mem_cons_self
    have hAfter {k : κ} (hk : c.get k = s.get k) : (o.apply c).get k = (o.apply s).get k := by
      rw [get_apply, get_apply]
      exact Op.update_congr hk o
    have hRest := ih (s := o.apply s) (c := o.apply c) fun k hk => hAfter (h k (mem_cons_of_mem _ hk))
    have hC := tally_apply (g := g) c o
    have hS := tally_apply (g := g) s o
    rw [hHere, hAfter hHere] at hC
    change tally g (applyAll (o.apply c) ops) - tally g c = tally g (applyAll (o.apply s) ops) - tally g s
    linarith

theorem tally_applyAll_of_weightless {s : Store κ ν} {ops : List (Op κ ν)} (h : ∀ o ∈ ops, ∀ v, g o.key v = 0) :
    tally g (applyAll s ops) = tally g s := by
  induction ops generalizing s with
  | nil => rfl
  | cons o ops ih =>
    have hZero (v : Option ν) : weigh g o.key v = 0 := by
      cases v with
      | none => rfl
      | some v => exact h o mem_cons_self v
    refine (ih fun o' ho' => h o' (mem_cons_of_mem _ ho')).trans ?_
    rw [tally_apply, hZero, hZero, sub_zero, add_zero]

end Lib.Tally
