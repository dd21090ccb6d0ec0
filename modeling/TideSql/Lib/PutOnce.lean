import TideSql.Lib.Snapshot

/-!
# Single-deletes

A single-delete may take away the put before it and itself at any time, which is safe for a key that is never
put twice without a delete in between.
-/

namespace Lib.Snapshot
open List

variable {τ κ ν : Type*}

def PutOnce (k : κ) (ops : List (Op κ ν)) : Prop :=
  ∀ pre v mid v' post, ops = pre ++ .put k v :: (mid ++ .put k v' :: post) → .del k ∈ mid

variable [DecidableEq κ]

/-- A key with `p` is put only where it is absent. -/
def Careful (p : κ → Prop) : (κ → Option ν) → List (Op κ ν) → Prop
  | _, [] => True
  | c, o :: ops => (∀ v, o = .put o.key v → p o.key → c o.key = none) ∧ Careful p (o.update c) ops

section Histories

variable {p : κ → Prop} {c c' : κ → Option ν} {k : κ}

theorem careful_append (ops ops' : List (Op κ ν)) :
    Careful p c (ops ++ ops') ↔ Careful p c ops ∧ Careful p (updateAll c ops) ops' := by
  induction ops generalizing c with
  | nil => exact (iff_of_eq (true_and _)).symm
  | cons o ops ih =>
    rw [cons_append, Careful, ih, Careful, and_assoc]
    rfl

theorem careful_congr {ops : List (Op κ ν)} (hAgree : ∀ k ∈ keys ops, c k = c' k) (h : Careful p c ops) :
    Careful p c' ops := by
  induction ops generalizing c c' with
  | nil => trivial
  | cons o ops ih =>
    refine ⟨fun v hv hp => ?_, ih (fun k hk => ?_) h.2⟩
    · rw [← hAgree _ mem_cons_self]
      exact h.1 v hv hp
    · exact Op.update_congr (hAgree k (mem_cons_of_mem _ hk)) o

theorem careful_of_not {ops : List (Op κ ν)} (h : ∀ o ∈ ops, ¬p o.key) : Careful p c ops := by
  induction ops generalizing c with
  | nil => trivial
  | cons o ops ih =>
    exact ⟨fun _ _ hp => absurd hp (h o mem_cons_self), ih fun o' ho' => h o' (mem_cons_of_mem o ho')⟩

theorem careful_dels (dels : List κ) : Careful p c (dels.map Op.del) := by
  induction dels generalizing c with
  | nil => trivial
  | cons d dels ih => exact ⟨fun _ hv => (by cases hv), ih⟩

theorem careful_puts {puts : List (κ × ν)} (hNodup : (puts.map Prod.fst).Nodup)
    (h : ∀ k ∈ puts.map Prod.fst, p k → c k = none) : Careful p c (puts.map fun e => .put e.1 e.2) := by
  induction puts generalizing c with
  | nil => trivial
  | cons e puts ih =>
    obtain ⟨hNot, hNodup⟩ := List.nodup_cons.mp hNodup
    refine ⟨fun _ _ hp => h e.1 mem_cons_self hp, ih hNodup fun k hk hp => ?_⟩
    have hNe : k ≠ e.1 := fun hEq => hNot (hEq ▸ hk)
    rw [Op.update_of_ne c (o := .put e.1 e.2) hNe]
    exact h k (mem_cons_of_mem _ hk) hp

theorem careful_patch {dels : List κ} {puts : List (κ × ν)} (hNodup : (puts.map Prod.fst).Nodup)
    (h : ∀ k ∈ puts.map Prod.fst, k ∈ dels ∨ c k = none) : Careful p c (patch dels puts) := by
  rw [patch, careful_append]
  refine ⟨careful_dels dels, careful_puts hNodup fun k hk _ => ?_⟩
  rw [updateAll_dels]
  obtain hDel | hNone := h k hk
  · exact if_pos hDel
  · rw [hNone, ite_self]

theorem updateAll_ne_none {ops : List (Op κ ν)} (hSome : c k ≠ none) (hDel : .del k ∉ ops) :
    updateAll c ops k ≠ none := by
  induction ops generalizing c with
  | nil => exact hSome
  | cons o ops ih =>
    rw [mem_cons, not_or] at hDel
    refine ih (c := o.update c) ?_ hDel.2
    obtain rfl | hNe := eq_or_ne k o.key
    · cases o with
      | put k v =>
        rw [Op.key, Op.update_put_self]
        exact Option.some_ne_none v
      | del k => exact absurd rfl hDel.1
    · rwa [Op.update_of_ne c hNe]

theorem putOnce_of_careful {ops : List (Op κ ν)} (h : Careful p c ops) (hp : p k) : PutOnce k ops := by
  rintro pre v mid v' post rfl
  by_contra hDel
  obtain ⟨-, -, hRest⟩ := (careful_append _ _).mp h
  obtain ⟨-, hPut, -⟩ := (careful_append _ _).mp hRest
  refine updateAll_ne_none ?_ hDel (hPut v' rfl hp)
  rw [Op.update_put_self]
  exact Option.some_ne_none v

/-- A put and the single-delete after it can be taken away together. -/
theorem updateAll_drop_pair {pre mid post : List (Op κ ν)} {v : ν} (hp : p k) (hMid : k ∉ keys mid)
    (h : Careful p c (pre ++ .put k v :: (mid ++ .del k :: post))) :
    updateAll c (pre ++ (mid ++ post)) = updateAll c (pre ++ .put k v :: (mid ++ .del k :: post)) := by
  obtain ⟨-, hPut, -⟩ := (careful_append _ _).mp h
  have hNone : updateAll c pre k = none := hPut v rfl hp
  have hSame : updateAll (updateAll c pre) mid =
      Op.update (updateAll (Op.update (updateAll c pre) (.put k v)) mid) (.del k) := by
    funext z
    obtain rfl | hNe := eq_or_ne z k
    · rw [updateAll_of_notMem _ hMid, hNone, Op.update_del_self]
    · rw [Op.update_of_ne _ (o := .del k) hNe]
      refine updateAll_congr ?_ mid
      rw [Op.update_of_ne _ (o := .put k v) hNe]
  rw [updateAll_append, updateAll_append, updateAll_append, updateAll_cons, updateAll_append, updateAll_cons, ← hSame]

end Histories

section Worlds

variable [DecidableEq τ] {p : κ → Prop} {s₀ : Store κ ν} {w w' : World τ κ ν}

structure CarefulWorld (p : κ → Prop) (s₀ : Store κ ν) (w : World τ κ ν) : Prop where
  coherent : Coherent s₀ w
  logged : Careful p s₀.get w.log.flatten
  active : Views (fun s ops => Careful p s.get ops) w

omit [DecidableEq τ] in
theorem carefulWorld_init : CarefulWorld p s₀ (init s₀ : World τ κ ν) where
  coherent := coherent_init s₀
  logged := trivial
  active _ _ h := by cases h

theorem CarefulWorld.step {a : Action τ κ ν} (h : CarefulWorld p s₀ w)
    (hWrite : ∀ i ops t, a = .write i ops → w.active i = some t → Careful p t.view.get ops)
    (hStep : step w a = some w') : CarefulWorld p s₀ w' where
  coherent := h.coherent.step hStep
  logged := by
    obtain ⟨-, hLog⟩ | ⟨i, t, -, ht, hFree, -, hLog⟩ := committed_of_step hStep
    · exact hLog ▸ h.logged
    · -- what the transaction touches stands in the store as it did in its snapshot
      have hTouched : ∀ k ∈ keys t.ops, t.snapshot.get k = w.committed.get k := fun k hk =>
        (h.coherent.unchanged ht fun ops hOps o ho hKey => key_notMem_of_free hFree hOps ho (hKey ▸ hk)).symm
      have hMine : Careful p w.committed.get t.ops := careful_congr hTouched (h.active.ops ht)
      rw [h.coherent.history, get_applyAll] at hMine
      rw [hLog, flatten_append, flatten_singleton, careful_append]
      exact ⟨h.logged, hMine⟩
  active := by
    refine h.active.step trivial (fun i ops t hEq ht => ?_) hStep
    rw [careful_append, ← get_applyAll]
    exact ⟨h.active.ops ht, hWrite i ops t hEq ht⟩

end Worlds

end Lib.Snapshot
