import TideSql.Lib.Store
import Mathlib.Logic.Function.Basic

/-!
# Snapshot transactions, the first committer wins

A transaction reads the store as it stood when it began under its own writes. It commits if no key it wrote
has been committed since.
-/

namespace Lib.Snapshot
open List Function Option Prod

variable {τ κ ν γ : Type*}

inductive Op (κ ν : Type*) where
  | put (k : κ) (v : ν)
  | del (k : κ)

def Op.key : Op κ ν → κ
  | .put k _ => k
  | .del k => k

def keys (ops : List (Op κ ν)) : List κ := ops.map Op.key

/-- `begun` is the length of the log at the start, and the last batch stands first. -/
structure Txn (κ ν : Type*) where
  begun : Nat
  snapshot : Store κ ν
  batches : List (List (Op κ ν))

def opsOf (batches : List (List (Op κ ν))) : List (Op κ ν) := batches.reverse.flatten

theorem opsOf_cons (b : List (Op κ ν)) (batches : List (List (Op κ ν))) :
    opsOf (b :: batches) = opsOf batches ++ b := by
  simp [opsOf]

theorem mem_opsOf {o : Op κ ν} {batches : List (List (Op κ ν))} : o ∈ opsOf batches ↔ ∃ b ∈ batches, o ∈ b := by
  simp [opsOf, mem_flatten]

def Txn.ops (t : Txn κ ν) : List (Op κ ν) := opsOf t.batches

/-- `log` has the batches committed so far, the first one in front. -/
structure World (τ κ ν : Type*) where
  committed : Store κ ν
  log : List (List (Op κ ν))
  active : τ → Option (Txn κ ν)

inductive Action (τ κ ν : Type*) where
  | start (i : τ)
  | write (i : τ) (ops : List (Op κ ν))
  | undo (i : τ) (n : Nat)
  | commit (i : τ)
  | abort (i : τ)

section Exec

variable [DecidableEq τ] [DecidableEq κ]

def Op.apply (s : Store κ ν) : Op κ ν → Store κ ν
  | .put k v => s.put k v
  | .del k => s.drop k

def applyAll (s : Store κ ν) (ops : List (Op κ ν)) : Store κ ν := ops.foldl Op.apply s

def Txn.view (t : Txn κ ν) : Store κ ν := applyAll t.snapshot t.ops

def conflicts (w : World τ κ ν) (t : Txn κ ν) : Bool :=
  (w.log.drop t.begun).any fun ops => ops.any fun o => o.key ∈ keys t.ops

def World.set (w : World τ κ ν) (i : τ) (t : Option (Txn κ ν)) : World τ κ ν :=
  { w with active := Function.update w.active i t }

def World.publish (w : World τ κ ν) (ops : List (Op κ ν)) : World τ κ ν :=
  { w with committed := applyAll w.committed ops, log := w.log ++ [ops] }

def step (w : World τ κ ν) : Action τ κ ν → Option (World τ κ ν)
  | .start i =>
    match w.active i with
    | some _ => none
    | none => some (w.set i (some ⟨w.log.length, w.committed, []⟩))
  | .write i ops => (w.active i).map fun t => w.set i (some { t with batches := ops :: t.batches })
  | .undo i n => (w.active i).map fun t => w.set i (some { t with batches := t.batches.drop n })
  | .commit i => (w.active i).map fun t =>
      if conflicts w t then w.set i none else (w.publish t.ops).set i none
  | .abort i => (w.active i).map fun _ => w.set i none

def init (s : Store κ ν) : World τ κ ν := ⟨s, [], fun _ => none⟩

def World.Shows {τ κ ν : Type*} [DecidableEq κ] (w : World τ κ ν) (s : Store κ ν) : Prop :=
  s = w.committed ∨ ∃ i t, w.active i = some t ∧ s = t.view

end Exec

section Contents

variable [DecidableEq κ]

def Op.update (c : κ → Option ν) : Op κ ν → κ → Option ν
  | .put k v => Function.update c k (some v)
  | .del k => Function.update c k none

def updateAll (c : κ → Option ν) (ops : List (Op κ ν)) : κ → Option ν := ops.foldl Op.update c

theorem get_apply (s : Store κ ν) (o : Op κ ν) : (o.apply s).get = o.update s.get := by
  funext z
  cases o with
  | put k v => rw [Op.apply, Op.update, Store.get_put, update_apply]
  | del k => rw [Op.apply, Op.update, Store.get_drop, update_apply]

theorem get_applyAll (s : Store κ ν) (ops : List (Op κ ν)) : (applyAll s ops).get = updateAll s.get ops := by
  induction ops generalizing s with
  | nil => rfl
  | cons o ops ih =>
    rw [applyAll, foldl_cons, updateAll, foldl_cons, ← get_apply]
    exact ih _

section

variable (c : κ → Option ν)

theorem updateAll_nil : updateAll c [] = c := rfl

theorem updateAll_cons (o : Op κ ν) (ops : List (Op κ ν)) : updateAll c (o :: ops) = updateAll (o.update c) ops := rfl

theorem updateAll_append (ops ops' : List (Op κ ν)) :
    updateAll c (ops ++ ops') = updateAll (updateAll c ops) ops' := foldl_append

end

theorem applyAll_append (s : Store κ ν) (ops ops' : List (Op κ ν)) :
    applyAll s (ops ++ ops') = applyAll (applyAll s ops) ops' := foldl_append

theorem Op.update_put_self (c : κ → Option ν) (k : κ) (v : ν) : Op.update c (.put k v) k = some v := by
  rw [Op.update, update_self]

theorem Op.update_del_self (c : κ → Option ν) (k : κ) : Op.update c (.del k) k = none := by
  rw [Op.update, update_self]

variable {k : κ}

theorem Op.update_of_ne (c : κ → Option ν) {o : Op κ ν} (h : k ≠ o.key) : o.update c k = c k := by
  cases o <;> exact Function.update_of_ne h ..

variable {ops : List (Op κ ν)}

theorem updateAll_of_notMem (c : κ → Option ν) (h : k ∉ keys ops) : updateAll c ops k = c k := by
  induction ops generalizing c with
  | nil => rfl
  | cons o ops ih =>
    rw [keys, map_cons, mem_cons, not_or] at h
    rw [updateAll_cons]
    exact (ih _ h.2).trans (o.update_of_ne c h.1)

theorem Op.update_congr {c c' : κ → Option ν} (h : c k = c' k) (o : Op κ ν) : o.update c k = o.update c' k := by
  cases o <;> simp only [Op.update, update_apply, h]

theorem updateAll_congr {c c' : κ → Option ν} (h : c k = c' k) (ops : List (Op κ ν)) :
    updateAll c ops k = updateAll c' ops k := by
  induction ops generalizing c c' with
  | nil => exact h
  | cons o ops ih => exact ih (Op.update_congr h o)

theorem updateAll_origin {c : κ → Option ν} {v : ν} (h : updateAll c ops k = some v) :
    c k = some v ∨ Op.put k v ∈ ops := by
  induction ops generalizing c with
  | nil => exact .inl h
  | cons o ops ih =>
    obtain hOld | hPut := ih h
    · obtain rfl | hNe := eq_or_ne k o.key
      · cases o with
        | put k' v' =>
          rw [Op.key, Op.update_put_self, some.injEq] at hOld
          exact .inr (hOld ▸ mem_cons_self)
        | del k' =>
          rw [Op.key, Op.update_del_self] at hOld
          cases hOld
      · exact .inl (o.update_of_ne c hNe ▸ hOld)
    · exact .inr (mem_cons_of_mem o hPut)

theorem updateAll_of_mem (c c' : κ → Option ν) (h : k ∈ keys ops) : updateAll c ops k = updateAll c' ops k := by
  induction ops generalizing c c' with
  | nil => cases h
  | cons o ops ih =>
    rw [updateAll_cons, updateAll_cons]
    obtain rfl | h := mem_cons.mp h
    · refine updateAll_congr ?_ ops
      cases o with
      | put k v => rw [Op.key, Op.update_put_self, Op.update_put_self]
      | del k => rw [Op.key, Op.update_del_self, Op.update_del_self]
    · exact ih _ _ h

theorem put_mem_of_updateAll {c : κ → Option ν} {v : ν} (hMem : k ∈ keys ops) (h : updateAll c ops k = some v) :
    .put k v ∈ ops := by
  rw [updateAll_of_mem c (fun _ => none) hMem] at h
  exact (updateAll_origin h).resolve_left fun hNone => by cases hNone

def patch {κ ν : Type*} (dels : List κ) (puts : List (κ × ν)) : List (Op κ ν) :=
  dels.map Op.del ++ puts.map fun e => .put e.1 e.2

theorem updateAll_dels (c : κ → Option ν) (dels : List κ) (k : κ) :
    updateAll c (dels.map Op.del) k = if k ∈ dels then none else c k := by
  induction dels generalizing c with
  | nil => rfl
  | cons d dels ih =>
    rw [map_cons, updateAll_cons, ih, Op.update, update_apply]
    simp only [mem_cons]
    split <;> split <;> simp_all

variable {puts : List (κ × ν)}

theorem updateAll_puts (c : κ → Option ν) (h : k ∈ puts.map fst) :
    ∃ v, (k, v) ∈ puts ∧ updateAll c (puts.map fun e => Op.put e.1 e.2) k = some v := by
  induction puts generalizing c with
  | nil => cases h
  | cons e puts ih =>
    by_cases hMem : k ∈ puts.map fst
    · obtain ⟨v, hv, hGet⟩ := ih (Function.update c e.1 (some e.2)) hMem
      exact ⟨v, mem_cons_of_mem e hv, hGet⟩
    · obtain rfl : k = e.1 := (mem_cons.mp h).resolve_right hMem
      refine ⟨e.2, mem_cons_self, ?_⟩
      have hNot : e.1 ∉ keys (puts.map fun e => Op.put e.1 e.2) := by
        simpa [keys, Op.key, comp_def] using hMem
      exact (updateAll_of_notMem _ hNot).trans (update_self ..)

def Functional {κ ν : Type*} (puts : List (κ × ν)) : Prop := ∀ k v v', (k, v) ∈ puts → (k, v') ∈ puts → v = v'

omit [DecidableEq κ] in
theorem functional_of_nodup (h : (puts.map fst).Nodup) : Functional puts := by
  intro k v v' hv hv'
  have hEq : (k, v) = (k, v') := inj_on_of_nodup_map h hv hv' rfl
  exact congrArg snd hEq

theorem updateAll_patch (c : κ → Option ν) (dels : List κ) (hPuts : Functional puts) (k : κ) (v : ν) :
    updateAll c (patch dels puts) k = some v ↔ (k, v) ∈ puts ∨ k ∉ puts.map fst ∧ k ∉ dels ∧ c k = some v := by
  rw [patch, updateAll_append]
  by_cases hMem : k ∈ puts.map fst
  · obtain ⟨v', hv', hGet⟩ := updateAll_puts (updateAll c (dels.map Op.del)) hMem
    rw [hGet, some.injEq]
    constructor
    · rintro rfl
      exact .inl hv'
    · rintro (hv | ⟨hNot, -⟩)
      · exact hPuts k v' v hv' hv
      · exact absurd hMem hNot
  · have hNot : k ∉ keys (puts.map fun e => Op.put e.1 e.2) := by
      simpa [keys, Op.key, comp_def] using hMem
    have hPut : (k, v) ∉ puts := fun h => hMem (mem_map.mpr ⟨(k, v), h, rfl⟩)
    rw [updateAll_of_notMem _ hNot, updateAll_dels]
    simp [hMem, hPut]

end Contents

section Steps

variable [DecidableEq τ] [DecidableEq κ]

structure Coherent (s₀ : Store κ ν) (w : World τ κ ν) : Prop where
  history : w.committed = applyAll s₀ w.log.flatten
  since : ∀ i t, w.active i = some t →
    t.begun ≤ w.log.length ∧ w.committed = applyAll t.snapshot (w.log.drop t.begun).flatten

inductive Stepped (w : World τ κ ν) : Action τ κ ν → World τ κ ν → Prop
  | start (i : τ) : w.active i = none → Stepped w (.start i) (w.set i (some ⟨w.log.length, w.committed, []⟩))
  | write (i : τ) (ops : List (Op κ ν)) (t : Txn κ ν) : w.active i = some t →
      Stepped w (.write i ops) (w.set i (some { t with batches := ops :: t.batches }))
  | undo (i : τ) (n : Nat) (t : Txn κ ν) : w.active i = some t →
      Stepped w (.undo i n) (w.set i (some { t with batches := t.batches.drop n }))
  | refused (i : τ) (t : Txn κ ν) : w.active i = some t → Stepped w (.commit i) (w.set i none)
  | commit (i : τ) (t : Txn κ ν) : w.active i = some t → conflicts w t = false →
      Stepped w (.commit i) ((w.publish t.ops).set i none)
  | abort (i : τ) (t : Txn κ ν) : w.active i = some t → Stepped w (.abort i) (w.set i none)

variable {a : Action τ κ ν}

theorem stepped_of_step {w w' : World τ κ ν} (h : step w a = some w') : Stepped w a w' := by
  cases a with
  | start i =>
    rw [step] at h
    split at h
    · cases h
    · rename_i hNone
      cases h
      exact .start i hNone
  | write i ops =>
    obtain ⟨t, ht, rfl⟩ := map_eq_some_iff.mp h
    exact .write i ops t ht
  | undo i n =>
    obtain ⟨t, ht, rfl⟩ := map_eq_some_iff.mp h
    exact .undo i n t ht
  | commit i =>
    obtain ⟨t, ht, rfl⟩ := map_eq_some_iff.mp h
    split
    · exact .refused i t ht
    · rename_i hFree
      exact .commit i t ht (by simpa using hFree)
  | abort i =>
    obtain ⟨t, ht, rfl⟩ := map_eq_some_iff.mp h
    exact .abort i t ht

variable {w : World τ κ ν}

omit [DecidableEq κ] in
theorem active_set {i j : τ} {t : Option (Txn κ ν)} {u : Txn κ ν} (h : (w.set i t).active j = some u) :
    j = i ∧ t = some u ∨ j ≠ i ∧ w.active j = some u := by
  obtain rfl | hNe := eq_or_ne j i
  · simp only [World.set, update_self] at h
    exact .inl ⟨rfl, h⟩
  · simp only [World.set, Function.update_of_ne hNe] at h
    exact .inr ⟨hNe, h⟩

omit [DecidableEq κ] in
theorem active_set_none {i j : τ} {u : Txn κ ν} (h : (w.set i none).active j = some u) : j ≠ i ∧ w.active j = some u :=
  (active_set h).resolve_left fun hEq => by cases hEq.2

theorem committed_of_step {w w' : World τ κ ν} (h : step w a = some w') :
    (w'.committed = w.committed ∧ w'.log = w.log) ∨ ∃ i t, a = .commit i ∧ w.active i = some t ∧
      conflicts w t = false ∧ w'.committed = applyAll w.committed t.ops ∧ w'.log = w.log ++ [t.ops] := by
  cases stepped_of_step h with
  | commit i t ht hFree => exact .inr ⟨i, t, rfl, ht, hFree, rfl, rfl⟩
  | start i _ | write i ops t _ | undo i n t _ | refused i t _ | abort i t _ => exact .inl ⟨rfl, rfl⟩

def Views {τ κ ν : Type*} (P : Store κ ν → List (Op κ ν) → Prop) (w : World τ κ ν) : Prop :=
  ∀ i t, w.active i = some t → ∀ bs, bs <:+ t.batches → P t.snapshot (opsOf bs)

variable {t : Txn κ ν}

omit [DecidableEq τ] [DecidableEq κ] in
theorem Views.ops {P : Store κ ν → List (Op κ ν) → Prop} (h : Views P w) {i : τ} (ht : w.active i = some t) :
    P t.snapshot t.ops :=
  h i t ht t.batches suffix_rfl

theorem Views.step {P : Store κ ν → List (Op κ ν) → Prop} {w w' : World τ κ ν} (h : Views P w)
    (hStart : P w.committed [])
    (hWrite : ∀ i ops t, a = .write i ops → w.active i = some t → P t.snapshot (t.ops ++ ops))
    (hStep : step w a = some w') : Views P w' := by
  intro j u hu bs hbs
  cases stepped_of_step hStep with
  | start i _ =>
    obtain ⟨-, hEq⟩ | ⟨-, hu⟩ := active_set hu
    · cases hEq
      rw [suffix_nil.mp hbs]
      exact hStart
    · exact h j u hu bs hbs
  | write i ops t ht =>
    obtain ⟨-, hEq⟩ | ⟨-, hu⟩ := active_set hu
    · cases hEq
      obtain rfl | hbs := suffix_cons_iff.mp hbs
      · rw [opsOf_cons]
        exact hWrite i ops t rfl ht
      · exact h i t ht bs hbs
    · exact h j u hu bs hbs
  | undo i n t ht =>
    obtain ⟨-, hEq⟩ | ⟨-, hu⟩ := active_set hu
    · cases hEq
      exact h i t ht bs (hbs.trans (drop_suffix n t.batches))
    · exact h j u hu bs hbs
  | refused i t _ | abort i t _ | commit i t _ _ => exact h j u (active_set_none hu).2 bs hbs

def World.Holds {τ κ ν : Type*} [DecidableEq κ] (w : World τ κ ν) (k : κ) (v : ν) : Prop :=
  w.committed.get k = some v ∨ ∃ i t, w.active i = some t ∧ (t.snapshot.get k = some v ∨ .put k v ∈ t.ops)

omit [DecidableEq τ] in
theorem holds_of_view {i : τ} (ht : w.active i = some t) {k : κ} {v : ν} (h : t.view.get k = some v) : w.Holds k v := by
  rw [Txn.view, get_applyAll] at h
  exact .inr ⟨i, t, ht, updateAll_origin h⟩

theorem holds_of_step {w w' : World τ κ ν} (hStep : step w a = some w') {k : κ} {v : ν} (h : w'.Holds k v) :
    w.Holds k v ∨ ∃ i ops, a = .write i ops ∧ .put k v ∈ ops := by
  obtain hCommitted | ⟨j, u, hu, hIn⟩ := h
  · obtain ⟨hSame, -⟩ | ⟨i, t, -, ht, -, hPublished, -⟩ := committed_of_step hStep
    · exact .inl (.inl (hSame ▸ hCommitted))
    · rw [hPublished, get_applyAll] at hCommitted
      obtain hOld | hPut := updateAll_origin hCommitted
      · exact .inl (.inl hOld)
      · exact .inl (.inr ⟨i, t, ht, .inr hPut⟩)
  · cases stepped_of_step hStep with
    | start i _ =>
      obtain ⟨-, hEq⟩ | ⟨-, hu⟩ := active_set hu
      · cases hEq
        obtain hSnapshot | hPut := hIn
        · exact .inl (.inl hSnapshot)
        · cases hPut
      · exact .inl (.inr ⟨j, u, hu, hIn⟩)
    | write i ops t ht =>
      obtain ⟨-, hEq⟩ | ⟨-, hu⟩ := active_set hu
      · cases hEq
        obtain hSnapshot | hPut := hIn
        · exact .inl (.inr ⟨i, t, ht, .inl hSnapshot⟩)
        · rw [Txn.ops, opsOf_cons, mem_append] at hPut
          obtain hPut | hPut := hPut
          · exact .inl (.inr ⟨i, t, ht, .inr hPut⟩)
          · exact .inr ⟨i, ops, rfl, hPut⟩
      · exact .inl (.inr ⟨j, u, hu, hIn⟩)
    | undo i n t ht =>
      obtain ⟨-, hEq⟩ | ⟨-, hu⟩ := active_set hu
      · cases hEq
        obtain hSnapshot | hPut := hIn
        · exact .inl (.inr ⟨i, t, ht, .inl hSnapshot⟩)
        · obtain ⟨b, hb, hPut⟩ := mem_opsOf.mp hPut
          exact .inl (.inr ⟨i, t, ht, .inr (mem_opsOf.mpr ⟨b, mem_of_mem_drop hb, hPut⟩)⟩)
      · exact .inl (.inr ⟨j, u, hu, hIn⟩)
    | refused i t _ | abort i t _ | commit i t _ _ => exact .inl (.inr ⟨j, u, (active_set_none hu).2, hIn⟩)

omit [DecidableEq τ] in
theorem coherent_init (s : Store κ ν) : Coherent s (init s : World τ κ ν) :=
  ⟨rfl, fun _ _ h => by cases h⟩

variable {s₀ : Store κ ν}

theorem Coherent.set (h : Coherent s₀ w) (i : τ) {t : Option (Txn κ ν)}
    (ht : ∀ u, t = some u → u.begun ≤ w.log.length ∧ w.committed = applyAll u.snapshot (w.log.drop u.begun).flatten) :
    Coherent s₀ (w.set i t) := by
  refine ⟨h.history, fun j u hu => ?_⟩
  obtain ⟨-, hEq⟩ | ⟨-, hu⟩ := active_set hu
  · exact ht u hEq
  · exact h.since j u hu

omit [DecidableEq τ] in
theorem Coherent.publish (h : Coherent s₀ w) (ops : List (Op κ ν)) : Coherent s₀ (w.publish ops) := by
  refine ⟨?_, fun j u hu => ?_⟩
  · simp [World.publish, applyAll_append, ← h.history]
  · obtain ⟨hBegun, hSince⟩ := h.since j u hu
    refine ⟨Nat.le_trans hBegun (by simp [World.publish]), ?_⟩
    simp [World.publish, drop_append_of_le_length hBegun, applyAll_append, ← hSince]

theorem Coherent.step {w w' : World τ κ ν} (h : Coherent s₀ w) (hStep : step w a = some w') : Coherent s₀ w' := by
  cases stepped_of_step hStep with
  | start i _ =>
    refine h.set i fun u hu => ?_
    cases hu
    refine ⟨Nat.le_refl _, ?_⟩
    rw [drop_length]
    rfl
  | write i ops t ht | undo i n t ht =>
    refine h.set i fun u hu => ?_
    cases hu
    exact h.since i t ht
  | refused i t _ | abort i t _ => exact h.set i fun _ hu => by cases hu
  | commit i t _ _ => exact (h.publish t.ops).set i fun _ hu => by cases hu

omit [DecidableEq τ] in
theorem key_notMem_of_free (hFree : conflicts w t = false) {ops : List (Op κ ν)} (hOps : ops ∈ w.log.drop t.begun)
    {o : Op κ ν} (ho : o ∈ ops) : o.key ∉ keys t.ops := by
  intro hMem
  have hConflict : conflicts w t = true :=
    any_eq_true.mpr ⟨ops, hOps, any_eq_true.mpr ⟨o, ho, decide_eq_true hMem⟩⟩
  rw [hFree] at hConflict
  cases hConflict

omit [DecidableEq τ] in
theorem Coherent.unchanged (h : Coherent s₀ w) {i : τ} (ht : w.active i = some t) {k : κ}
    (hNone : ∀ ops ∈ w.log.drop t.begun, ∀ o ∈ ops, o.key ≠ k) : w.committed.get k = t.snapshot.get k := by
  rw [(h.since i t ht).2, get_applyAll]
  refine updateAll_of_notMem _ fun hMem => ?_
  obtain ⟨o, ho, hKey⟩ := mem_map.mp hMem
  obtain ⟨ops, hOps, hIn⟩ := mem_flatten.mp ho
  exact hNone ops hOps o hIn hKey

end Steps

section Groups

variable (group : κ → γ) (anchor : γ → κ) (Good : γ → (κ → Option ν) → Prop)

def Anchored (ops : List (Op κ ν)) : Prop := ∀ o ∈ ops, anchor (group o.key) ∈ keys ops

def Local : Prop := ∀ g c c', (∀ k, group k = g → c k = c' k) → Good g c → Good g c'

variable [DecidableEq κ]

structure Kept (s₀ : Store κ ν) (w : World τ κ ν) : Prop where
  coherent : Coherent s₀ w
  logged : ∀ ops ∈ w.log, Anchored group anchor ops
  anchored : Views (fun _ ops => Anchored group anchor ops) w
  committed : ∀ g, Good g w.committed.get
  views : Views (fun s ops => ∀ g, Good g (applyAll s ops).get) w

def WriteGood (w : World τ κ ν) (a : Action τ κ ν) : Prop :=
  ∀ i ops, a = .write i ops → Anchored group anchor ops ∧
    ∀ t, w.active i = some t → ∀ g, Good g (updateAll t.view.get ops)

variable {group anchor Good} {s₀ : Store κ ν} {w : World τ κ ν}

omit [DecidableEq κ] in
theorem Anchored.append {ops ops' : List (Op κ ν)} (h : Anchored group anchor ops) (h' : Anchored group anchor ops') :
    Anchored group anchor (ops ++ ops') := by
  intro o ho
  rw [keys, map_append, mem_append]
  exact (mem_append.mp ho).imp (h o) (h' o)

theorem Anchored.unchanged {ops : List (Op κ ν)} (h : Anchored group anchor ops) (c : κ → Option ν) {g : γ}
    (hAnchor : anchor g ∉ keys ops) {k : κ} (hk : group k = g) : updateAll c ops k = c k := by
  refine updateAll_of_notMem c fun hMem => hAnchor ?_
  obtain ⟨o, ho, rfl⟩ := mem_map.mp hMem
  exact hk ▸ h o ho

variable {t : Txn κ ν}

section

variable (h : Kept group anchor Good s₀ w)
include h

theorem Kept.view {i : τ} (ht : w.active i = some t) (g : γ) : Good g t.view.get :=
  h.views.ops ht g

theorem Kept.shows {s : Store κ ν} (hs : w.Shows s) (g : γ) : Good g s.get := by
  obtain rfl | ⟨i, t, ht, rfl⟩ := hs
  · exact h.committed g
  · exact h.view ht g

theorem Kept.unchanged {i : τ} (ht : w.active i = some t) (hFree : conflicts w t = false) {o : Op κ ν}
    (ho : o ∈ t.ops) {k : κ} (hk : group k = group o.key) : w.committed.get k = t.snapshot.get k := by
  refine h.coherent.unchanged ht fun ops hOps o' ho' hKey => ?_
  obtain ⟨x, hx, hAnchor⟩ := mem_map.mp (h.logged ops (mem_of_mem_drop hOps) o' ho')
  refine key_notMem_of_free hFree hOps hx ?_
  rw [hAnchor, hKey, hk]
  exact h.anchored.ops ht o ho

theorem Kept.publish (hLocal : Local group Good) {i : τ} (ht : w.active i = some t) (hFree : conflicts w t = false)
    (g : γ) : Good g (applyAll w.committed t.ops).get := by
  rw [get_applyAll]
  by_cases hTouched : ∃ o ∈ t.ops, group o.key = g
  · obtain ⟨o, ho, hg⟩ := hTouched
    refine hLocal g _ _ (fun k hk => ?_) (h.view ht g)
    rw [Txn.view, get_applyAll]
    exact updateAll_congr (h.unchanged ht hFree ho (hk.trans hg.symm)).symm t.ops
  · refine hLocal g _ _ (fun k hk => ?_) (h.committed g)
    refine (updateAll_of_notMem _ fun hMem => hTouched ?_).symm
    obtain ⟨o, ho, rfl⟩ := mem_map.mp hMem
    exact ⟨o, ho, hk⟩

end

theorem kept_init (hGood : ∀ g, Good g s₀.get) : Kept group anchor Good s₀ (init s₀ : World τ κ ν) where
  coherent := coherent_init s₀
  logged _ h := by cases h
  anchored _ _ h := by cases h
  committed := hGood
  views _ _ h := by cases h

variable [DecidableEq τ]

theorem Kept.step {w' : World τ κ ν} {a : Action τ κ ν} (h : Kept group anchor Good s₀ w) (hLocal : Local group Good)
    (hWrite : WriteGood group anchor Good w a) (hStep : step w a = some w') : Kept group anchor Good s₀ w' where
  coherent := h.coherent.step hStep
  logged := by
    obtain ⟨-, hLog⟩ | ⟨i, t, -, ht, -, -, hLog⟩ := committed_of_step hStep
    · exact hLog ▸ h.logged
    · intro ops hOps
      rw [hLog, mem_append] at hOps
      obtain hOps | hOps := hOps
      · exact h.logged ops hOps
      · rw [mem_singleton.mp hOps]
        exact h.anchored.ops ht
  anchored := by
    refine h.anchored.step (fun _ ho => by cases ho) (fun i ops t hEq ht => ?_) hStep
    exact (h.anchored.ops ht).append (hWrite i ops hEq).1
  committed := by
    obtain ⟨hSame, -⟩ | ⟨i, t, -, ht, hFree, hPublished, -⟩ := committed_of_step hStep
    · exact hSame ▸ h.committed
    · exact hPublished ▸ h.publish hLocal ht hFree
  views := by
    refine h.views.step h.committed (fun i ops t hEq ht g => ?_) hStep
    rw [applyAll_append, get_applyAll]
    exact (hWrite i ops hEq).2 t ht g

end Groups

section Map

variable {τ κ ν μ : Type*}

def Op.map (f : ν → μ) : Op κ ν → Op κ μ
  | .put k v => .put k (f v)
  | .del k => .del k

def Txn.map (f : ν → μ) (t : Txn κ ν) : Txn κ μ where
  begun := t.begun
  snapshot := t.snapshot.mapValues fun _ => f
  batches := t.batches.map (List.map (Op.map f))

def World.map (f : ν → μ) (w : World τ κ ν) : World τ κ μ where
  committed := w.committed.mapValues fun _ => f
  log := w.log.map (List.map (Op.map f))
  active i := (w.active i).map (Txn.map f)

def Action.map (f : ν → μ) : Action τ κ ν → Action τ κ μ
  | .start i => .start i
  | .write i ops => .write i (ops.map (Op.map f))
  | .undo i n => .undo i n
  | .commit i => .commit i
  | .abort i => .abort i

variable (f : ν → μ)

theorem Op.key_map (o : Op κ ν) : (o.map f).key = o.key := by
  cases o <;> rfl

theorem keys_map (ops : List (Op κ ν)) : keys (ops.map (Op.map f)) = keys ops := by
  rw [keys, List.map_map, keys]
  exact map_congr_left fun o _ => Op.key_map f o

theorem map_map_of_leftInverse {g : μ → ν} (h : LeftInverse g f) (w : World τ κ ν) : (w.map f).map g = w := by
  have hOps : (Op.map g ∘ Op.map f : Op κ ν → Op κ ν) = id := by
    funext o
    cases o with
    | put k v => exact congrArg (Op.put k) (h v)
    | del k => rfl
  have hBatches (l : List (List (Op κ ν))) : (l.map (List.map (Op.map f))).map (List.map (Op.map g)) = l := by
    rw [List.map_map, List.map_comp_map, hOps, List.map_id_fun, List.map_id]
  have hStore (s : Store κ ν) : (s.mapValues fun _ => f).mapValues (fun _ => g) = s := by
    obtain ⟨entries, hNodup⟩ := s
    simp [Store.mapValues, comp_def, h _]
  have hTxn (t : Txn κ ν) : (t.map f).map g = t := by
    simp only [Txn.map, hStore, hBatches]
  obtain ⟨committed, log, active⟩ := w
  have hActive (i : τ) : ((active i).map (Txn.map f)).map (Txn.map g) = active i := by
    cases active i with
    | none => rfl
    | some t => exact congrArg some (hTxn t)
  simp only [World.map, hStore, hBatches, hActive]

theorem ops_map (t : Txn κ ν) : (t.map f).ops = t.ops.map (Op.map f) := by
  rw [Txn.ops, Txn.ops, opsOf, opsOf, Txn.map, map_flatten, map_reverse]

section

variable [DecidableEq τ]

theorem set_map (w : World τ κ ν) (i : τ) (t : Option (Txn κ ν)) :
    (w.map f).set i (t.map (Txn.map f)) = (w.set i t).map f := by
  have hActive : update (fun j => (w.active j).map (Txn.map f)) i (t.map (Txn.map f)) =
      fun j => (update w.active i t j).map (Txn.map f) := by
    funext j
    obtain rfl | hNe := eq_or_ne j i
    · rw [update_self, update_self]
    · rw [update_of_ne hNe, update_of_ne hNe]
  simp only [World.set, World.map, hActive]

end

variable [DecidableEq κ]

theorem applyAll_map (s : Store κ ν) (ops : List (Op κ ν)) :
    applyAll (s.mapValues fun _ => f) (ops.map (Op.map f)) = (applyAll s ops).mapValues fun _ => f := by
  induction ops generalizing s with
  | nil => rfl
  | cons o ops ih =>
    have hApply : (o.map f).apply (s.mapValues fun _ => f) = (o.apply s).mapValues fun _ => f := by
      cases o with
      | put k v => exact (Store.mapValues_put (fun _ => f) s k v).symm
      | del k => exact (Store.mapValues_drop (fun _ => f) s k).symm
    rw [applyAll, map_cons, foldl_cons, hApply]
    exact ih _

theorem view_map (t : Txn κ ν) : (t.map f).view = t.view.mapValues fun _ => f := by
  rw [Txn.view, ops_map, Txn.view]
  exact applyAll_map ..

theorem conflicts_map (w : World τ κ ν) (t : Txn κ ν) : conflicts (w.map f) (t.map f) = conflicts w t := by
  have hLog : (w.map f).log.drop t.begun = (w.log.drop t.begun).map (List.map (Op.map f)) := map_drop.symm
  have hBegun : (t.map f).begun = t.begun := rfl
  simp only [conflicts, hBegun, hLog, ops_map, keys_map, List.any_map, comp_def, Op.key_map]

theorem publish_map (w : World τ κ ν) (ops : List (Op κ ν)) :
    (w.map f).publish (ops.map (Op.map f)) = (w.publish ops).map f := by
  simp only [World.publish, World.map, applyAll_map, map_append, map_cons, map_nil]

variable [DecidableEq τ]

theorem step_map (w : World τ κ ν) (a : Action τ κ ν) : step (w.map f) (a.map f) = (step w a).map (World.map f) := by
  have hActive (i : τ) : (w.map f).active i = (w.active i).map (Txn.map f) := rfl
  cases a with
  | start i =>
    rw [Action.map, step, step, hActive]
    cases w.active i with
    | none =>
      have hLength : (w.map f).log.length = w.log.length := length_map _
      rw [hLength]
      exact congrArg some (set_map f w i (some ⟨w.log.length, w.committed, []⟩))
    | some t => rfl
  | write i ops =>
    rw [Action.map, step, step, hActive]
    cases w.active i with
    | none => rfl
    | some t => exact congrArg some (set_map f w i (some { t with batches := ops :: t.batches }))
  | undo i n =>
    rw [Action.map, step, step, hActive]
    cases w.active i with
    | none => rfl
    | some t =>
      have hDrop : (t.map f).batches.drop n = (t.batches.drop n).map (List.map (Op.map f)) := map_drop.symm
      rw [Option.map_some, Option.map_some, hDrop]
      exact congrArg some (set_map f w i (some { t with batches := t.batches.drop n }))
  | commit i =>
    rw [Action.map, step, step, hActive]
    cases w.active i with
    | none => rfl
    | some t =>
      simp only [Option.map_some, conflicts_map]
      split
      · exact congrArg some (set_map f w i none)
      · rw [ops_map, publish_map]
        exact congrArg some (set_map f _ i none)
  | abort i =>
    rw [Action.map, step, step, hActive]
    cases w.active i with
    | none => rfl
    | some t => exact congrArg some (set_map f w i none)

omit [DecidableEq τ] in
theorem shows_map {w : World τ κ ν} {s : Store κ μ} (h : (w.map f).Shows s) :
    ∃ s', w.Shows s' ∧ s = s'.mapValues fun _ => f := by
  obtain rfl | ⟨i, t, ht, rfl⟩ := h
  · exact ⟨w.committed, .inl rfl, rfl⟩
  · obtain ⟨t', ht', rfl⟩ := Option.map_eq_some_iff.mp ht
    exact ⟨t'.view, .inr ⟨i, t', ht', rfl⟩, view_map f t'⟩

end Map

end Lib.Snapshot
