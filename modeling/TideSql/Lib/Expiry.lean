import TideSql.Lib.Snapshot

/-!
# Stores whose entries expire

Every entry is put with a duration to live or none, and is hidden once that has
elapsed. Puts and deletes act on what is visible as they would without expiry.
-/

namespace Lib.Expiry
open Snapshot List Option

structure Cell (ν : Type*) where
  value : ν
  deadline : Option Nat

section Cells

variable {ν : Type*}

def Cell.live (now : Nat) (c : Cell ν) : Bool := c.deadline.all fun d => decide (now < d)

def expiresAt (now : Nat) (ttl : Option Nat) : Option Nat := ttl.map (now + ·)

theorem Cell.live_congr {c c' : Cell ν} (h : c.deadline = c'.deadline) (now : Nat) : c.live now = c'.live now := by
  rw [live, live, h]

theorem Cell.live_of_later {c : Cell ν} {now now' : Nat} (hLe : now ≤ now') (h : c.live now' = true) :
    c.live now = true := by
  rw [live] at h ⊢
  cases hDeadline : c.deadline with
  | none => rfl
  | some d =>
    rw [hDeadline, all_some, decide_eq_true_eq] at h
    rw [all_some, decide_eq_true_eq]
    omega

theorem live_expiresAt {now : Nat} {ttl : Option Nat} (h : ttl ≠ some 0) (v : ν) :
    Cell.live now ⟨v, expiresAt now ttl⟩ = true := by
  cases ttl with
  | none => rfl
  | some n =>
    have hPos : n ≠ 0 := fun hZero => h (congrArg some hZero)
    simp only [Cell.live, expiresAt, map_some, all_some, decide_eq_true_eq]
    omega

end Cells

section Stores

variable {κ ν : Type*} [DecidableEq κ]

def seen {κ ν : Type*} (now : Nat) (e : κ × Cell ν) : Option (κ × ν) :=
  if e.2.live now then some (e.1, e.2.value) else none

theorem keys_seen_sublist {κ ν : Type*} (now : Nat) (l : List (κ × Cell ν)) :
    ((l.filterMap (seen now)).map Prod.fst).Sublist (l.map Prod.fst) := by
  induction l with
  | nil => exact Sublist.slnil
  | cons e l ih =>
    by_cases hLive : e.2.live now = true
    · have hSeen : seen now e = some (e.1, e.2.value) := if_pos hLive
      rw [filterMap_cons_some hSeen]
      exact ih.cons_cons _
    · have hSeen : seen now e = none := if_neg hLive
      rw [filterMap_cons_none hSeen]
      exact ih.cons _

def visible {κ ν : Type*} (now : Nat) (s : Store κ (Cell ν)) : Store κ ν where
  entries := s.entries.filterMap (seen now)
  nodup := s.nodup.sublist (keys_seen_sublist now s.entries)

variable {s : Store κ (Cell ν)} {k : κ}

theorem get_visible_iff {now : Nat} {v : ν} :
    (visible now s).get k = some v ↔ ∃ c, s.get k = some c ∧ c.live now = true ∧ c.value = v := by
  rw [← Store.mem_entries_iff, visible, mem_filterMap]
  constructor
  · rintro ⟨⟨k', c⟩, hMem, hSeen⟩
    rw [seen] at hSeen
    split at hSeen
    · rename_i hLive
      cases hSeen
      exact ⟨c, (Store.mem_entries_iff ..).mp hMem, hLive, rfl⟩
    · cases hSeen
  · rintro ⟨c, hGet, hLive, rfl⟩
    exact ⟨(k, c), (Store.mem_entries_iff ..).mpr hGet, if_pos hLive⟩

theorem get_visible (now : Nat) (s : Store κ (Cell ν)) (k : κ) :
    (visible now s).get k = (s.get k).bind fun c => if c.live now then some c.value else none := by
  refine Option.ext fun v => ?_
  rw [get_visible_iff, bind_eq_some_iff]
  refine exists_congr fun c => and_congr_right fun _ => ?_
  split
  · rename_i hLive
    rw [some.injEq, and_iff_right hLive]
  · rename_i hDead
    exact ⟨fun h => absurd h.1 hDead, fun h => by cases h⟩

theorem get_visible_of_later {now now' : Nat} (hLe : now ≤ now') {v : ν} (h : (visible now' s).get k = some v) :
    (visible now s).get k = some v := by
  obtain ⟨c, hGet, hLive, hValue⟩ := get_visible_iff.mp h
  exact get_visible_iff.mpr ⟨c, hGet, Cell.live_of_later hLe hLive, hValue⟩

def write (now : Nat) (ttl : Option Nat) (s : Store κ (Cell ν)) : Op κ ν → Store κ (Cell ν)
  | .put k v => s.put k ⟨v, expiresAt now ttl⟩
  | .del k => s.drop k

def writeAll (now : Nat) (ttl : Option Nat) (s : Store κ (Cell ν)) (ops : List (Op κ ν)) : Store κ (Cell ν) :=
  ops.foldl (write now ttl) s

section

variable (now : Nat) (ttl : Option Nat) (s : Store κ (Cell ν))

theorem writeAll_cons (o : Op κ ν) (ops : List (Op κ ν)) :
    writeAll now ttl s (o :: ops) = writeAll now ttl (write now ttl s o) ops := rfl

theorem get_write_of_ne {o : Op κ ν} (h : k ≠ o.key) : (write now ttl s o).get k = s.get k := by
  cases o with
  | put k' v => exact (Store.get_put ..).trans (if_neg h)
  | del k' => exact (Store.get_drop ..).trans (if_neg h)

theorem get_writeAll_of_notMem {ops : List (Op κ ν)} (h : k ∉ Snapshot.keys ops) :
    (writeAll now ttl s ops).get k = s.get k := by
  induction ops generalizing s with
  | nil => rfl
  | cons o ops ih =>
    rw [Snapshot.keys, map_cons, mem_cons, not_or] at h
    rw [writeAll_cons, ih _ h.2, get_write_of_ne now ttl s h.1]

end

variable {ttl : Option Nat}

theorem deadline_of_mem {now : Nat} {ops : List (Op κ ν)} {c : Cell ν} (hMem : k ∈ Snapshot.keys ops)
    (h : (writeAll now ttl s ops).get k = some c) : c.deadline = expiresAt now ttl := by
  induction ops generalizing s with
  | nil => cases hMem
  | cons o ops ih =>
    rw [writeAll_cons] at h
    by_cases hRest : k ∈ Snapshot.keys ops
    · exact ih hRest h
    · rw [get_writeAll_of_notMem now ttl _ hRest] at h
      obtain rfl := (List.mem_cons.mp hMem).resolve_right hRest
      cases o with
      | put k' v =>
        cases h.symm.trans ((Store.get_put ..).trans (if_pos rfl))
        rfl
      | del k' => cases h.symm.trans ((Store.get_drop ..).trans (if_pos rfl))

section

variable (hTtl : ttl ≠ some 0) (now : Nat) (s : Store κ (Cell ν))
include hTtl

theorem visible_write (o : Op κ ν) : (visible now (write now ttl s o)).get = o.update (visible now s).get := by
  funext k
  obtain rfl | hNe := eq_or_ne k o.key
  · cases o with
    | put k v =>
      rw [get_visible, write, Op.key, Store.get_put, if_pos rfl, bind_some, if_pos (live_expiresAt hTtl v),
        Op.update_put_self]
    | del k => rw [get_visible, write, Op.key, Store.get_drop, if_pos rfl, bind_none, Op.update_del_self]
  · rw [get_visible, get_write_of_ne now ttl s hNe, Op.update_of_ne _ hNe, get_visible]

theorem visible_writeAll (ops : List (Op κ ν)) :
    (visible now (writeAll now ttl s ops)).get = updateAll (visible now s).get ops := by
  induction ops generalizing s with
  | nil => rfl
  | cons o ops ih => rw [writeAll_cons, ih, visible_write hTtl, updateAll_cons]

end

/-- The content of an entry that never expires. -/
def everlasting {ν : Type*} (v : ν) : Cell ν := ⟨v, none⟩

/-- A put takes its deadline when it is made, in a transaction as in the store. -/
def stamp {κ ν : Type*} (now : Nat) (ttl : Option Nat) : Op κ ν → Op κ (Cell ν) :=
  Op.map fun v => ⟨v, expiresAt now ttl⟩

theorem visible_everlasting {κ ν : Type*} (now : Nat) (s : Store κ ν) :
    visible now (s.mapValues fun _ => everlasting) = s := by
  obtain ⟨entries, hNodup⟩ := s
  have hSeen : (seen now ∘ fun e : κ × ν => (e.1, everlasting e.2)) = some := rfl
  simp only [visible, Store.mapValues, filterMap_map, hSeen, filterMap_some]

end Stores

end Lib.Expiry
