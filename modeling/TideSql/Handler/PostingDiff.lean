import TideSql.Handler.IndexExact

/-!
# Postings that are updated by their differences

The terms of the old and the new text are compared whole, while the key of a posting has only the first bytes of its
term.
-/

namespace TideSql.PostingDiff
open SortKey Dml Lib Lib.Bytes Lib.Snapshot
open List hiding keys

variable {ι : Type} {u : Update ι} {old new tokens : List Bytes} {oldTf newTf : List (Bytes × UInt16)} {pk : Bytes}

theorem ftsBuildKey_eq_iff {t t' : Bytes} :
    ftsBuildKey t pk = ftsBuildKey t' pk ↔ t.take ftsMaxTermBytes = t'.take ftsMaxTermBytes := by
  have hStored (t : Bytes) : ftsBuildKey t pk = ftsBuildKey (t.take ftsMaxTermBytes) pk := by
    simp [ftsBuildKey, Nat.min_comm]
  constructor
  · intro h
    rw [hStored t, hStored t'] at h
    exact (ftsBuildKey_inj (length_take_le ..) (length_take_le ..) h).1
  · intro h
    rw [hStored t, h, ← hStored]

theorem ftsBuildValue_inj {n n' : UInt16} {wc : UInt32} (h : ftsBuildValue n wc = ftsBuildValue n' wc) : n = n' := by
  have hEq := congrArg ofLE (append_cancel_right h)
  rw [ofLE_toLE, ofLE_toLE] at hEq
  exact UInt16.toNat_inj.mp (((Nat.mod_eq_of_lt n.toNat_lt).symm.trans hEq).trans (Nat.mod_eq_of_lt n'.toNat_lt))

theorem pair_mem_tfMap {t : Bytes} (ht : t ∈ tokens) : (t, UInt16.ofNat (tokens.count t)) ∈ tfMap tokens :=
  mem_tfMap.mpr ⟨ht, rfl⟩

section Operations

variable (c : Bytes → Option (Val ι)) (l : List (Bytes × UInt16)) (pk key : Bytes) (wc : UInt32)

theorem updateAll_postings : (∃ kv ∈ l, ftsBuildKey kv.1 pk = key ∧
      updateAll c (l.map (putFtsEntry pk wc)) key = some (.bytes (ftsBuildValue kv.2 wc))) ∨
    (∀ kv ∈ l, ftsBuildKey kv.1 pk ≠ key) ∧ updateAll c (l.map (putFtsEntry pk wc)) key = c key := by
  by_cases hMem : ∃ kv ∈ l, ftsBuildKey kv.1 pk = key
  · have hKey : key ∈ (l.map fun kv => (ftsBuildKey kv.1 pk, Val.bytes (ι := ι) (ftsBuildValue kv.2 wc))).map
        Prod.fst := by simpa using hMem
    obtain ⟨v, hv, hGet⟩ := updateAll_puts c hKey
    obtain ⟨kv, hkv, hEq⟩ := mem_map.mp hv
    cases hEq
    rw [map_map] at hGet
    exact .inl ⟨kv, hkv, rfl, hGet⟩
  · refine .inr ⟨fun kv hkv hKey => hMem ⟨kv, hkv, hKey⟩, updateAll_of_notMem c fun hKey => hMem ?_⟩
    simpa [keys, putFtsEntry, Op.key] using hKey

theorem updateAll_dels_map :
    updateAll c (l.map (delFtsEntry pk)) key = if ∃ kv ∈ l, ftsBuildKey kv.1 pk = key then none else c key := by
  have hDels := updateAll_dels c (l.map fun kv => ftsBuildKey kv.1 pk) key
  rw [map_map] at hDels
  simp only [mem_map] at hDels
  exact hDels

theorem exists_order {t : Bytes} (ht : t ∈ tokens) :
    ∃ tf, tf ~ tfMap tokens ∧ updateAll c (tf.map (putFtsEntry pk wc)) (ftsBuildKey t pk) =
      some (.bytes (ftsBuildValue (UInt16.ofNat (tokens.count t)) wc)) := by
  refine ⟨_, (perm_append_singleton ..).trans (perm_cons_erase (pair_mem_tfMap ht)).symm, ?_⟩
  rw [map_append, updateAll_append]
  exact Op.update_put_self ..

end Operations

/-- Whatever the orders of the maps, the differences leave what a delete of every old posting and an insert of every
new one leave. -/
def DiffExact (u : Update ι) (old new : List Bytes) : Prop :=
  ∀ base oldTf newTf oldTf' newTf', oldTf ~ tfMap old → newTf ~ tfMap new → oldTf' ~ tfMap old → newTf' ~ tfMap new →
    let before := updateAll base (oldTf'.map (putFtsEntry u.oldPk (UInt32.ofNat old.length)))
    updateAll before (updateFtsIndexDiff u oldTf newTf (UInt32.ofNat new.length)
        (UInt32.ofNat old.length ≠ UInt32.ofNat new.length)) =
      updateAll before
        (oldTf'.map (delFtsEntry u.oldPk) ++ newTf'.map (putFtsEntry u.newPk (UInt32.ofNat new.length)))

/-- The new terms under one key have one count, and the key of a term that is gone is written if a new term has it. -/
structure Apart (old new : List Bytes) : Prop where
  count {t w : Bytes} : t ∈ new → w ∈ new → w.take ftsMaxTermBytes = t.take ftsMaxTermBytes →
    UInt16.ofNat (new.count w) = UInt16.ofNat (new.count t)
  kept {t o : Bytes} : t ∈ new → o ∈ old → o ∉ new → o.take ftsMaxTermBytes = t.take ftsMaxTermBytes →
    ∃ w ∈ new, w.take ftsMaxTermBytes = t.take ftsMaxTermBytes ∧ Rewritten old new w

def gone (oldTf newTf : List (Bytes × UInt16)) : List (Bytes × UInt16) :=
  oldTf.filter fun kv => (newTf.find? fun n => n.1 = kv.1).isNone

def written (old new : List Bytes) (oldTf newTf : List (Bytes × UInt16)) : List (Bytes × UInt16) :=
  newTf.filter fun kv =>
    match oldTf.find? fun o => o.1 = kv.1 with
    | none => true
    | some o => decide (UInt32.ofNat old.length ≠ UInt32.ofNat new.length) || o.2 ≠ kv.2

theorem updateFtsIndexDiff_split (u : Update ι) (old new : List Bytes) (oldTf newTf : List (Bytes × UInt16)) :
    updateFtsIndexDiff u oldTf newTf (UInt32.ofNat new.length) (UInt32.ofNat old.length ≠ UInt32.ofNat new.length) =
      (gone oldTf newTf).map (delFtsEntry u.oldPk) ++
        (written old new oldTf newTf).map (putFtsEntry u.newPk (UInt32.ofNat new.length)) := rfl

section Orders

variable (hOld : oldTf ~ tfMap old) (hNew : newTf ~ tfMap new)
include hOld hNew

theorem mem_gone {kv : Bytes × UInt16} : kv ∈ gone oldTf newTf ↔ kv ∈ tfMap old ∧ kv.1 ∉ new := by
  rw [gone, mem_filter, isNone_find_tfMap hNew, hOld.mem_iff]

theorem mem_written {kv : Bytes × UInt16} :
    kv ∈ written old new oldTf newTf ↔ kv ∈ tfMap new ∧ Rewritten old new kv.1 := by
  rw [written, mem_filter, hNew.mem_iff]
  refine and_congr_right fun hkv => ?_
  rw [(mem_tfMap.mp hkv).2]
  exact needPut_iff hOld kv.1

end Orders

theorem not_rewritten {t : Bytes} (h : ¬Rewritten old new t) :
    t ∈ old ∧ UInt32.ofNat old.length = UInt32.ofNat new.length ∧
      UInt16.ofNat (old.count t) = UInt16.ofNat (new.count t) := by
  simpa [Rewritten] using h

theorem Apart.diffExact (h : Apart old new) (hPk : u.oldPk = u.newPk) : DiffExact u old new := by
  intro base oldTf newTf oldTf' newTf' hOld hNew hOld' hNew' before
  funext key
  rw [updateFtsIndexDiff_split, updateAll_append, updateAll_append, hPk]
  obtain ⟨w, hw, hwKey, hDiff⟩ | ⟨hNone, hDiff⟩ := updateAll_postings
    (updateAll before ((gone oldTf newTf).map (delFtsEntry u.newPk))) (written old new oldTf newTf) u.newPk key
    (UInt32.ofNat new.length)
  all_goals
    obtain ⟨n, hn, hnKey, hAll⟩ | ⟨hNone', hAll⟩ := updateAll_postings
      (updateAll before (oldTf'.map (delFtsEntry u.newPk))) newTf' u.newPk key (UInt32.ofNat new.length)
    all_goals rw [hDiff, hAll]
  · obtain ⟨hwNew, hwCount⟩ := mem_tfMap.mp ((mem_written hOld hNew).mp hw).1
    obtain ⟨hnNew, hnCount⟩ := mem_tfMap.mp (hNew'.mem_iff.mp hn)
    rw [hwCount, hnCount, h.count hnNew hwNew (ftsBuildKey_eq_iff.mp (hwKey.trans hnKey.symm))]
  · exact absurd hwKey (hNone' w (hNew'.mem_iff.mpr ((mem_written hOld hNew).mp hw).1))
  · obtain ⟨hnNew, hnCount⟩ := mem_tfMap.mp (hNew'.mem_iff.mp hn)
    have hKept {t : Bytes} (ht : t ∈ new) (hKey : ftsBuildKey t u.newPk = key) : ¬Rewritten old new t := by
      intro hRewritten
      exact hNone _ ((mem_written hOld hNew).mpr ⟨pair_mem_tfMap ht, hRewritten⟩) hKey
    have hStays {o : Bytes} (ho : o ∈ old) (hKey : ftsBuildKey o u.newPk = key) : o ∈ new := by
      by_contra hNot
      obtain ⟨w, hw, hSame, hRewritten⟩ := h.kept hnNew ho hNot (ftsBuildKey_eq_iff.mp (hKey.trans hnKey.symm))
      exact hKept hw ((ftsBuildKey_eq_iff.mpr hSame).trans hnKey) hRewritten
    rw [updateAll_dels_map, if_neg]
    · obtain ⟨o, ho, hoKey, hBefore⟩ | ⟨hNone', -⟩ :=
        updateAll_postings base oldTf' u.oldPk key (UInt32.ofNat old.length)
      · rw [hPk] at hoKey
        obtain ⟨hoOld, hoCount⟩ := mem_tfMap.mp (hOld'.mem_iff.mp ho)
        have hoNew := hStays hoOld hoKey
        obtain ⟨-, hLen, hCount⟩ := not_rewritten (hKept hoNew hoKey)
        refine hBefore.trans ?_
        rw [hoCount, hnCount, hLen, hCount, h.count hnNew hoNew (ftsBuildKey_eq_iff.mp (hoKey.trans hnKey.symm))]
      · have hMem := hOld'.mem_iff.mpr (pair_mem_tfMap (not_rewritten (hKept hnNew hnKey)).1)
        exact absurd (hPk ▸ hnKey) (hNone' _ hMem)
    · rintro ⟨kv, hkv, hKey⟩
      obtain ⟨hMem, hNot⟩ := (mem_gone hOld hNew).mp hkv
      exact hNot (hStays (mem_tfMap.mp hMem).1 hKey)
  · rw [updateAll_dels_map, updateAll_dels_map]
    congr 1
    simp only [mem_gone hOld hNew, hOld'.mem_iff, and_assoc]
    refine propext (exists_congr fun kv => and_congr_right fun hkv => and_iff_right_of_imp fun hKey hMem => ?_)
    exact hNone' _ (hNew'.mem_iff.mpr (pair_mem_tfMap hMem)) hKey

theorem DiffExact.get (h : DiffExact u old new) {t : Bytes} (ht : t ∈ new) :
    updateAll (updateAll (fun _ => none) ((tfMap old).map (putFtsEntry u.oldPk (UInt32.ofNat old.length))))
        (updateFtsIndexDiff u (tfMap old) (tfMap new) (UInt32.ofNat new.length)
          (UInt32.ofNat old.length ≠ UInt32.ofNat new.length)) (ftsBuildKey t u.newPk) =
      some (.bytes (ftsBuildValue (UInt16.ofNat (new.count t)) (UInt32.ofNat new.length))) := by
  obtain ⟨newTf', hNew', hLast⟩ := exists_order (updateAll (updateAll (fun _ => none)
    ((tfMap old).map (putFtsEntry u.oldPk (UInt32.ofNat old.length)))) ((tfMap old).map (delFtsEntry u.oldPk))) u.newPk
    (UInt32.ofNat new.length) ht
  rw [h _ _ _ _ newTf' .rfl .rfl .rfl hNew', updateAll_append, hLast]

theorem DiffExact.apart (h : DiffExact u old new) (hPk : u.oldPk = u.newPk) : Apart old new where
  count {t w} ht hw hSame := by
    have hEq := h.get hw
    rw [ftsBuildKey_eq_iff.mpr hSame, h.get ht] at hEq
    exact (ftsBuildValue_inj (Val.bytes.inj (Option.some.inj hEq))).symm
  kept {t o} ht ho hNot hSame := by
    have hGet := h.get ht
    rw [updateFtsIndexDiff_split, updateAll_append] at hGet
    obtain ⟨w, hw, hKey, -⟩ | ⟨-, hNone⟩ := updateAll_postings _ _ u.newPk (ftsBuildKey t u.newPk) _
    · obtain ⟨hMem, hRewritten⟩ := (mem_written .rfl .rfl).mp hw
      exact ⟨w.1, (mem_tfMap.mp hMem).1, ftsBuildKey_eq_iff.mp hKey, hRewritten⟩
    · rw [hNone, hPk, updateAll_dels_map, if_pos] at hGet
      · cases hGet
      · exact ⟨_, (mem_gone .rfl .rfl).mpr ⟨pair_mem_tfMap ho, hNot⟩, ftsBuildKey_eq_iff.mpr hSame⟩

/-- The differences leave the new postings exactly when terms that share a key do not get in each other's way. -/
theorem diff_exact_iff (u : Update ι) (hPk : u.oldPk = u.newPk) (old new : List Bytes) :
    DiffExact u old new ↔ Apart old new := by
  constructor
  · intro h
    exact h.apart hPk
  · intro h
    exact h.diffExact hPk

theorem Apart.of_short (hOld : ∀ t ∈ old, t.length ≤ ftsMaxTermBytes) (hNew : ∀ t ∈ new, t.length ≤ ftsMaxTermBytes) :
    Apart old new where
  count {t w} ht hw hSame := by
    rw [take_of_length_le (hNew w hw), take_of_length_le (hNew t ht)] at hSame
    rw [hSame]
  kept {t o} ht ho hNot hSame := by
    rw [take_of_length_le (hOld o ho), take_of_length_le (hNew t ht)] at hSame
    exact absurd (hSame ▸ ht) hNot

def oneUpdate : Update Unit where
  oldData _ := none
  newData _ := none
  oldPk := [1]
  newPk := [1]
  writeSet _ := true

theorem diff_exact_short : DiffExact oneUpdate [[0x61]] [[0x61], [0x62]] :=
  (diff_exact_iff oneUpdate rfl _ _).mpr (.of_short (by decide) (by decide))

def longStem : Bytes := (replicate 256 [0xC3, 0xA9]).flatten

/-- Two old terms have their first bytes in common; the one that is gone takes the posting of the other with it. -/
theorem posting_lost_with_another :
    ¬DiffExact oneUpdate [longStem ++ [0xC3, 0xA8], longStem ++ [0xC3, 0xAA]] [longStem ++ [0xC3, 0xAA], [0x64]] := by
  intro h
  have hEq := congrFun (h (fun _ => none) _ _ _ _ .rfl .rfl .rfl .rfl) (ftsBuildKey longStem [1])
  have hSome := congrArg Option.isSome hEq
  revert hSome
  decide +kernel

end TideSql.PostingDiff
