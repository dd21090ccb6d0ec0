import TideSql.Lib.Run
import TideSql.Handler.IndexEntries

/-!
# Index families hold the entries of the rows

In every run whose row calls are settled, the family of an index holds exactly
the entries of the rows, in what has been committed and in what each open
transaction sees.
-/

namespace TideSql.Dml
open KeyCodec SortKey IndexRead Lib Lib.Bytes Lib.Snapshot Lib.Run List Function

section Exact

variable {ι β : Type} (T : Table ι β) (i : Nat) (x : IndexShape ι)

/-- The entries that an index should have of the row under a key. -/
def wanted (c : Key → Option (Val ι)) (pk : Bytes) : List (Bytes × Val ι) :=
  match c (dataKey pk) with
  | some (.row r) => entries T pk r x
  | _ => []

def Fit {ι : Type} : IndexShape ι → Row ι → Prop
  | .fulltext cols tokenize, r =>
    (∀ t ∈ ftsExtractAndTokenize cols tokenize r,
      t.length ≤ ftsMaxTermBytes ∧ (ftsExtractAndTokenize cols tokenize r).count t < 2 ^ 16) ∧
    (ftsExtractAndTokenize cols tokenize r).length < 2 ^ 32
  | _, _ => True

/-- The index has the entries of the row, and no others with its key. -/
structure Good (pk : Bytes) (c : Key → Option (Val ι)) : Prop where
  own : ∀ v, c (dataKey pk) = some v → ∃ r, v = .row r ∧ pkFromRecord T pk r = pk ∧ Fit x r
  entry_iff : ∀ key v, pkOf x key = pk → (c (.idx i, key) = some v ↔ (key, v) ∈ wanted T x c pk)

variable {T i x}

variable {c : Key → Option (Val ι)}

theorem wanted_of_row {pk : Bytes} {r : Row ι} (h : c (dataKey pk) = some (.row r)) :
    wanted T x c pk = entries T pk r x := by
  rw [wanted, h]

theorem wanted_of_none {pk : Bytes} (h : c (dataKey pk) = none) : wanted T x c pk = [] := by
  rw [wanted, h]

theorem wanted_congr {c c' : Key → Option (Val ι)} {pk : Bytes} (h : c (dataKey pk) = c' (dataKey pk)) :
    wanted T x c pk = wanted T x c' pk := by
  rw [wanted, wanted, h]

theorem Good.get_none {pk key : Bytes} (h : Good T i x pk c) (hKey : pkOf x key = pk) (hNone : c (dataKey pk) = none) :
    c (.idx i, key) = none := by
  refine Option.eq_none_iff_forall_ne_some.mpr fun v hv => ?_
  have hWanted := (h.entry_iff key v hKey).mp hv
  rw [wanted_of_none hNone] at hWanted
  cases hWanted

theorem good_local (hx : T.indexes[i]? = some x) : Local (group T) (Good T i x) := by
  intro pk c c' hAgree h
  have hData : c (dataKey pk) = c' (dataKey pk) := hAgree _ (group_dataKey T pk)
  refine ⟨fun v hv => h.own v (hData.trans hv), fun key v hKey => ?_⟩
  rw [← hAgree _ ((group_idx T hx key).trans hKey), ← wanted_congr hData]
  exact h.entry_iff key v hKey

theorem good_of_patch {c c' : Key → Option (Val ι)} (h : ∀ pk, Good T i x pk c) {dels : List Bytes}
    {puts : List (Bytes × Val ι)} (hPuts : Functional puts)
    (hOwn : ∀ pk v, c' (dataKey pk) = some v → ∃ r, v = .row r ∧ pkFromRecord T pk r = pk ∧ Fit x r)
    (hIdx : ∀ key, c' (.idx i, key) = updateAll (fun k => c (.idx i, k)) (patch dels puts) key)
    (hRight : ∀ key v, ((key, v) ∈ puts ∨ key ∉ puts.map Prod.fst ∧ key ∉ dels ∧ (key, v) ∈ wanted T x c (pkOf x key)) ↔
        (key, v) ∈ wanted T x c' (pkOf x key)) (pk : Bytes) : Good T i x pk c' := by
  refine ⟨hOwn pk, fun key v hKey => ?_⟩
  subst hKey
  rw [hIdx, updateAll_patch _ dels hPuts, (h (pkOf x key)).entry_iff key v rfl]
  exact hRight key v

end Exact

section Postings

variable {ι β : Type} {T : Table ι β}

variable {tokens : List Bytes}

theorem mem_tfMap {kv : Bytes × UInt16} :
    kv ∈ tfMap tokens ↔ kv.1 ∈ tokens ∧ kv.2 = UInt16.ofNat (tokens.count kv.1) := by
  obtain ⟨t, n⟩ := kv
  simp only [tfMap, mem_map, mem_dedup, Prod.mk.injEq]
  constructor
  · rintro ⟨t', ht', rfl, rfl⟩
    exact ⟨ht', rfl⟩
  · rintro ⟨ht, rfl⟩
    exact ⟨t, ht, rfl, rfl⟩

theorem mem_fst_tfMap {t : Bytes} : t ∈ (tfMap tokens).map Prod.fst ↔ t ∈ tokens := by
  simp [tfMap]

theorem find_tfMap {tf : List (Bytes × UInt16)} (h : tf ~ tfMap tokens) (t : Bytes) :
    tf.find? (fun kv => kv.1 = t) = if t ∈ tokens then some (t, UInt16.ofNat (tokens.count t)) else none := by
  cases hFind : tf.find? (fun kv => kv.1 = t) with
  | none =>
    rw [if_neg]
    intro ht
    obtain ⟨kv, hkv, hEq⟩ := mem_map.mp (mem_fst_tfMap.mpr ht)
    exact find?_eq_none.mp hFind kv (h.mem_iff.mpr hkv) (by simpa using hEq)
  | some kv =>
    have hEq : kv.1 = t := by simpa using find?_some hFind
    obtain ⟨hMem, hCount⟩ := mem_tfMap.mp (h.mem_iff.mp (mem_of_find?_eq_some hFind))
    subst hEq
    rw [if_pos hMem, ← hCount]

theorem isNone_find_tfMap {tf : List (Bytes × UInt16)} (h : tf ~ tfMap tokens) {t : Bytes} :
    (tf.find? fun kv => kv.1 = t).isNone = true ↔ t ∉ tokens := by
  rw [find_tfMap h]
  split
  · rename_i hMem
    exact ⟨fun h => (by cases h), fun hNot => absurd hMem hNot⟩
  · rename_i hNot
    exact ⟨fun _ => hNot, fun _ => rfl⟩

theorem ftsBuildKey_inj {t t' pk pk' : Bytes} (ht : t.length ≤ ftsMaxTermBytes) (ht' : t'.length ≤ ftsMaxTermBytes)
    (h : ftsBuildKey t pk = ftsBuildKey t' pk') : t = t' ∧ pk = pk' := by
  rw [ftsBuildKey, ftsBuildKey, take_of_length_le ht, take_of_length_le ht', Nat.min_eq_left ht,
    Nat.min_eq_left ht'] at h
  obtain ⟨hLen, hRest⟩ := append_inj h (by rw [length_toLE, length_toLE])
  have hLen := congrArg ofLE hLen
  rw [ofLE_toLE, ofLE_toLE] at hLen
  have hEq : t.length = t'.length := by
    simp only [ftsMaxTermBytes, ftsTermLenWidth] at ht ht' hLen
    omega
  exact append_inj hRest hEq

theorem mem_ftsEntries {ι : Type} {pk key : Bytes} {v : Val ι} :
    (key, v) ∈ ftsEntries pk tokens ↔ ∃ t ∈ tokens, key = ftsBuildKey t pk ∧
      v = .bytes (ftsBuildValue (UInt16.ofNat (tokens.count t)) (UInt32.ofNat tokens.length)) := by
  simp only [ftsEntries, mem_map, Prod.mk.injEq]
  constructor
  · rintro ⟨kv, hkv, rfl, rfl⟩
    obtain ⟨hMem, hCount⟩ := mem_tfMap.mp hkv
    exact ⟨kv.1, hMem, rfl, by rw [hCount]⟩
  · rintro ⟨t, ht, rfl, rfl⟩
    exact ⟨(t, UInt16.ofNat (tokens.count t)), mem_tfMap.mpr ⟨ht, rfl⟩, rfl, rfl⟩

theorem nodup_tfMap (tokens : List Bytes) : (tfMap tokens).Nodup := by
  refine (nodup_dedup tokens).map fun t t' hEq => ?_
  exact congrArg Prod.fst hEq

theorem nodup_ftsKeys (hLen : ∀ t ∈ tokens, t.length ≤ ftsMaxTermBytes) {kvs : List (Bytes × UInt16)}
    (hSub : kvs.Sublist (tfMap tokens)) (pk : Bytes) : (kvs.map fun kv => ftsBuildKey kv.1 pk).Nodup := by
  refine ((nodup_tfMap tokens).sublist hSub).map_on fun kv hkv kv' hkv' hEq => ?_
  obtain ⟨hMem, hCount⟩ := mem_tfMap.mp (hSub.subset hkv)
  obtain ⟨hMem', hCount'⟩ := mem_tfMap.mp (hSub.subset hkv')
  obtain ⟨hTerm, -⟩ := ftsBuildKey_inj (hLen _ hMem) (hLen _ hMem') hEq
  exact Prod.ext hTerm (by rw [hCount, hCount', hTerm])

theorem nodup_entries {x : IndexShape ι} {r : Row ι} (hFit : Fit x r) (pk : Bytes) :
    ((entries T pk r x).map Prod.fst).Nodup := by
  cases x with
  | regular b parts => exact nodup_singleton _
  | fulltext cols tokenize =>
    rw [entries, ftsEntries, map_map]
    exact nodup_ftsKeys (fun t ht => (hFit.1 t ht).1) (Sublist.refl _) pk
  | spatial col =>
    rw [entries]
    cases spatialComputeMbr T col r with
    | none => exact nodup_nil
    | some box => exact nodup_singleton _

end Postings

section Rows

variable {ι β : Type} {T : Table ι β} {i : Nat} {x : IndexShape ι}

theorem rowOps_idx (hx : T.indexes[i]? = some x) (c : Key → Option (Val ι)) {primary : List (Op Key (Val ι))}
    (hPrimary : ∀ o ∈ primary, o.key.1 = .data) (f : IndexShape ι → List (Op Bytes (Val ι))) (key : Bytes) :
    updateAll c (primary ++ maintain T f) (.idx i, key) = updateAll (fun k => c (.idx i, k)) (f x) key := by
  rw [updateAll_append, maintain_idx _ f hx]
  congr 1
  funext k
  refine updateAll_of_notMem c fun hMem => ?_
  obtain ⟨o, ho, hKey⟩ := mem_map.mp hMem
  have hFamily := hPrimary o ho
  rw [hKey] at hFamily
  cases hFamily

theorem rowOps_data (c : Key → Option (Val ι)) (primary : List (Op Key (Val ι)))
    (f : IndexShape ι → List (Op Bytes (Val ι))) (pk : Bytes) :
    updateAll c (primary ++ maintain T f) (dataKey pk) = updateAll c primary (dataKey pk) := by
  rw [updateAll_append]
  exact maintain_data ..

theorem dataKey_inj {pk pk' : Bytes} : dataKey pk = dataKey pk' ↔ pk = pk' := by
  simp [dataKey]

section

variable (c : Key → Option (Val ι))

theorem write_data (pk : Bytes) (buf : Row ι) (pk' : Bytes) :
    updateAll c (.put (dataKey pk) (.row buf) :: writeMaintainIndexes T pk buf) (dataKey pk') =
      if pk' = pk then some (.row buf) else c (dataKey pk') := by
  refine (rowOps_data (T := T) c [.put (dataKey pk) (.row buf)] (writeIndex T pk buf) pk').trans ?_
  simp only [updateAll_cons, updateAll_nil, Op.update, update_apply, dataKey_inj]

theorem delete_data (pk : Bytes) (buf : Row ι) (pk' : Bytes) :
    updateAll c (deleteRow T pk buf) (dataKey pk') = if pk' = pk then none else c (dataKey pk') := by
  refine (rowOps_data (T := T) c [.del (dataKey pk)] (deleteIndex T pk buf) pk').trans ?_
  simp only [updateAll_cons, updateAll_nil, Op.update, update_apply, dataKey_inj]

theorem updateRewritePrimary_data (u : Update ι) (pk : Bytes) : updateAll c (updateRewritePrimary u) (dataKey pk) =
      if pk = u.newPk then some (.row u.newData) else if pk = u.oldPk then none else c (dataKey pk) := by
  rw [updateRewritePrimary, updateAll_append]
  simp only [updateAll, foldl_cons, foldl_nil, Op.update, update_apply, dataKey_inj]
  split
  · rfl
  · rename_i hNew
    split
    · simp only [foldl_cons, foldl_nil, Op.update, update_apply, dataKey_inj]
    · rename_i hSame
      have hEq : u.oldPk = u.newPk := by simpa [Update.pkChanged] using hSame
      rw [if_neg (hEq ▸ hNew)]
      rfl

theorem update_data (u : Update ι) (pk : Bytes) :
    updateAll c (updateRewritePrimary u ++ updateMaintainIndexes T u) (dataKey pk) =
      if pk = u.newPk then some (.row u.newData) else if pk = u.oldPk then none else c (dataKey pk) :=
  (rowOps_data c _ (updateIndex T u) pk).trans (updateRewritePrimary_data c u pk)

end

variable {u : Update ι}

theorem updateRewritePrimary_key {o : Op Key (Val ι)} (ho : o ∈ updateRewritePrimary u) : ∃ pk, o.key = dataKey pk := by
  obtain ho | ho := mem_append.mp ho
  · split at ho
    · cases mem_singleton.mp ho
      exact ⟨_, rfl⟩
    · cases ho
  · cases mem_singleton.mp ho
    exact ⟨_, rfl⟩

theorem updateRewritePrimary_family {o : Op Key (Val ι)} (ho : o ∈ updateRewritePrimary u) : o.key.1 = .data := by
  obtain ⟨pk, hKey⟩ := updateRewritePrimary_key ho
  rw [hKey]
  rfl

theorem update_idx (hx : T.indexes[i]? = some x) (c : Key → Option (Val ι)) (u : Update ι) (key : Bytes) :
    updateAll c (updateRewritePrimary u ++ updateMaintainIndexes T u) (.idx i, key) =
      updateAll (fun k => c (.idx i, k)) (updateIndex T u x) key :=
  rowOps_idx hx c (fun _ ho => updateRewritePrimary_family ho) (updateIndex T u) key

variable {c : Key → Option (Val ι)}

theorem good_write (hx : T.indexes[i]? = some x) (h : ∀ pk, Good T i x pk c) {pk : Bytes} {buf : Row ι}
    (hOwn : pkFromRecord T pk buf = pk) (hFit : Fit x buf) (hFresh : c (dataKey pk) = none) (pk' : Bytes) :
    Good T i x pk' (updateAll c (.put (dataKey pk) (.row buf) :: writeMaintainIndexes T pk buf)) := by
  set c' := updateAll c (.put (dataKey pk) (.row buf) :: writeMaintainIndexes T pk buf) with hc'
  have hData : ∀ pk', c' (dataKey pk') = if pk' = pk then some (.row buf) else c (dataKey pk') := write_data c pk buf
  have hIdx : ∀ key, c' (.idx i, key) = updateAll (fun k => c (.idx i, k)) (patch [] (entries T pk buf x)) key := by
    intro key
    rw [← writeIndex_eq hOwn x]
    exact rowOps_idx hx c (forall_mem_singleton.mpr rfl) (writeIndex T pk buf) key
  refine good_of_patch h (functional_of_nodup (nodup_entries hFit pk)) (fun p v hv => ?_) hIdx (fun key v => ?_) pk'
  · rw [hData] at hv
    split at hv
    · rename_i hp
      cases hv
      exact ⟨buf, rfl, hp ▸ hOwn, hFit⟩
    · exact (h p).own v hv
  · obtain hKey | hKey := eq_or_ne (pkOf x key) pk
    · have hRow : c' (dataKey pk) = some (.row buf) := (hData pk).trans (if_pos rfl)
      rw [hKey, wanted_of_none hFresh, wanted_of_row hRow]
      simp
    · have hNot : ∀ v, (key, v) ∉ entries T pk buf x := fun v hv => hKey (pkOf_entries hv)
      have hSame : wanted T x c' (pkOf x key) = wanted T x c (pkOf x key) :=
        wanted_congr ((hData _).trans (if_neg hKey))
      rw [hSame]
      simp [hNot]

theorem good_delete (hx : T.indexes[i]? = some x) (h : ∀ pk, Good T i x pk c) {pk : Bytes} {buf : Row ι}
    (hRow : c (dataKey pk) = some (.row buf)) (pk' : Bytes) : Good T i x pk' (updateAll c (deleteRow T pk buf)) := by
  obtain ⟨r, hr, hOwn, -⟩ := (h pk).own _ hRow
  cases hr
  set c' := updateAll c (deleteRow T pk buf) with hc'
  have hData : ∀ pk', c' (dataKey pk') = if pk' = pk then none else c (dataKey pk') := delete_data c pk buf
  have hIdx : ∀ key, c' (.idx i, key) =
      updateAll (fun k => c (.idx i, k)) (patch ((entries T pk buf x).map Prod.fst) []) key := by
    intro key
    rw [← deleteIndex_eq hOwn x]
    exact rowOps_idx hx c (forall_mem_singleton.mpr rfl) (deleteIndex T pk buf) key
  refine good_of_patch h (fun _ _ _ hv => by cases hv) (fun p v hv => ?_) hIdx (fun key v => ?_) pk'
  · rw [hData] at hv
    split at hv
    · cases hv
    · exact (h p).own v hv
  · obtain hKey | hKey := eq_or_ne (pkOf x key) pk
    · rw [hKey, wanted_of_row hRow, wanted_of_none ((hData pk).trans (if_pos rfl))]
      simp only [not_mem_nil, false_or, iff_false, not_and]
      exact fun _ hNot hv => hNot (mem_map.mpr ⟨_, hv, rfl⟩)
    · have hNot : key ∉ (entries T pk buf x).map Prod.fst := by
        intro hMem
        obtain ⟨e, he, rfl⟩ := mem_map.mp hMem
        exact hKey (pkOf_entries he)
      have hSame : wanted T x c' (pkOf x key) = wanted T x c (pkOf x key) :=
        wanted_congr ((hData _).trans (if_neg hKey))
      rw [hSame]
      simp [hNot]

/-- The terms that stay in a document under one key stay with their counts. -/
def KeepsPostings (u : Update ι) : IndexShape ι → Prop
  | .fulltext cols tokenize => u.oldPk = u.newPk → ∀ t ∈ ftsExtractAndTokenize cols tokenize u.oldData,
      t ∈ ftsExtractAndTokenize cols tokenize u.newData → (ftsExtractAndTokenize cols tokenize u.oldData).count t =
          (ftsExtractAndTokenize cols tokenize u.newData).count t ∧
        (ftsExtractAndTokenize cols tokenize u.oldData).length = (ftsExtractAndTokenize cols tokenize u.newData).length
  | _ => True

/-- The writes of `update_row` to the index take the entries of the old row to those of the new one. -/
structure Carries (T : Table ι β) (u : Update ι) (x : IndexShape ι) (dels : List Bytes) (puts : List (Bytes × Val ι)) :
    Prop where
  ops_eq : updateIndex T u x = patch dels puts
  dels_old : ∀ key ∈ dels, key ∈ (entries T u.oldPk u.oldData x).map Prod.fst
  nodup : (puts.map Prod.fst).Nodup
  clean : KeepsPostings u x → ∀ key ∈ puts.map Prod.fst, key ∈ (entries T u.oldPk u.oldData x).map Prod.fst → key ∈ dels
  right : ∀ key v, ((key, v) ∈ puts ∨ key ∉ puts.map Prod.fst ∧ key ∉ dels ∧ (key, v) ∈ entries T u.oldPk u.oldData x) ↔
      (key, v) ∈ entries T u.newPk u.newData x

variable {puts : List (Bytes × Val ι)} {dels : List Bytes}

theorem Carries.pkOf_dels (h : Carries T u x dels puts) {key : Bytes} (hKey : key ∈ dels) : pkOf x key = u.oldPk := by
  obtain ⟨e, he, rfl⟩ := mem_map.mp (h.dels_old key hKey)
  exact pkOf_entries he

theorem Carries.pkOf_puts (h : Carries T u x dels puts) {key : Bytes} (hKey : key ∈ puts.map Prod.fst) :
    pkOf x key = u.newPk := by
  obtain ⟨e, he, rfl⟩ := mem_map.mp hKey
  exact pkOf_entries ((h.right e.1 e.2).mp (.inl he))

theorem good_update (hx : T.indexes[i]? = some x) (h : ∀ pk, Good T i x pk c) (hCarries : Carries T u x dels puts)
    (hRow : c (dataKey u.oldPk) = some (.row u.oldData)) (hOwn : pkFromRecord T u.newPk u.newData = u.newPk)
    (hFit : Fit x u.newData) (hFresh : u.oldPk ≠ u.newPk → c (dataKey u.newPk) = none) (pk' : Bytes) :
    Good T i x pk' (updateAll c (updateRewritePrimary u ++ updateMaintainIndexes T u)) := by
  set c' := updateAll c (updateRewritePrimary u ++ updateMaintainIndexes T u) with hc'
  have hData : ∀ pk, c' (dataKey pk) =
      if pk = u.newPk then some (.row u.newData) else if pk = u.oldPk then none else c (dataKey pk) := update_data c u
  have hIdx : ∀ key, c' (.idx i, key) = updateAll (fun k => c (.idx i, k)) (patch dels puts) key := by
    intro key
    rw [← hCarries.ops_eq]
    exact update_idx hx c u key
  refine good_of_patch h (functional_of_nodup hCarries.nodup) (fun p v hv => ?_) hIdx (fun key v => ?_) pk'
  · rw [hData] at hv
    split at hv
    · rename_i hp
      cases hv
      exact ⟨u.newData, rfl, hp ▸ hOwn, hFit⟩
    · split at hv
      · cases hv
      · exact (h p).own v hv
  · have hNew : wanted T x c' u.newPk = entries T u.newPk u.newData x := wanted_of_row ((hData _).trans (if_pos rfl))
    obtain hKey | hKey := eq_or_ne (pkOf x key) u.newPk
    · rw [hKey, hNew, ← hCarries.right key v]
      obtain hSame | hMoved := eq_or_ne u.oldPk u.newPk
      · rw [← hSame, wanted_of_row hRow]
      · have hOld : (key, v) ∉ entries T u.oldPk u.oldData x := fun hv => hMoved ((pkOf_entries hv).symm.trans hKey)
        rw [wanted_of_none (hFresh hMoved)]
        simp [hOld]
    · have hPut : key ∉ puts.map Prod.fst := fun hMem => hKey (hCarries.pkOf_puts hMem)
      have hNotPut : (key, v) ∉ puts := fun hv => hPut (mem_map.mpr ⟨_, hv, rfl⟩)
      obtain hOld | hOld := eq_or_ne (pkOf x key) u.oldPk
      · -- the key of the old row: nothing may be left of its entries
        have hGone : c' (dataKey (pkOf x key)) = none := by rw [hData, if_neg hKey, if_pos hOld]
        have hNone : (key, v) ∉ entries T u.newPk u.newData x := fun hv => hKey (pkOf_entries hv)
        rw [wanted_of_none hGone, hOld, wanted_of_row hRow, hCarries.right key v]
        simp [hNone]
      · have hDel : key ∉ dels := fun hMem => hOld (hCarries.pkOf_dels hMem)
        have hSame : wanted T x c' (pkOf x key) = wanted T x c (pkOf x key) :=
          wanted_congr ((hData _).trans ((if_neg hKey).trans (if_neg hOld)))
        rw [hSame]
        simp [hPut, hNotPut, hDel]

end Rows

section Updates

variable {ι β : Type} {T : Table ι β} {u : Update ι}

def MarksChanges (u : Update ι) : Prop := ∀ c, u.writeSet c = false → u.oldData c = u.newData c

def MovesWith (u : Update ι) : IndexShape ι → Prop
  | .regular .. => True
  | .fulltext cols _ => u.oldPk ≠ u.newPk → ∃ c ∈ cols, u.writeSet c = true
  | .spatial col => u.oldPk ≠ u.newPk → u.writeSet col = true

def Carried (T : Table ι β) (u : Update ι) (x : IndexShape ι) : Prop := ∃ dels puts, Carries T u x dels puts

variable {x : IndexShape ι}

theorem carries_nothing (hOps : updateIndex T u x = [])
    (hSame : entries T u.oldPk u.oldData x = entries T u.newPk u.newData x) : Carries T u x [] [] where
  ops_eq := hOps
  dels_old _ h := by cases h
  nodup := nodup_nil
  clean _ _ h := by cases h
  right key v := by simp [hSame]

theorem carries_all (hFit : Fit x u.newData)
    (hOps : updateIndex T u x = patch ((entries T u.oldPk u.oldData x).map Prod.fst) (entries T u.newPk u.newData x)) :
    Carries T u x ((entries T u.oldPk u.oldData x).map Prod.fst) (entries T u.newPk u.newData x) where
  ops_eq := hOps
  dels_old _ h := h
  nodup := nodup_entries hFit _
  clean _ _ _ h := h
  right key v := by
    rw [or_iff_left]
    rintro ⟨-, hNot, hv⟩
    exact hNot (mem_map.mpr ⟨_, hv, rfl⟩)

theorem carried_regular (hMarks : MarksChanges u) (hOwn : pkFromRecord T u.newPk u.newData = u.newPk) (b : Bool)
    (parts : List (KeyPart ι)) : Carried T u (.regular b parts) := by
  have hOps : updateIndex T u (.regular b parts) = updateRegularIndex T u parts := rfl
  simp only [updateRegularIndex, secIdxKey, hOwn] at hOps
  split at hOps
  · split at hOps
    · rename_i hEq
      refine ⟨[], [], carries_nothing hOps ?_⟩
      rw [entries, hEq, entries]
    · exact ⟨_, _, carries_all trivial hOps⟩
  · rename_i hSkip
    simp only [Update.pkChanged, Bool.or_eq_true, decide_eq_true_eq, any_eq_true, not_or, not_exists, not_and,
      ne_eq, not_not, Bool.not_eq_true] at hSkip
    refine ⟨[], [], carries_nothing hOps ?_⟩
    rw [entries, entries, hSkip.1, makeComparableKey_congr T.sorts fun p hp => hMarks _ (hSkip.2 p hp)]

theorem carried_spatial (hMarks : MarksChanges u) {col : ι} (hMoves : MovesWith u (.spatial col)) :
    Carried T u (.spatial col) := by
  have hOps : updateIndex T u (.spatial col) = updateSpatialIndex T u col := rfl
  cases hSet : u.writeSet col with
  | true =>
    rw [updateSpatialIndex, if_pos hSet, delSpatialEntry_eq, putSpatialEntry_eq] at hOps
    refine ⟨_, _, carries_all trivial (hOps.trans ?_)⟩
    simp [patch, entries]
  | false =>
    rw [updateSpatialIndex, if_neg (by simp [hSet])] at hOps
    have hPk : u.oldPk = u.newPk := by
      by_contra hMoved
      rw [hMoves hMoved] at hSet
      cases hSet
    refine ⟨[], [], carries_nothing hOps ?_⟩
    rw [entries, entries, hPk, spatialComputeMbr, spatialComputeMbr, hMarks col hSet]

theorem tokens_congr {cols : List ι} (tokenize : Bytes → List Bytes) {r r' : Row ι} (h : ∀ c ∈ cols, r c = r' c) :
    ftsExtractAndTokenize cols tokenize r = ftsExtractAndTokenize cols tokenize r' := by
  rw [ftsExtractAndTokenize, ftsExtractAndTokenize]
  congr 1
  refine foldl_ext _ _ _ fun doc c hc => ?_
  rw [h c hc]

def Rewritten (old new : List Bytes) (t : Bytes) : Prop :=
  t ∈ old → UInt32.ofNat old.length ≠ UInt32.ofNat new.length ∨ UInt16.ofNat (old.count t) ≠ UInt16.ofNat (new.count t)

def diffDels (pk : Bytes) (old new : List Bytes) : List Bytes :=
  ((tfMap old).filter fun kv => ((tfMap new).find? fun o => o.1 = kv.1).isNone).map fun kv => ftsBuildKey kv.1 pk

def diffPuts (pk : Bytes) (old new : List Bytes) : List (Bytes × Val ι) :=
  ((tfMap new).filter fun kv =>
    match (tfMap old).find? fun o => o.1 = kv.1 with
    | none => true
    | some o => decide (UInt32.ofNat old.length ≠ UInt32.ofNat new.length) || o.2 ≠ kv.2).map fun kv =>
      (ftsBuildKey kv.1 pk, .bytes (ftsBuildValue kv.2 (UInt32.ofNat new.length)))

theorem updateFtsIndexDiff_eq (u : Update ι) (old new : List Bytes) :
    updateFtsIndexDiff u (tfMap old) (tfMap new) (UInt32.ofNat new.length)
        (UInt32.ofNat old.length ≠ UInt32.ofNat new.length) =
      patch (diffDels u.oldPk old new) (diffPuts u.newPk old new) := by
  rw [updateFtsIndexDiff, diffDels, diffPuts, patch, map_map, map_map]
  rfl

variable {old new : List Bytes}

theorem mem_diffDels {pk key : Bytes} : key ∈ diffDels pk old new ↔ ∃ t ∈ old, t ∉ new ∧ key = ftsBuildKey t pk := by
  rw [diffDels, mem_map]
  constructor
  · rintro ⟨kv, hkv, rfl⟩
    obtain ⟨hkv, hNot⟩ := mem_filter.mp hkv
    rw [isNone_find_tfMap .rfl] at hNot
    exact ⟨kv.1, (mem_tfMap.mp hkv).1, hNot, rfl⟩
  · rintro ⟨t, ht, hNot, rfl⟩
    refine ⟨(t, UInt16.ofNat (old.count t)), mem_filter.mpr ⟨mem_tfMap.mpr ⟨ht, rfl⟩, ?_⟩, rfl⟩
    rwa [isNone_find_tfMap .rfl]

theorem needPut_iff {oldTf : List (Bytes × UInt16)} (h : oldTf ~ tfMap old) (t : Bytes) :
    (match oldTf.find? fun o => o.1 = t with
      | none => true
      | some o => decide (UInt32.ofNat old.length ≠ UInt32.ofNat new.length) ||
          decide (o.2 ≠ UInt16.ofNat (new.count t))) = true ↔ Rewritten old new t := by
  rw [find_tfMap h, Rewritten]
  by_cases hMem : t ∈ old
  · simp [hMem]
  · simp [hMem]

theorem mem_diffPuts {pk key : Bytes} {v : Val ι} :
    (key, v) ∈ diffPuts pk old new ↔ ∃ t ∈ new, Rewritten old new t ∧ key = ftsBuildKey t pk ∧
      v = .bytes (ftsBuildValue (UInt16.ofNat (new.count t)) (UInt32.ofNat new.length)) := by
  rw [diffPuts, mem_map]
  constructor
  · rintro ⟨⟨t, n⟩, hkv, hEq⟩
    cases hEq
    obtain ⟨hkv, hFilter⟩ := mem_filter.mp hkv
    obtain ⟨hMem, hCount⟩ := mem_tfMap.mp hkv
    simp only at hMem hCount
    subst hCount
    exact ⟨t, hMem, (needPut_iff .rfl t).mp hFilter, rfl, rfl⟩
  · rintro ⟨t, ht, hRewritten, rfl, rfl⟩
    exact ⟨(t, UInt16.ofNat (new.count t)),
      mem_filter.mpr ⟨mem_tfMap.mpr ⟨ht, rfl⟩, (needPut_iff .rfl t).mpr hRewritten⟩, rfl⟩

theorem nodup_diffPuts {new : List Bytes} (hNew : ∀ t ∈ new, t.length ≤ ftsMaxTermBytes) (pk : Bytes)
    (old : List Bytes) : ((diffPuts (ι := ι) pk old new).map Prod.fst).Nodup := by
  rw [diffPuts, map_map]
  exact nodup_ftsKeys hNew filter_sublist pk

theorem diff_entries {pk : Bytes} (hOld : ∀ t ∈ old, t.length ≤ ftsMaxTermBytes)
    (hNew : ∀ t ∈ new, t.length ≤ ftsMaxTermBytes) (key : Bytes) (v : Val ι) : ((key, v) ∈ diffPuts pk old new ∨
      key ∉ (diffPuts (ι := ι) pk old new).map Prod.fst ∧ key ∉ diffDels pk old new ∧ (key, v) ∈ ftsEntries pk old) ↔
      (key, v) ∈ ftsEntries pk new := by
  have hKeys : ∀ t ∈ new, ftsBuildKey t pk ∈ (diffPuts (ι := ι) pk old new).map Prod.fst ↔ Rewritten old new t := by
    intro t ht
    constructor
    · intro hMem
      obtain ⟨⟨k, v⟩, hkv, hKey⟩ := mem_map.mp hMem
      obtain ⟨t', ht', hRewritten, hKey', -⟩ := mem_diffPuts.mp hkv
      obtain ⟨rfl, -⟩ := ftsBuildKey_inj (hNew t' ht') (hNew t ht) (hKey'.symm.trans hKey)
      exact hRewritten
    · intro hRewritten
      exact mem_map.mpr ⟨_, mem_diffPuts.mpr ⟨t, ht, hRewritten, rfl, rfl⟩, rfl⟩
  rw [mem_diffPuts, mem_ftsEntries, mem_ftsEntries]
  constructor
  · rintro (⟨t, ht, -, hKey, hv⟩ | ⟨hPut, hDel, t, ht, rfl, rfl⟩)
    · exact ⟨t, ht, hKey, hv⟩
    · have htNew : t ∈ new := by
        by_contra hNot
        exact hDel (mem_diffDels.mpr ⟨t, ht, hNot, rfl⟩)
      rw [hKeys t htNew, Rewritten] at hPut
      obtain ⟨hLen, hCount⟩ : UInt32.ofNat old.length = UInt32.ofNat new.length ∧
          UInt16.ofNat (old.count t) = UInt16.ofNat (new.count t) := by
        simpa [ht] using hPut
      exact ⟨t, htNew, rfl, by rw [hLen, hCount]⟩
  · rintro ⟨t, ht, rfl, rfl⟩
    by_cases hRewritten : Rewritten old new t
    · exact .inl ⟨t, ht, hRewritten, rfl, rfl⟩
    · refine .inr ⟨fun hMem => hRewritten ((hKeys t ht).mp hMem), fun hMem => ?_, ?_⟩
      · obtain ⟨t', ht', hNot, hKey⟩ := mem_diffDels.mp hMem
        obtain ⟨rfl, -⟩ := ftsBuildKey_inj (hNew t ht) (hOld t' ht') hKey
        exact hNot ht
      · obtain ⟨htOld, hLen, hCount⟩ : t ∈ old ∧ UInt32.ofNat old.length = UInt32.ofNat new.length ∧
            UInt16.ofNat (old.count t) = UInt16.ofNat (new.count t) := by
          simpa [Rewritten] using hRewritten
        exact ⟨t, htOld, rfl, by rw [hLen, hCount]⟩

theorem carried_fulltext (hMarks : MarksChanges u) {cols : List ι} {tokenize : Bytes → List Bytes}
    (hMoves : MovesWith u (.fulltext cols tokenize)) (hOld : Fit (.fulltext cols tokenize) u.oldData)
    (hNew : Fit (.fulltext cols tokenize) u.newData) : Carried T u (.fulltext cols tokenize) := by
  have hOps : updateIndex T u (.fulltext cols tokenize) = updateFtsIndex u cols tokenize := rfl
  simp only [updateFtsIndex, updateFtsIndexDiff_eq] at hOps
  split at hOps
  · split at hOps
    · refine ⟨_, _, carries_all hNew (hOps.trans ?_)⟩
      simp only [entries, ftsEntries, patch, map_map]
      rfl
    · rename_i hSame
      have hPk : u.oldPk = u.newPk := by simpa [Update.pkChanged] using hSame
      refine ⟨_, _, hOps, fun key hKey => ?_, nodup_diffPuts (fun t ht => (hNew.1 t ht).1) _ _, ?_, fun key v => ?_⟩
      · obtain ⟨t, ht, -, rfl⟩ := mem_diffDels.mp hKey
        exact mem_map.mpr ⟨_, mem_ftsEntries.mpr ⟨t, ht, rfl, rfl⟩, rfl⟩
      · intro hKeeps key hPut hEntry
        obtain ⟨⟨k, v⟩, hkv, rfl⟩ := mem_map.mp hPut
        obtain ⟨⟨k', v'⟩, hkv', hKey'⟩ := mem_map.mp hEntry
        obtain ⟨t, ht, hRewritten, rfl, -⟩ := mem_diffPuts.mp hkv
        obtain ⟨t', ht', hKey, -⟩ := mem_ftsEntries.mp hkv'
        obtain ⟨rfl, -⟩ := ftsBuildKey_inj (hOld.1 t' ht').1 (hNew.1 t ht).1 (hKey.symm.trans hKey')
        obtain ⟨hCount, hLen⟩ := hKeeps hPk t' ht' ht
        obtain hNe | hNe := hRewritten ht'
        · exact absurd (congrArg UInt32.ofNat hLen) hNe
        · exact absurd (congrArg UInt16.ofNat hCount) hNe
      · rw [hPk]
        exact diff_entries (fun t ht => (hOld.1 t ht).1) (fun t ht => (hNew.1 t ht).1) key v
  · rename_i hSkip
    have hNone : ∀ c ∈ cols, u.writeSet c = false := by simpa using hSkip
    have hPk : u.oldPk = u.newPk := by
      by_contra hMoved
      obtain ⟨c, hc, hSet⟩ := hMoves hMoved
      rw [hNone c hc] at hSet
      cases hSet
    refine ⟨[], [], carries_nothing hOps ?_⟩
    rw [entries, entries, hPk, tokens_congr tokenize fun c hc => hMarks c (hNone c hc)]

theorem carried (hMarks : MarksChanges u) (hMoves : MovesWith u x) (hOwn : pkFromRecord T u.newPk u.newData = u.newPk)
    (hOld : Fit x u.oldData) (hNew : Fit x u.newData) : Carried T u x := by
  cases x with
  | regular b parts => exact carried_regular hMarks hOwn b parts
  | fulltext cols tokenize => exact carried_fulltext hMarks hMoves hOld hNew
  | spatial col => exact carried_spatial hMarks hMoves

end Updates

end TideSql.Dml
