import TideSql.Handler.Dml

/-!
# The entries of a row

Each index has some entries for a row, every one of them ending in the
primary key. The maintenance of an index is a patch of its family: keys
deleted, then entries put.
-/

namespace TideSql.Dml
open KeyCodec SortKey IndexRead Lib Lib.Bytes Lib.Snapshot

section Entries

variable {ι β : Type} (T : Table ι β)

def ftsEntries {ι : Type} (pk : Bytes) (tokens : List Bytes) : List (Bytes × Val ι) :=
  (tfMap tokens).map fun kv => (ftsBuildKey kv.1 pk, .bytes (ftsBuildValue kv.2 (UInt32.ofNat tokens.length)))

def spatialEntries (pk : Bytes) (box : Option β) : List (Bytes × Val ι) :=
  match box with
  | some box => [(spatialBuildKey T box pk, .bytes (T.buildValue box))]
  | none => []

/-- What an index holds for a row. -/
def entries (pk : Bytes) (r : Row ι) : IndexShape ι → List (Bytes × Val ι)
  | .regular _ parts => [(makeComparableKey T.sorts parts r ++ pk, .bytes tdbEmptyVal)]
  | .fulltext cols tokenize => ftsEntries pk (ftsExtractAndTokenize cols tokenize r)
  | .spatial col => spatialEntries T pk (spatialComputeMbr T col r)

/-- The primary key that ends an index key. -/
def pkOf {ι : Type} : IndexShape ι → Bytes → Bytes
  | .regular _ parts, key => key.drop (comparableKeyLength parts)
  | .fulltext .., key => key.drop (ftsTermLenWidth + ofLE (key.take ftsTermLenWidth))
  | .spatial _, key => key.drop spatialHilbertKeyLen

def group : Key → Bytes
  | (.data, key) => key.drop 1
  | (.idx i, key) =>
    match T.indexes[i]? with
    | some x => pkOf x key
    | none => []

@[simp] theorem group_dataKey (pk : Bytes) : group T (dataKey pk) = pk := rfl

theorem group_idx {i : Nat} {x : IndexShape ι} (hx : T.indexes[i]? = some x) (key : Bytes) :
    group T (.idx i, key) = pkOf x key := by
  simp only [group, hx]

variable {T}

theorem pkOf_ftsBuildKey (cols : List ι) (tokenize : Bytes → List Bytes) (term pk : Bytes) :
    pkOf (.fulltext cols tokenize) (ftsBuildKey term pk) = pk := by
  have hWidth : (toLE ftsTermLenWidth (min term.length ftsMaxTermBytes)).length = ftsTermLenWidth := length_toLE ..
  have hLen : ofLE (toLE ftsTermLenWidth (min term.length ftsMaxTermBytes)) = min term.length ftsMaxTermBytes := by
    rw [ofLE_toLE]
    simp only [ftsTermLenWidth, ftsMaxTermBytes]
    omega
  have hTerm : (term.take ftsMaxTermBytes).length = min term.length ftsMaxTermBytes := by
    rw [List.length_take, Nat.min_comm]
  rw [pkOf, ftsBuildKey, List.take_left' hWidth, hLen, ← List.drop_drop, List.drop_left' hWidth, List.drop_left' hTerm]

theorem pkOf_entries {pk : Bytes} {r : Row ι} {x : IndexShape ι} {key : Bytes} {v : Val ι}
    (h : (key, v) ∈ entries T pk r x) : pkOf x key = pk := by
  cases x with
  | regular u parts =>
    cases List.mem_singleton.mp h
    exact List.drop_left' (length_makeComparableKey parts r)
  | fulltext cols tokenize =>
    obtain ⟨kv, -, hKv⟩ := List.mem_map.mp h
    cases hKv
    exact pkOf_ftsBuildKey cols tokenize kv.1 pk
  | spatial col =>
    rw [entries] at h
    cases hBox : spatialComputeMbr T col r with
    | some box =>
      rw [hBox] at h
      cases List.mem_singleton.mp h
      exact List.drop_left' (length_toBE ..)
    | none =>
      rw [hBox] at h
      cases h

theorem pk_eq_of_entries {pk pk' : Bytes} {r r' : Row ι} {x : IndexShape ι} {key : Bytes} {v v' : Val ι}
    (h : (key, v) ∈ entries T pk r x) (h' : (key, v') ∈ entries T pk' r' x) : pk = pk' :=
  (pkOf_entries h).symm.trans (pkOf_entries h')

theorem putSpatialEntry_eq (col : ι) (pk : Bytes) (r : Row ι) :
    putSpatialEntry T col pk r = patch [] (spatialEntries T pk (spatialComputeMbr T col r)) := by
  rw [putSpatialEntry]
  cases spatialComputeMbr T col r <;> rfl

theorem delSpatialEntry_eq (col : ι) (pk : Bytes) (r : Row ι) :
    delSpatialEntry T col pk r = patch ((spatialEntries T pk (spatialComputeMbr T col r)).map Prod.fst) [] := by
  rw [delSpatialEntry]
  cases spatialComputeMbr T col r <;> rfl

theorem writeIndex_eq {pk : Bytes} {buf : Row ι} (hPk : pkFromRecord T pk buf = pk) (x : IndexShape ι) :
    writeIndex T pk buf x = patch [] (entries T pk buf x) := by
  cases x with
  | regular u parts =>
    rw [writeIndex, secIdxKey, hPk]
    rfl
  | fulltext cols tokenize =>
    simp only [writeIndex, entries, ftsEntries, patch, List.map_nil, List.nil_append, List.map_map]
    rfl
  | spatial col => exact putSpatialEntry_eq col pk buf

theorem deleteIndex_eq {pk : Bytes} {buf : Row ι} (hPk : pkFromRecord T pk buf = pk) (x : IndexShape ι) :
    deleteIndex T pk buf x = patch ((entries T pk buf x).map Prod.fst) [] := by
  cases x with
  | regular u parts =>
    rw [deleteIndex, secIdxKey, hPk]
    rfl
  | fulltext cols tokenize =>
    simp only [deleteIndex, entries, ftsEntries, patch, List.map_nil, List.append_nil, List.map_map]
    rfl
  | spatial col => exact delSpatialEntry_eq col pk buf

end Entries

section Families

variable {ι β ν : Type} {T : Table ι β}

theorem mem_names_of_family {s : Store Key ν} {f : Family} {key : Bytes} :
    key ∈ (s.names.filterMap fun k => if k.1 = f then some k.2 else none) ↔ s.get (f, key) ≠ none := by
  rw [← Store.mem_names_iff, List.mem_filterMap]
  constructor
  · rintro ⟨⟨f', key'⟩, hMem, hEq⟩
    split at hEq
    · rename_i hFamily
      cases hEq
      cases hFamily
      exact hMem
    · cases hEq
  · exact fun hMem => ⟨_, hMem, if_pos rfl⟩

theorem update_tag (c : Key → Option ν) (i : Nat) (o : Op Bytes ν) :
    (fun k => (tag i o).update c (.idx i, k)) = o.update fun k => c (.idx i, k) := by
  funext k
  cases o <;> simp [tag, Op.update, Function.update_apply]

theorem updateAll_tag_self (c : Key → Option ν) (i : Nat) (ops : List (Op Bytes ν)) (key : Bytes) :
    updateAll c (ops.map (tag i)) (.idx i, key) = updateAll (fun k => c (.idx i, k)) ops key := by
  induction ops generalizing c with
  | nil => rfl
  | cons o ops ih =>
    rw [List.map_cons, updateAll, List.foldl_cons, ← updateAll, ih, update_tag]
    rfl

theorem mem_keys_tag {j : Nat} {ops : List (Op Bytes ν)} {key : Bytes} {f : Family}
    (h : (f, key) ∈ keys (ops.map (tag j))) : f = .idx j ∧ key ∈ keys ops := by
  obtain ⟨o, ho, hKey⟩ := List.mem_map.mp h
  obtain ⟨o, ho', rfl⟩ := List.mem_map.mp ho
  cases o <;> cases hKey <;> exact ⟨rfl, List.mem_map.mpr ⟨_, ho', rfl⟩⟩

theorem updateAll_tag_ne (c : Key → Option ν) {i j : Nat} (hNe : i ≠ j) (ops : List (Op Bytes ν)) (key : Bytes) :
    updateAll c (ops.map (tag j)) (.idx i, key) = c (.idx i, key) := by
  refine updateAll_of_notMem c fun hMem => hNe ?_
  cases (mem_keys_tag hMem).1
  rfl

theorem mem_maintain {f : IndexShape ι → List (Op Bytes (Val ι))} {o : Op Key (Val ι)} (h : o ∈ maintain T f) :
    ∃ i x o', T.indexes[i]? = some x ∧ o' ∈ f x ∧ o = tag i o' := by
  obtain ⟨⟨x, i⟩, hx, ho⟩ := List.mem_flatMap.mp h
  obtain ⟨o', ho', rfl⟩ := List.mem_map.mp ho
  exact ⟨i, x, o', List.mem_zipIdx_iff_getElem?.mp hx, ho', rfl⟩

theorem maintain_data (c : Key → Option (Val ι)) (f : IndexShape ι → List (Op Bytes (Val ι))) (key : Bytes) :
    updateAll c (maintain T f) (.data, key) = c (.data, key) := by
  refine updateAll_of_notMem c fun hMem => ?_
  obtain ⟨o, ho, hKey⟩ := List.mem_map.mp hMem
  obtain ⟨i, x, o', -, -, rfl⟩ := mem_maintain ho
  cases o' <;> cases hKey

theorem dataKey_mem_primary {primary : List (Op Key (Val ι))} {f : IndexShape ι → List (Op Bytes (Val ι))} {pk : Bytes}
    (h : dataKey pk ∈ keys (primary ++ maintain T f)) : dataKey pk ∈ keys primary := by
  rw [keys, List.map_append, List.mem_append] at h
  refine h.resolve_right fun hMem => ?_
  obtain ⟨o, ho, hEq⟩ := List.mem_map.mp hMem
  obtain ⟨j, y, o', -, -, rfl⟩ := mem_maintain ho
  cases o' <;> cases hEq

theorem updateAll_zipIdx (f : IndexShape ι → List (Op Bytes (Val ι))) {i : Nat} {x : IndexShape ι} (key : Bytes)
    (l : List (IndexShape ι)) (n : Nat) (c : Key → Option (Val ι)) (hn : n ≤ i) (hx : l[i - n]? = some x) :
    updateAll c ((l.zipIdx n).flatMap fun x => (f x.1).map (tag x.2)) (.idx i, key) =
      updateAll (fun k => c (.idx i, k)) (f x) key := by
  induction l generalizing n c with
  | nil => cases hx
  | cons y l ih =>
    rw [List.zipIdx_cons, List.flatMap_cons, updateAll_append]
    obtain rfl | hLt := Nat.eq_or_lt_of_le hn
    · rw [Nat.sub_self, List.getElem?_cons_zero, Option.some.injEq] at hx
      subst hx
      rw [← updateAll_tag_self c n (f y) key]
      refine updateAll_of_notMem _ fun hMem => ?_
      obtain ⟨o, ho, hKey⟩ := List.mem_map.mp hMem
      obtain ⟨⟨z, j⟩, hz, ho⟩ := List.mem_flatMap.mp ho
      have hj : n + 1 ≤ j := (List.mem_zipIdx hz).1
      have hIn : o.key ∈ keys ((f z).map (tag j)) := List.mem_map.mpr ⟨o, ho, rfl⟩
      rw [hKey] at hIn
      cases (mem_keys_tag hIn).1
      exact absurd hj (Nat.not_succ_le_self n)
    · rw [show i - n = i - (n + 1) + 1 by omega, List.getElem?_cons_succ] at hx
      rw [ih (n + 1) _ hLt hx]
      congr 1
      funext k
      exact updateAll_tag_ne c (Nat.ne_of_gt hLt) (f y) k

theorem maintain_idx (c : Key → Option (Val ι)) (f : IndexShape ι → List (Op Bytes (Val ι))) {i : Nat}
    {x : IndexShape ι} (hx : T.indexes[i]? = some x) (key : Bytes) :
    updateAll c (maintain T f) (.idx i, key) = updateAll (fun k => c (.idx i, k)) (f x) key :=
  updateAll_zipIdx f key T.indexes 0 c (Nat.zero_le i) hx

end Families

section Rows

variable {ι : Type}

def dataRow (e : Key × Val ι) : Option (Bytes × Row ι) :=
  match e with
  | ((.data, ns :: pk), .row r) => if ns = keyNsData then some (pk, r) else none
  | _ => none

theorem dataRow_dataKey (pk : Bytes) (r : Row ι) : dataRow (dataKey pk, .row r) = some (pk, r) := by
  simp only [dataKey, dataRow, if_true]

theorem dataRow_eq_some {k : Key} {v : Val ι} {pk : Bytes} {r : Row ι} (h : dataRow (k, v) = some (pk, r)) :
    k = dataKey pk ∧ v = .row r := by
  unfold dataRow at h
  split at h
  · rename_i hEq
    split at h
    · rename_i hNs
      cases h
      cases hEq
      exact ⟨by rw [hNs]; rfl, rfl⟩
    · cases h
  · cases h

def dataRows (view : Store Key (Val ι)) : List (Bytes × Row ι) := view.entries.filterMap dataRow

theorem mem_dataRows {view : Store Key (Val ι)} {pk : Bytes} {r : Row ι} :
    (pk, r) ∈ dataRows view ↔ view.get (dataKey pk) = some (.row r) := by
  rw [dataRows, List.mem_filterMap, ← Store.mem_entries_iff]
  constructor
  · rintro ⟨⟨k, v⟩, he, hRow⟩
    obtain ⟨rfl, rfl⟩ := dataRow_eq_some hRow
    exact he
  · exact fun hMem => ⟨_, hMem, dataRow_dataKey pk r⟩

end Rows

end TideSql.Dml
