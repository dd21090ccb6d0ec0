import TideSql.Handler.UniqueIndex

/-!
# What the uniqueness checks decide

`write_row` and `update_row` look for a duplicate with one seek in each UNIQUE index, and take the first entry
they stand on for an answer.
-/

namespace TideSql.UniqueDecision
open KeyCodec SortKey IndexRead Dml Lib Lib.Snapshot List

section FirstOfAll

variable {α δ : Type} {f : α × Nat → Option δ}

theorem findSome_zipIdx {l : List α} {n : Nat} {d : δ} (h : (l.zipIdx n).findSome? f = some d) :
    ∃ i x, l[i]? = some x ∧ f (x, n + i) = some d ∧ ∀ j < i, ∀ y, l[j]? = some y → f (y, n + j) = none := by
  induction l generalizing n with
  | nil => cases h
  | cons x l ih =>
    rw [zipIdx_cons, findSome?_cons] at h
    cases hx : f (x, n) with
    | some d' =>
      rw [hx] at h
      cases h
      exact ⟨0, x, rfl, hx, fun j hj => absurd hj (Nat.not_lt_zero j)⟩
    | none =>
      rw [hx] at h
      obtain ⟨i, y, hy, hd, hBefore⟩ := ih h
      refine ⟨i + 1, y, hy, by rwa [Nat.add_right_comm] at hd, fun j hj z hz => ?_⟩
      cases j with
      | zero =>
        cases hz
        exact hx
      | succ j =>
        have hNone := hBefore j (Nat.lt_of_succ_lt_succ hj) z hz
        rwa [Nat.add_right_comm] at hNone

end FirstOfAll

section Reports

/-- A duplicate is reported exactly when there is one, and it is one of the first index that has any. -/
structure Reports {α : Type} (taken : Nat → Bytes → Prop) (result : Except DupKey α) : Prop where
  reported_iff : (∃ d, result = .error d) ↔ ∃ i pk, taken i pk
  first {d : DupKey} : result = .error d → ∃ i, d.errkey = some i ∧ taken i d.dupRef ∧ ∀ j < i, ∀ pk, ¬taken j pk

variable {ι β : Type} {T : Table ι β} {taken taken' : Nat → Bytes → Prop}

theorem Reports.congr {α : Type} {result : Except DupKey α} (h : Reports taken result)
    (hSame : ∀ i pk, taken i pk ↔ taken' i pk) : Reports taken' result := by
  have hEq : taken = taken' := funext fun i => funext fun pk => propext (hSame i pk)
  exact hEq ▸ h

def decided {ι : Type} (dup : Option DupKey) (ops : List (Op Key (Val ι))) : Except DupKey (List (Op Key (Val ι))) :=
  match dup with
  | some d => .error d
  | none => .ok ops

theorem reports_findSome {f : IndexShape ι × Nat → Option DupKey} {ops : List (Op Key (Val ι))}
    {result : Except DupKey (List (Op Key (Val ι)))}
    (hResult : result = decided (T.indexes.zipIdx.findSome? f) ops)
    (hSound : ∀ i x d, T.indexes[i]? = some x → f (x, i) = some d → d.errkey = some i ∧ taken i d.dupRef)
    (hComplete : ∀ i pk, taken i pk → ∃ x, T.indexes[i]? = some x ∧ f (x, i) ≠ none) : Reports taken result := by
  subst hResult
  cases hFind : T.indexes.zipIdx.findSome? f with
  | none =>
    have hNone := List.findSome?_eq_none_iff.mp hFind
    have hFree : ¬∃ i pk, taken i pk := by
      rintro ⟨i, pk, hTaken⟩
      obtain ⟨x, hx, hSome⟩ := hComplete i pk hTaken
      exact hSome (hNone (x, i) (List.mem_zipIdx_iff_getElem?.mpr hx))
    constructor
    · exact ⟨fun ⟨_, h⟩ => (by cases h), fun h => absurd h hFree⟩
    · intro d h
      cases h
  | some d =>
    obtain ⟨i, x, hx, hd, hBefore⟩ := findSome_zipIdx hFind
    rw [Nat.zero_add] at hd
    obtain ⟨hErrkey, hTaken⟩ := hSound i x d hx hd
    constructor
    · exact ⟨fun _ => ⟨i, _, hTaken⟩, fun _ => ⟨d, rfl⟩⟩
    · intro d' h
      cases h
      refine ⟨i, hErrkey, hTaken, fun j hj pk hTaken' => ?_⟩
      obtain ⟨y, hy, hSome⟩ := hComplete j pk hTaken'
      have hNone := hBefore j hj y hy
      rw [Nat.zero_add] at hNone
      exact hSome hNone

end Reports

section Entries

variable {ι β : Type} {T : Table ι β} {view : Store Key (Val ι)}

/-- Rows stand under their own keys, and every ordinary index holds exactly their entries. -/
structure Matching (T : Table ι β) (view : Store Key (Val ι)) : Prop where
  own {pk : Bytes} {r : Row ι} : view.get (dataKey pk) = some (.row r) → pkFromRecord T pk r = pk
  exact {i : Nat} {unique : Bool} {parts : List (KeyPart ι)} : T.indexes[i]? = some (.regular unique parts) →
    SecIdxExact T i parts view

def Taken (T : Table ι β) (view : Store Key (Val ι)) (self : Option Bytes) (new : Row ι) (i : Nat) (pk : Bytes) :
    Prop :=
  ∃ parts, T.indexes[i]? = some (.regular true parts) ∧ anyNull parts new = false ∧ self ≠ some pk ∧
    ∃ r, view.get (dataKey pk) = some (.row r) ∧ makeComparableKey T.sorts parts r = makeComparableKey T.sorts parts new

def Changes (T : Table ι β) (old new : Row ι) (i : Nat) : Prop :=
  ∀ unique parts, T.indexes[i]? = some (.regular unique parts) →
    makeComparableKey T.sorts parts old ≠ makeComparableKey T.sorts parts new

theorem get_of_dupEntry {i : Nat} {key ref : Bytes} (h : dupEntry view i key = some ref) :
    view.get (.idx i, key ++ ref) ≠ none := by
  rw [dupEntry] at h
  split at h
  · rename_i k hSeek
    split at h
    · rename_i hBegins
      cases h
      obtain ⟨suffix, rfl⟩ := hBegins
      rw [drop_left]
      exact mem_familyKeys.mp ((mem_insertionSort _).mp (mem_of_find?_eq_some hSeek))
    · cases h
  · cases h

variable {i : Nat} {unique : Bool} {parts : List (KeyPart ι)}

section

variable (h : Matching T view) (hx : T.indexes[i]? = some (.regular unique parts))
include h hx

theorem Matching.row_of_dupEntry {new : Row ι} {ref : Bytes}
    (hDup : dupEntry view i (makeComparableKey T.sorts parts new) = some ref) :
    ∃ r, view.get (dataKey ref) = some (.row r) ∧
      makeComparableKey T.sorts parts r = makeComparableKey T.sorts parts new := by
  obtain ⟨pk, ⟨r, hRow, hKey⟩, -⟩ := (h.exact hx _).mp (get_of_dupEntry hDup)
  rw [secIdxKey, h.own hRow] at hKey
  obtain ⟨hValues, hRef⟩ := append_inj hKey (by rw [length_makeComparableKey, length_makeComparableKey])
  exact ⟨r, hRef ▸ hRow, hValues.symm⟩

theorem Matching.dupEntry_ne_none {new r : Row ι} {pk : Bytes} (hRow : view.get (dataKey pk) = some (.row r))
    (hKey : makeComparableKey T.sorts parts r = makeComparableKey T.sorts parts new) :
    dupEntry view i (makeComparableKey T.sorts parts new) ≠ none := by
  intro hNone
  have hEntry : view.get (.idx i, secIdxKey T parts pk r) ≠ none := by
    refine (h.exact hx _).mpr ⟨pk, ⟨r, hRow, rfl⟩, ?_⟩
    rintro pk' ⟨r', hRow', hKey'⟩
    rw [secIdxKey, secIdxKey, h.own hRow, h.own hRow'] at hKey'
    exact (append_inj hKey' (by rw [length_makeComparableKey, length_makeComparableKey])).2.symm
  refine dupEntry_eq_none_iff.mp hNone _ hEntry ?_
  rw [secIdxKey, hKey]
  exact prefix_append _ _

end

end Entries

section Decision

variable {ι β : Type} {T : Table ι β} {view : Store Key (Val ι)} {s : Session}

def dupIn (T : Table ι β) (view : Store Key (Val ι)) (passes : List (KeyPart ι) → Bool) (new : Row ι)
    (x : IndexShape ι × Nat) : Option DupKey :=
  match x.1 with
  | .regular true parts =>
    if passes parts then none
    else (dupEntry view x.2 (makeComparableKey T.sorts parts new)).map fun ref => ⟨some x.2, ref⟩
  | _ => none

theorem dupIn_eq_some {passes : List (KeyPart ι) → Bool} {new : Row ι} {x : IndexShape ι} {i : Nat} {d : DupKey}
    (h : dupIn T view passes new (x, i) = some d) :
    ∃ parts, x = .regular true parts ∧ passes parts = false ∧ d.errkey = some i ∧
      dupEntry view i (makeComparableKey T.sorts parts new) = some d.dupRef := by
  rw [dupIn] at h
  split at h
  · rename_i parts hEq
    cases hEq
    split at h
    · cases h
    · rename_i hPasses
      obtain ⟨ref, hRef, rfl⟩ := Option.map_eq_some_iff.mp h
      exact ⟨parts, rfl, Bool.eq_false_iff.mpr hPasses, rfl, hRef⟩
  · cases h

theorem reports_dupIn (hMatch : Matching T view) {taken : Nat → Bytes → Prop} {passes : List (KeyPart ι) → Bool}
    {new : Row ι} {ops : List (Op Key (Val ι))} {result : Except DupKey (List (Op Key (Val ι)))}
    (hResult : result = decided (T.indexes.zipIdx.findSome? (dupIn T view passes new)) ops)
    (hTaken : ∀ i pk, taken i pk ↔ ∃ parts, T.indexes[i]? = some (.regular true parts) ∧ passes parts = false ∧
      ∃ r, view.get (dataKey pk) = some (.row r) ∧
        makeComparableKey T.sorts parts r = makeComparableKey T.sorts parts new) :
    Reports taken result := by
  refine reports_findSome hResult (fun i x d hx hd => ?_) fun i pk h => ?_
  · obtain ⟨parts, rfl, hPasses, hErrkey, hDup⟩ := dupIn_eq_some hd
    exact ⟨hErrkey, (hTaken i _).mpr ⟨parts, hx, hPasses, hMatch.row_of_dupEntry hx hDup⟩⟩
  · obtain ⟨parts, hx, hPasses, r, hRow, hKey⟩ := (hTaken i pk).mp h
    refine ⟨_, hx, ?_⟩
    rw [dupIn]
    dsimp only
    rw [hPasses, if_neg Bool.false_ne_true, Ne, Option.map_eq_none_iff]
    exact hMatch.dupEntry_ne_none hx hRow hKey

theorem writeCheckSecondaryUnique_eq (hOn : s.skipUnique = false) (buf : Row ι) :
    writeCheckSecondaryUnique T s view buf =
      T.indexes.zipIdx.findSome? (dupIn T view (fun parts => anyNull parts buf) buf) := by
  rw [writeCheckSecondaryUnique, hOn, Bool.or_false]
  cases hIndexes : T.indexes with
  | nil => rfl
  | cons x l =>
    rw [isEmpty_cons, if_neg Bool.false_ne_true]
    rfl

theorem updateCheckUnique_eq {u : Update ι} (hFree : u.newPk = u.oldPk ∨ view.get (dataKey u.newPk) = none) :
    updateCheckUnique T view u = T.indexes.zipIdx.findSome? (dupIn T view (fun parts => anyNull parts u.newData ||
      makeComparableKey T.sorts parts u.oldData = makeComparableKey T.sorts parts u.newData) u.newData) := by
  have hPk : (u.pkChanged && T.pkParts.isSome && probePkExists view u.newPk) = false := by
    obtain hSame | hNone := hFree
    · simp [Update.pkChanged, hSame]
    · simp [probePkExists, hNone]
  rw [updateCheckUnique, hPk, if_neg Bool.false_ne_true]
  congr 1
  funext x
  obtain ⟨x, i⟩ := x
  cases x with
  | regular unique parts =>
    cases unique with
    | false => rfl
    | true => cases hNull : anyNull parts u.newData <;> simp [dupIn, hNull]
  | fulltext cols tokenize | spatial col => rfl

theorem reports_writeRow (hMatch : Matching T view) (hOn : s.skipUnique = false) (gen : Bool) (rowId : Nat)
    (buf : Row ι) (hFree : view.get (dataKey (writeBuildPk T rowId buf)) = none) :
    Reports (Taken T view none buf) (writeRow T s gen rowId buf view) := by
  have hPk : writeCheckPkUnique T s view (writeBuildPk T rowId buf) (s.skipUnique || gen) = none := by
    rw [writeCheckPkUnique, probePkExists, hFree]
    split
    · rfl
    · rfl
  have hResult : writeRow T s gen rowId buf view =
      decided (T.indexes.zipIdx.findSome? (dupIn T view (fun parts => anyNull parts buf) buf))
        (.put (dataKey (writeBuildPk T rowId buf)) (.row buf) ::
          writeMaintainIndexes T (writeBuildPk T rowId buf) buf) := by
    rw [writeRow, hPk, writeCheckSecondaryUnique_eq hOn]
    rfl
  refine reports_dupIn hMatch hResult fun i pk => ?_
  constructor
  · rintro ⟨parts, hx, hNull, -, hRow⟩
    exact ⟨parts, hx, hNull, hRow⟩
  · rintro ⟨parts, hx, hNull, hRow⟩
    refine ⟨parts, hx, hNull, fun hOwn => ?_, hRow⟩
    cases hOwn

theorem reports_updateRow (hMatch : Matching T view) (hOn : s.skipUnique = false) {currentPk : Bytes} {old new : Row ι}
    (ws : ι → Bool) (hOld : view.get (dataKey currentPk) = some (.row old))
    (hFree : pkFromRecord T currentPk new = currentPk ∨ view.get (dataKey (pkFromRecord T currentPk new)) = none) :
    Reports (fun i pk => Taken T view (some currentPk) new i pk ∧ Changes T old new i)
      (updateRow T s (toUpdate T currentPk old new ws) view) := by
  have hResult : updateRow T s (toUpdate T currentPk old new ws) view =
      decided (T.indexes.zipIdx.findSome? (dupIn T view (fun parts => anyNull parts new ||
        makeComparableKey T.sorts parts old = makeComparableKey T.sorts parts new) new))
        (updateRewritePrimary (toUpdate T currentPk old new ws) ++
          updateMaintainIndexes T (toUpdate T currentPk old new ws)) := by
    rw [updateRow, hOn, if_neg Bool.false_ne_true, updateCheckUnique_eq hFree]
    rfl
  refine reports_dupIn hMatch hResult fun i pk => ?_
  constructor
  · rintro ⟨⟨parts, hx, hNull, -, hRow⟩, hChanges⟩
    exact ⟨parts, hx, by simpa [hNull] using hChanges true parts hx, hRow⟩
  · rintro ⟨parts, hx, hPasses, r, hRow, hKey⟩
    obtain ⟨hNull, hNe⟩ := Bool.or_eq_false_iff.mp hPasses
    have hNe := of_decide_eq_false hNe
    refine ⟨⟨parts, hx, hNull, ?_, r, hRow, hKey⟩, fun unique parts' hx' => ?_⟩
    · -- the row itself has the old values
      rintro ⟨⟩
      rw [hOld] at hRow
      cases hRow
      exact hNe hKey
    · cases hx.symm.trans hx'
      exact hNe

def NoneShared (T : Table ι β) (view : Store Key (Val ι)) : Prop :=
  ∀ (i : Nat) (parts : List (KeyPart ι)), T.indexes[i]? = some (.regular true parts) → Unique T parts view.get

theorem changes_of_taken (hUnique : NoneShared T view) {currentPk pk : Bytes} {old new : Row ι}
    (hOld : view.get (dataKey currentPk) = some (.row old)) {i : Nat}
    (h : Taken T view (some currentPk) new i pk) : Changes T old new i := by
  obtain ⟨parts, hx, hNull, hOther, r, hRow, hKey⟩ := h
  intro unique parts' hx' hSame
  cases hx.symm.trans hx'
  have hNullRow := (anyNull_of_makeComparableKey hKey).trans hNull
  have hNullOld := (anyNull_of_makeComparableKey hSame).trans hNull
  refine hOther (congrArg some ?_)
  exact hUnique i parts hx currentPk old pk r hOld hRow ⟨hNullOld, hNullRow, hSame.trans hKey.symm⟩

/-- An insert is refused exactly for a value that a row has in a UNIQUE index, an update for one it did not have
itself; the first such index is reported. -/
theorem uniqueness_decision (hMatch : Matching T view) (hOn : s.skipUnique = false) :
    (∀ gen rowId buf, view.get (dataKey (writeBuildPk T rowId buf)) = none →
      Reports (Taken T view none buf) (writeRow T s gen rowId buf view)) ∧
    ∀ currentPk old new ws, view.get (dataKey currentPk) = some (.row old) →
      (pkFromRecord T currentPk new = currentPk ∨ view.get (dataKey (pkFromRecord T currentPk new)) = none) →
      Reports (fun i pk => Taken T view (some currentPk) new i pk ∧ Changes T old new i)
        (updateRow T s (toUpdate T currentPk old new ws) view) ∧
      (NoneShared T view →
        Reports (Taken T view (some currentPk) new) (updateRow T s (toUpdate T currentPk old new ws) view)) ∧
      ∀ d i, updateRow T s (toUpdate T currentPk old new ws) view = .error d → d.errkey = some i →
        Changes T old new i := by
  refine ⟨fun gen rowId buf => reports_writeRow hMatch hOn gen rowId buf, fun currentPk old new ws hOld hFree => ?_⟩
  have hReports := reports_updateRow hMatch hOn ws hOld hFree
  refine ⟨hReports, fun hUnique => hReports.congr fun i pk => ?_, fun d i hError hErrkey => ?_⟩
  · exact ⟨fun h => h.1, fun h => ⟨h, changes_of_taken hUnique hOld h⟩⟩
  · obtain ⟨j, hj, hTaken, -⟩ := hReports.first hError
    cases hErrkey.symm.trans hj
    exact hTaken.2

end Decision

section Samples

def sharing : Store Key (Val Column) :=
  (((Store.empty.put (dataKey [1]) (.row (place 1 5))).put (.idx 0, [5, 1]) (.bytes tdbEmptyVal)).put (dataKey [2])
    (.row (place 2 5))).put (.idx 0, [5, 2]) (.bytes tdbEmptyVal)

theorem row_sharing {pk : Bytes} {r : Row Column} (h : sharing.get (dataKey pk) = some (.row r)) :
    ∃ x, pk = [x] ∧ r = place x 5 ∧ x ∈ [1, 2] := by
  simp only [sharing, Store.get_put, dataKey, Prod.mk.injEq, List.cons.injEq, true_and, reduceCtorEq, false_and,
    if_false] at h
  split at h
  · rename_i hPk
    cases h
    exact ⟨2, hPk, rfl, by decide⟩
  · split at h
    · rename_i hPk
      cases h
      exact ⟨1, hPk, rfl, by decide⟩
    · cases h

theorem entry_sharing (key : Bytes) : sharing.get (.idx 0, key) ≠ none ↔ key = [5, 1] ∨ key = [5, 2] := by
  simp only [sharing, Store.get_put, dataKey, Prod.mk.injEq, true_and, reduceCtorEq, false_and, if_false]
  split
  · simp_all
  · split
    · simp_all
    · exact ⟨fun h => absurd rfl h, by simp_all⟩

theorem matching_sharing : Matching members sharing where
  own h := by
    obtain ⟨x, rfl, rfl, -⟩ := row_sharing h
    rfl
  exact {i unique parts} hx key := by
    obtain ⟨rfl, hShape⟩ : i = 0 ∧ IndexShape.regular true [tinyPart .n] = .regular unique parts := by
      cases i with
      | zero => exact ⟨rfl, Option.some.inj hx⟩
      | succ i => cases hx
    cases hShape
    rw [entry_sharing]
    have hOne {x : UInt8} {pk : Bytes} (h : ∃ r, sharing.get (dataKey pk) = some (.row r) ∧
        [5, x] = secIdxKey members [tinyPart .n] pk r) : pk = [x] := by
      obtain ⟨r, hRow, hKey⟩ := h
      obtain ⟨x', rfl, rfl, -⟩ := row_sharing hRow
      cases hKey
      rfl
    constructor
    · rintro (rfl | rfl)
      · exact ⟨[1], ⟨place 1 5, rfl, rfl⟩, fun pk => hOne⟩
      · exact ⟨[2], ⟨place 2 5, rfl, rfl⟩, fun pk => hOne⟩
    · rintro ⟨pk, ⟨r, hRow, rfl⟩, -⟩
      obtain ⟨x, rfl, rfl, hx⟩ := row_sharing hRow
      obtain rfl | rfl := List.mem_pair.mp hx
      · exact .inl rfl
      · exact .inr rfl

theorem uniqueness_decision_third : (∃ d, writeRow members checked false 0 (place 3 5) sharing = .error d) ∧
      Reports (Taken members sharing none (place 3 5)) (writeRow members checked false 0 (place 3 5) sharing) :=
  ⟨⟨⟨some 0, [1]⟩, rfl⟩, (uniqueness_decision matching_sharing rfl).1 false 0 (place 3 5) rfl⟩

/-- A row keeps the value it shares while its primary key moves, and no duplicate is reported. -/
theorem shared_value_kept : Matching members sharing ∧ sharing.get (dataKey [1]) = some (.row (place 1 5)) ∧
      sharing.get (dataKey (pkFromRecord members [1] (place 3 5))) = none ∧
      ¬Reports (Taken members sharing (some [1]) (place 3 5))
        (updateRow members checked (toUpdate members [1] (place 1 5) (place 3 5) fun _ => true) sharing) := by
  refine ⟨matching_sharing, rfl, rfl, fun h => ?_⟩
  have hTaken : Taken members sharing (some [1]) (place 3 5) 0 [2] :=
    ⟨[tinyPart .n], rfl, rfl, by decide, place 2 5, rfl, rfl⟩
  obtain ⟨d, hError⟩ := h.reported_iff.mpr ⟨0, [2], hTaken⟩
  cases hError

end Samples

end TideSql.UniqueDecision
