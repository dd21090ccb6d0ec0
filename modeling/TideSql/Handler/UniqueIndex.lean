import TideSql.Handler.IndexRuns

/-!
# UNIQUE indexes across transactions

A row is let through when no entry its transaction sees begins with its values.
-/

namespace TideSql.Dml
open KeyCodec SortKey IndexRead Lib Lib.ByteOrder Lib.Bytes Lib.Snapshot Lib.Run List

section Seeks

variable {ι : Type}

theorem le_of_iterSeek {keys : List Bytes} {key k : Bytes} (h : iterSeek keys key = some k) :
    key ≤ k ∧ ∀ k' ∈ keys, key ≤ k' → k ≤ k' := by
  obtain ⟨hLe, as, bs, hSplit, hBefore⟩ := find?_eq_some_iff_append.mp h
  have hSorted := pairwise_insertionSort (· ≤ ·) keys
  rw [hSplit] at hSorted
  obtain ⟨-, hTail, -⟩ := pairwise_append.mp hSorted
  refine ⟨of_decide_eq_true hLe, fun k' hk' hLe' => ?_⟩
  have hMem : k' ∈ keys.insertionSort (· ≤ ·) := (mem_insertionSort _).mpr hk'
  rw [hSplit, mem_append, mem_cons] at hMem
  obtain hAs | rfl | hBs := hMem
  · have hNot := hBefore k' hAs
    simp [hLe'] at hNot
  · exact le_refl _
  · exact rel_of_pairwise_cons hTail hBs

theorem mem_familyKeys {view : Store Key (Val ι)} {i : Nat} {k : Bytes} :
    k ∈ familyKeys view i ↔ view.get (.idx i, k) ≠ none := mem_names_of_family

theorem dupEntry_eq_none_iff {view : Store Key (Val ι)} {i : Nat} {key : Bytes} :
    dupEntry view i key = none ↔ ∀ k, view.get (.idx i, k) ≠ none → ¬key <+: k := by
  constructor
  · intro h k hk hPre
    have hMem := mem_familyKeys.mpr hk
    rw [dupEntry] at h
    split at h
    · rename_i k' hSeek
      split at h
      · cases h
      · rename_i hNot
        obtain ⟨hLe, hLeast⟩ := le_of_iterSeek hSeek
        obtain hLt | rfl := lt_or_eq_of_le (hLeast k hMem (prefix_le hPre))
        · exact not_prefix_of_lt hLe hNot hLt hPre
        · exact hNot hPre
    · rename_i hSeek
      have hNone := find?_eq_none.mp hSeek k ((mem_insertionSort _).mpr hMem)
      exact hNone (decide_eq_true (prefix_le hPre))
  · intro h
    rw [dupEntry]
    split
    · rename_i k hSeek
      have hMem := (mem_insertionSort _).mp (mem_of_find?_eq_some hSeek)
      exact if_neg (h k (mem_familyKeys.mp hMem))
    · rfl

end Seeks

section Checks

variable {ι β : Type} {T : Table ι β}

def SameUnique (T : Table ι β) (parts : List (KeyPart ι)) (r r' : Row ι) : Prop :=
  anyNull parts r = false ∧ anyNull parts r' = false ∧
    makeComparableKey T.sorts parts r = makeComparableKey T.sorts parts r'

theorem SameUnique.symm {parts : List (KeyPart ι)} {r r' : Row ι} (h : SameUnique T parts r r') :
    SameUnique T parts r' r := ⟨h.2.1, h.1, h.2.2.symm⟩

theorem anyNull_of_makeComparableKey {parts : List (KeyPart ι)} {r r' : Row ι}
    (h : makeComparableKey T.sorts parts r = makeComparableKey T.sorts parts r') :
    anyNull parts r = anyNull parts r' := by
  have hParts := makeComparableKey_eq_iff.mp h
  clear h
  induction parts with
  | nil => rfl
  | cons p parts ih =>
    have ih := ih fun q hq => hParts q (mem_cons_of_mem p hq)
    simp only [anyNull, any_cons] at ih ⊢
    rw [ih]
    congr 1
    cases hNullable : p.field.nullable with
    | false => rw [Bool.false_and, Bool.false_and]
    | true => rw [isNone_of_comparablePart (hParts p mem_cons_self) hNullable]

variable {i : Nat} {parts : List (KeyPart ι)} {s : Session} {view : Store Key (Val ι)}

theorem dupEntry_of_writeCheckSecondaryUnique {buf : Row ι} (hx : T.indexes[i]? = some (.regular true parts))
    (hOff : s.skipUnique = false) (h : writeCheckSecondaryUnique T s view buf = none)
    (hNull : anyNull parts buf = false) : dupEntry view i (makeComparableKey T.sorts parts buf) = none := by
  have hNonempty : T.indexes.isEmpty = false := by
    cases hNil : T.indexes with
    | nil => simp [hNil] at hx
    | cons x l => rfl
  rw [writeCheckSecondaryUnique, hNonempty, hOff, Bool.or_self, if_neg Bool.false_ne_true] at h
  have hOne := findSome?_eq_none_iff.mp h (.regular true parts, i) (mem_zipIdx_iff_getElem?.mpr hx)
  simpa [hNull] using hOne

theorem dupEntry_of_updateCheckUnique {u : Update ι} (hx : T.indexes[i]? = some (.regular true parts))
    (h : updateCheckUnique T view u = none) (hNull : anyNull parts u.newData = false)
    (hNe : makeComparableKey T.sorts parts u.oldData ≠ makeComparableKey T.sorts parts u.newData) :
    dupEntry view i (makeComparableKey T.sorts parts u.newData) = none := by
  rw [updateCheckUnique] at h
  split at h
  · cases h
  · have hOne := findSome?_eq_none_iff.mp h (.regular true parts, i) (mem_zipIdx_iff_getElem?.mpr hx)
    simpa [hNull, hNe] using hOne

end Checks

section Covering

variable {ι β : Type} {T : Table ι β} {i : Nat} {parts : List (KeyPart ι)}

structure Covered (T : Table ι β) (i : Nat) (parts : List (KeyPart ι)) (pk : Bytes) (c : Key → Option (Val ι)) :
    Prop where
  own : ∀ v, c (dataKey pk) = some v → ∃ r, v = .row r ∧ pkFromRecord T pk r = pk
  entry : ∀ r, c (dataKey pk) = some (.row r) → c (.idx i, makeComparableKey T.sorts parts r ++ pk) ≠ none

theorem covered_local {unique : Bool} (hx : T.indexes[i]? = some (.regular unique parts)) :
    Local (group T) (Covered T i parts) := by
  intro pk c c' hAgree h
  have hData : c (dataKey pk) = c' (dataKey pk) := hAgree _ (group_dataKey T pk)
  refine ⟨fun v hv => h.own v (hData.trans hv), fun r hr => ?_⟩
  rw [← hAgree _ ((group_idx T hx _).trans ?_)]
  · exact h.entry r (hData.trans hr)
  · exact pkOf_entries (T := T) (r := r) (x := .regular unique parts) mem_cons_self

theorem covered_of_none {pk : Bytes} {c : Key → Option (Val ι)} (h : c (dataKey pk) = none) :
    Covered T i parts pk c where
  own v hv := by
    rw [h] at hv
    cases hv
  entry r hr := by
    rw [h] at hr
    cases hr

theorem covered_of_row {pk : Bytes} {r : Row ι} {c : Key → Option (Val ι)} (h : c (dataKey pk) = some (.row r))
    (hOwn : pkFromRecord T pk r = pk) (hEntry : c (.idx i, makeComparableKey T.sorts parts r ++ pk) ≠ none) :
    Covered T i parts pk c where
  own v hv := by
    rw [h] at hv
    cases hv
    exact ⟨r, rfl, hOwn⟩
  entry r' hr' := by
    rw [h] at hr'
    cases hr'
    exact hEntry

theorem covered_rowOps {unique : Bool} (hx : T.indexes[i]? = some (.regular unique parts))
    {c : Key → Option (Val ι)} (h : ∀ pk, Covered T i parts pk c) (primary : List (Op Key (Val ι)))
    {f : IndexShape ι → List (Op Bytes (Val ι))} (hAnchored : Anchored (group T) dataKey (primary ++ maintain T f))
    (hTouched : ∀ pk, dataKey pk ∈ keys primary → Covered T i parts pk (updateAll c (primary ++ maintain T f)))
    (pk : Bytes) : Covered T i parts pk (updateAll c (primary ++ maintain T f)) := by
  by_cases hMem : dataKey pk ∈ keys primary
  · exact hTouched pk hMem
  · have hNot : dataKey pk ∉ keys (primary ++ maintain T f) := fun hKey => hMem (dataKey_mem_primary hKey)
    exact covered_local hx pk c _ (fun k hk => (hAnchored.unchanged c hNot hk).symm) (h pk)

/-- What the server hands over is the row its transaction sees, and its write set names what it changes. -/
def CallPositioned (T : Table ι β) (c : Key → Option (Val ι)) : Call ι → Prop
  | .write .. => True
  | .update currentPk old new ws =>
    c (dataKey currentPk) = some (.row old) ∧ MarksChanges (toUpdate T currentPk old new ws)
  | .delete currentPk buf => c (dataKey currentPk) = some (.row buf)

theorem updateRegularIndex_entry {c : Bytes → Option (Val ι)} {u : Update ι} (hMarks : MarksChanges u)
    (hOwn : pkFromRecord T u.newPk u.newData = u.newPk)
    (hOld : c (makeComparableKey T.sorts parts u.oldData ++ u.oldPk) ≠ none) :
    updateAll c (updateRegularIndex T u parts) (makeComparableKey T.sorts parts u.newData ++ u.newPk) ≠ none := by
  obtain ⟨dels, puts, hCarries⟩ := carried_regular (T := T) hMarks hOwn true parts
  have hOps : updateRegularIndex T u parts = patch dels puts := hCarries.ops_eq
  obtain ⟨v, hv⟩ := Option.ne_none_iff_exists'.mp hOld
  rw [hOps]
  obtain hPut | ⟨hNot, hDel, hMem⟩ := (hCarries.right _ (.bytes tdbEmptyVal)).mpr mem_cons_self
  · rw [(updateAll_patch c dels (functional_of_nodup hCarries.nodup) _ _).mpr (.inl hPut)]
    exact Option.some_ne_none _
  · rw [entries, mem_singleton, Prod.mk.injEq] at hMem
    rw [← hMem.1] at hv
    rw [(updateAll_patch c dels (functional_of_nodup hCarries.nodup) _ v).mpr (.inr ⟨hNot, hDel, hv⟩)]
    exact Option.some_ne_none _

theorem rowCall_covered {unique : Bool} (hx : T.indexes[i]? = some (.regular unique parts)) {s : Session}
    {view : Store Key (Val ι)} {c : Call ι} {ops : List (Op Key (Val ι))} (h : ∀ pk, Covered T i parts pk view.get)
    (hPositioned : CallPositioned T view.get c) (hOk : rowCall T s view c = .ok ops) :
    Anchored (group T) dataKey ops ∧ ∀ pk, Covered T i parts pk (updateAll view.get ops) := by
  have hAnchored : Anchored (group T) dataKey ops := by
    refine rowCall_anchored hOk fun currentPk buf hEq => ?_
    subst hEq
    obtain ⟨r, hr, hOwn⟩ := (h currentPk).own _ hPositioned
    cases hr
    exact hOwn
  refine ⟨hAnchored, ?_⟩
  cases c with
  | write gen rowId buf =>
    obtain ⟨-, -, rfl⟩ := writeRow_ok hOk
    refine covered_rowOps hx h [.put _ _] hAnchored fun pk hMem => ?_
    obtain rfl := dataKey_inj.mp (mem_singleton.mp hMem)
    refine covered_of_row ((write_data ..).trans (if_pos rfl)) (writeBuildPk_own rowId buf) ?_
    rw [rowOps_idx hx view.get (forall_mem_singleton.mpr rfl), writeIndex, secIdxKey, writeBuildPk_own,
      updateAll_cons, updateAll_nil, Op.update_put_self]
    exact Option.some_ne_none _
  | update currentPk old new ws =>
    obtain ⟨hRow, hMarks⟩ := hPositioned
    obtain ⟨-, rfl⟩ := updateRow_ok hOk
    set u := toUpdate T currentPk old new ws
    have hOwn : pkFromRecord T u.newPk u.newData = u.newPk := pkFromRecord_pkFromRecord ..
    refine covered_rowOps hx h _ hAnchored fun pk hMem => ?_
    have hData := update_data (T := T) view.get u pk
    obtain rfl | hNew := eq_or_ne pk u.newPk
    · refine covered_of_row (hData.trans (if_pos rfl)) hOwn ?_
      intro hNone
      refine updateRegularIndex_entry (c := fun k => view.get (.idx i, k)) hMarks hOwn ((h currentPk).entry old hRow) ?_
      exact (update_idx hx view.get u _).symm.trans hNone
    · have hOld : pk = u.oldPk := (dataKey_mem_updateRewritePrimary.mp hMem).resolve_right hNew
      exact covered_of_none (hData.trans ((if_neg hNew).trans (if_pos hOld)))
  | delete currentPk buf =>
    cases hOk
    refine covered_rowOps hx h [.del _] hAnchored fun pk hMem => ?_
    obtain rfl := dataKey_inj.mp (mem_singleton.mp hMem)
    exact covered_of_none ((delete_data ..).trans (if_pos rfl))

end Covering

section Unique

variable {ι β : Type} {T : Table ι β} {i : Nat} {parts : List (KeyPart ι)}

def Unique (T : Table ι β) (parts : List (KeyPart ι)) (c : Key → Option (Val ι)) : Prop :=
  ∀ pk r pk' r', c (dataKey pk) = some (.row r) → c (dataKey pk') = some (.row r') → SameUnique T parts r r' → pk = pk'

theorem unique_of_put {c c' : Key → Option (Val ι)} (hUnique : Unique T parts c) (pk : Bytes) (r : Row ι)
    (hSelf : ∀ r', c' (dataKey pk) = some (.row r') → r' = r)
    (hOther : ∀ p r', p ≠ pk → c' (dataKey p) = some (.row r') →
      c (dataKey p) = some (.row r') ∧ ¬SameUnique T parts r r') : Unique T parts c' := by
  intro p₁ r₁ p₂ r₂ h₁ h₂ hSame
  obtain rfl | hNe₁ := eq_or_ne p₁ pk
  · obtain rfl | hNe₂ := eq_or_ne p₂ p₁
    · rfl
    · rw [hSelf r₁ h₁] at hSame
      exact absurd hSame (hOther p₂ r₂ hNe₂ h₂).2
  · obtain rfl | hNe₂ := eq_or_ne p₂ pk
    · rw [hSelf r₂ h₂] at hSame
      exact absurd hSame.symm (hOther p₁ r₁ hNe₁ h₁).2
    · exact hUnique p₁ r₁ p₂ r₂ (hOther p₁ r₁ hNe₁ h₁).1 (hOther p₂ r₂ hNe₂ h₂).1 hSame

theorem not_sameUnique_of_dupEntry {view : Store Key (Val ι)} {p : Bytes} {r r' : Row ι}
    (hCovered : Covered T i parts p view.get) (hDup : dupEntry view i (makeComparableKey T.sorts parts r) = none)
    (hRow : view.get (dataKey p) = some (.row r')) : ¬SameUnique T parts r r' := by
  rintro ⟨-, -, hKey⟩
  refine dupEntry_eq_none_iff.mp hDup _ (hCovered.entry r' hRow) ?_
  rw [hKey]
  exact prefix_append _ _

theorem rowCall_unique (hx : T.indexes[i]? = some (.regular true parts)) {s : Session} {view : Store Key (Val ι)}
    {c : Call ι} {ops : List (Op Key (Val ι))} (hCovered : ∀ pk, Covered T i parts pk view.get)
    (hUnique : Unique T parts view.get) (hOff : s.skipUnique = false) (hPositioned : CallPositioned T view.get c)
    (hOk : rowCall T s view c = .ok ops) : Unique T parts (updateAll view.get ops) := by
  cases c with
  | write gen rowId buf =>
    obtain ⟨-, hCheck, rfl⟩ := writeRow_ok hOk
    refine unique_of_put hUnique (writeBuildPk T rowId buf) buf (fun r' hr' => ?_) fun p r' hNe hr' => ?_
    · rw [write_data, if_pos rfl] at hr'
      cases hr'
      rfl
    · rw [write_data, if_neg hNe] at hr'
      refine ⟨hr', fun hSame => ?_⟩
      have hDup := dupEntry_of_writeCheckSecondaryUnique hx hOff hCheck hSame.1
      exact not_sameUnique_of_dupEntry (hCovered p) hDup hr' hSame
  | update currentPk old new ws =>
    obtain ⟨hRow, -⟩ := hPositioned
    obtain ⟨hCheck, rfl⟩ := updateRow_ok hOk
    refine unique_of_put hUnique (pkFromRecord T currentPk new) new (fun r' hr' => ?_)
      fun p r' hNe hr' => ?_
    · have hNew : some (Val.row new) = some (Val.row r') := ((update_data ..).trans (if_pos rfl)).symm.trans hr'
      cases hNew
      rfl
    · rw [update_data, if_neg (show p ≠ (toUpdate T currentPk old new ws).newPk from hNe)] at hr'
      split at hr'
      · cases hr'
      · rename_i hOld
        refine ⟨hr', fun hSame => ?_⟩
        by_cases hKey : makeComparableKey T.sorts parts old = makeComparableKey T.sorts parts new
        · -- the value is not new: the row itself had it, so no other has
          have hNull := (anyNull_of_makeComparableKey hKey).trans hSame.1
          exact hOld (hUnique p r' currentPk old hr' hRow ⟨hSame.2.1, hNull, hSame.2.2.symm.trans hKey.symm⟩)
        · have hDup := dupEntry_of_updateCheckUnique hx (hCheck hOff) hSame.1 hKey
          exact not_sameUnique_of_dupEntry (hCovered p) hDup hr' hSame
  | delete currentPk buf =>
    cases hOk
    intro p₁ r₁ p₂ r₂ h₁ h₂
    rw [delete_data] at h₁ h₂
    split at h₁
    · cases h₁
    · split at h₂
      · cases h₂
      · exact hUnique p₁ r₁ p₂ r₂ h₁ h₂

end Unique

section Runs

variable {τ ι β : Type} [DecidableEq τ] {T : Table ι β} {i : Nat} {parts : List (KeyPart ι)}

/-- No transaction that has committed since this one began put a row with a value that this one put under
another key. -/
def CommitApart (T : Table ι β) (parts : List (KeyPart ι)) (w : World τ Key (Val ι)) (t : Txn Key (Val ι)) : Prop :=
  ∀ ops ∈ w.log.drop t.begun, ∀ pk r pk' r', .put (dataKey pk) (.row r) ∈ t.ops →
    .put (dataKey pk') (.row r') ∈ ops → SameUnique T parts r r' → pk = pk'

/-- Uniqueness is checked, rows are handed over as they are seen, and no commit meets its own value. -/
def Apart (T : Table ι β) (parts : List (KeyPart ι)) (w : World τ Key (Val ι)) : Action τ ι → Prop
  | .row j s c => s.skipUnique = false ∧ ∀ t, w.active j = some t → CallPositioned T t.view.get c
  | .commit j => ∀ t, w.active j = some t → CommitApart T parts w t
  | _ => True

omit [DecidableEq τ] in
theorem row_seen_or_put {s₀ : Store Key (Val ι)} {w : World τ Key (Val ι)} (h : Coherent s₀ w) {j : τ}
    {t : Txn Key (Val ι)} (ht : w.active j = some t) {pk : Bytes} {r : Row ι} (hNot : dataKey pk ∉ keys t.ops)
    (hRow : updateAll w.committed.get t.ops (dataKey pk) = some (.row r)) :
    w.committed.get (dataKey pk) = some (.row r) ∧ (t.view.get (dataKey pk) = some (.row r) ∨
      ∃ ops ∈ w.log.drop t.begun, .put (dataKey pk) (.row r) ∈ ops) := by
  rw [updateAll_of_notMem _ hNot] at hRow
  refine ⟨hRow, ?_⟩
  rw [(h.since j t ht).2, get_applyAll] at hRow
  rw [Txn.view, get_applyAll, updateAll_of_notMem _ hNot]
  obtain hSeen | hPut := updateAll_origin hRow
  · exact .inl hSeen
  · obtain ⟨ops, hOps, hMem⟩ := mem_flatten.mp hPut
    exact .inr ⟨ops, hOps, hMem⟩

omit [DecidableEq τ] in
theorem unique_publish {s₀ : Store Key (Val ι)} {w : World τ Key (Val ι)} (h : Coherent s₀ w) {j : τ}
    {t : Txn Key (Val ι)} (ht : w.active j = some t) (hCommitted : Unique T parts w.committed.get)
    (hView : Unique T parts t.view.get) (hApart : CommitApart T parts w t) :
    Unique T parts (updateAll w.committed.get t.ops) := by
  have hMine : ∀ {pk}, dataKey pk ∈ keys t.ops →
      updateAll w.committed.get t.ops (dataKey pk) = t.view.get (dataKey pk) := fun hMem => by
    rw [Txn.view, get_applyAll]
    exact updateAll_of_mem _ _ hMem
  -- one of the rows is the transaction's, the other is not
  have hMixed : ∀ {p₁ r₁ p₂ r₂}, dataKey p₁ ∈ keys t.ops → dataKey p₂ ∉ keys t.ops →
      updateAll w.committed.get t.ops (dataKey p₁) = some (.row r₁) →
      updateAll w.committed.get t.ops (dataKey p₂) = some (.row r₂) → SameUnique T parts r₁ r₂ → p₁ = p₂ := by
    intro p₁ r₁ p₂ r₂ hMem hNot h₁ h₂ hSame
    obtain hSeen | ⟨ops, hOps, hPut⟩ := (row_seen_or_put h ht hNot h₂).2
    · exact hView p₁ r₁ p₂ r₂ ((hMine hMem).symm.trans h₁) hSeen hSame
    · exact hApart ops hOps p₁ r₁ p₂ r₂ (put_mem_of_updateAll hMem h₁) hPut hSame
  intro p₁ r₁ p₂ r₂ h₁ h₂ hSame
  by_cases hMem₁ : dataKey p₁ ∈ keys t.ops
  · by_cases hMem₂ : dataKey p₂ ∈ keys t.ops
    · exact hView p₁ r₁ p₂ r₂ ((hMine hMem₁).symm.trans h₁) ((hMine hMem₂).symm.trans h₂) hSame
    · exact hMixed hMem₁ hMem₂ h₁ h₂ hSame
  · by_cases hMem₂ : dataKey p₂ ∈ keys t.ops
    · exact (hMixed hMem₂ hMem₁ h₂ h₁ hSame.symm).symm
    · exact hCommitted p₁ r₁ p₂ r₂ (row_seen_or_put h ht hMem₁ h₁).1 (row_seen_or_put h ht hMem₂ h₂).1 hSame

structure UniqueWorld (T : Table ι β) (i : Nat) (parts : List (KeyPart ι)) (w : World τ Key (Val ι)) : Prop where
  kept : Kept (group T) dataKey (Covered T i parts) Store.empty w
  committed : Unique T parts w.committed.get
  views : Views (fun s ops => Unique T parts (applyAll s ops).get) w

omit [DecidableEq τ] in
theorem uniqueWorld_init : UniqueWorld T i parts (init Store.empty : World τ Key (Val ι)) where
  kept := kept_init fun _ => covered_of_none rfl
  committed _ _ _ _ h := by cases h
  views _ _ h := by cases h

theorem UniqueWorld.step (hx : T.indexes[i]? = some (.regular true parts)) {w w' : World τ Key (Val ι)}
    {a : Action τ ι} (h : UniqueWorld T i parts w) (hApart : Apart T parts w a) (hStep : step T w a = some w') :
    UniqueWorld T i parts w' := by
  obtain rfl | ⟨b, hStep', hNot, hCommit⟩ | ⟨j, s, c, t, ops, rfl, ht, hOk, hStep'⟩ := step_cases hStep
  · exact h
  · refine ⟨h.kept.step (covered_local hx) (fun j ops hEq => absurd hEq (hNot j ops)) hStep', ?_, ?_⟩
    · obtain ⟨hSame, -⟩ | ⟨j, t, rfl, ht, -, hPublished, -⟩ := committed_of_step hStep'
      · exact hSame ▸ h.committed
      · obtain rfl := hCommit j rfl
        rw [hPublished, get_applyAll]
        exact unique_publish h.kept.coherent ht h.committed (h.views.ops ht) (hApart t ht)
    · exact h.views.step h.committed (fun j ops t hEq => absurd hEq (hNot j ops)) hStep'
  · obtain ⟨hOff, hPositioned⟩ := hApart
    have hCall := rowCall_covered hx (h.kept.view ht) (hPositioned t ht) hOk
    refine ⟨h.kept.step (covered_local hx) (fun j' ops' hEq => ?_) hStep', ?_, ?_⟩
    · cases hEq
      refine ⟨hCall.1, fun t' ht' => ?_⟩
      cases ht.symm.trans ht'
      exact hCall.2
    · obtain ⟨hSame, -⟩ | ⟨_, _, hEq, -⟩ := committed_of_step hStep'
      · exact hSame ▸ h.committed
      · cases hEq
    · refine h.views.step h.committed (fun j' ops' t' hEq ht' => ?_) hStep'
      cases hEq
      cases ht.symm.trans ht'
      rw [applyAll_append, get_applyAll]
      exact rowCall_unique hx (h.kept.view ht) (h.views.ops ht) hOff (hPositioned t ht) hOk

/-- No two committed rows that are visible have the same values in a UNIQUE index. -/
theorem unique_across_sessions {opts : TtlOptions ι} (hx : T.indexes[i]? = some (.regular true parts)) {st : Timed τ ι}
    (h : Reach (timedStep opts T) (NoTtl opts (Apart T parts)) timedInit st) : Unique T parts st.committed.get := by
  rw [committed_eq h]
  have hPlain := (reach_plain h).2
  exact (hPlain.invariant (UniqueWorld T i parts) uniqueWorld_init fun _ _ _ => UniqueWorld.step hx).committed

def members : Table Column Unit := { places with indexes := [.regular true [tinyPart .n]] }

def meeting (n n' : UInt8) : List (Action Bool Column) :=
  [.start true, .start false, .row true checked (.write false 0 (place 1 n)),
    .row false checked (.write false 0 (place 2 n')), .commit true, .commit false]

def afterMeeting (n n' : UInt8) (steps : Nat) : World Bool Key (Val Column) :=
  (run (step members) (init Store.empty) ((meeting n n').take steps)).getD (init Store.empty)

def afterTimed (acts : List (TimedAction Bool Column)) : Timed Bool Column :=
  (run (timedStep noTtl members) timedInit acts).getD timedInit

/-- The row is put again after five of its ten seconds, and six seconds later its UNIQUE entry is gone before it. -/
def meetingLate : List (TimedAction Bool Column) :=
  [.call 10 (.start true), .call 10 (.row true checked (.write false 0 (place 1 5))), .tick 5,
    .call 10 (.row true checked (.update [1] (place 1 5) (place 1 5) (· = .doc))), .call 10 (.commit true), .tick 6,
    .call 10 (.start true), .call 10 (.row true checked (.write false 0 (place 2 5))), .call 10 (.commit true)]

/-- The entries of the two rows end in different keys, so the second commit sees no conflict. -/
theorem unique_fails_meeting :
    (run (timedStep noTtl members) timedInit ((meeting 5 5).map (.call 0)) =
        some (afterTimed ((meeting 5 5).map (.call 0))) ∧
      ¬Unique members [tinyPart .n] (afterTimed ((meeting 5 5).map (.call 0))).committed.get) ∧
    run (timedStep noTtl members) timedInit meetingLate = some (afterTimed meetingLate) ∧
      ¬Unique members [tinyPart .n] (afterTimed meetingLate).committed.get := by
  refine ⟨⟨rfl, fun hUnique => ?_⟩, rfl, fun hUnique => ?_⟩
  · cases hUnique [1] (place 1 5) [2] (place 2 5) rfl rfl ⟨rfl, rfl, rfl⟩
  · cases hUnique [1] (place 1 5) [2] (place 2 5) rfl rfl ⟨rfl, rfl, rfl⟩

theorem row_of_put_mem {x n : UInt8} {pk key : Bytes} {r : Row Column} {v : Val Column}
    (h : .put (dataKey pk) (.row r) ∈ [Op.put (dataKey [x]) (.row (place x n)), .put (.idx 0, key) v]) :
    r = place x n := by
  obtain h | h := mem_cons.mp h
  · cases h
    rfl
  · cases mem_singleton.mp h

theorem unique_across_sessions_meeting : (Timed.untimed 60 (afterMeeting 5 6 6)).world.log.length = 2 ∧
    Unique members [tinyPart .n] (Timed.untimed 60 (afterMeeting 5 6 6)).committed.get := by
  refine ⟨rfl, unique_across_sessions (T := members) (i := 0) rfl (reach_untimed rowTtl_noTtl ?_ 60)⟩
  have h₁ : Reach (step members) (Apart members [tinyPart .n]) (init Store.empty) (afterMeeting 5 6 1) :=
    .step (.start true) .init trivial rfl
  have h₂ : Reach (step members) (Apart members [tinyPart .n]) (init Store.empty) (afterMeeting 5 6 2) :=
    h₁.step (.start false) trivial rfl
  have h₃ : Reach (step members) (Apart members [tinyPart .n]) (init Store.empty) (afterMeeting 5 6 3) :=
    h₂.step (.row true checked (.write false 0 (place 1 5))) ⟨rfl, fun _ _ => trivial⟩ rfl
  have h₄ : Reach (step members) (Apart members [tinyPart .n]) (init Store.empty) (afterMeeting 5 6 4) :=
    h₃.step (.row false checked (.write false 0 (place 2 6))) ⟨rfl, fun _ _ => trivial⟩ rfl
  have h₅ : Reach (step members) (Apart members [tinyPart .n]) (init Store.empty) (afterMeeting 5 6 5) := by
    refine h₄.step (.commit true) (fun t ht ops hOps => ?_) rfl
    cases ht
    cases hOps
  refine h₅.step (.commit false) (fun t ht ops hOps pk r pk' r' hPut hPut' hSame => ?_) rfl
  cases ht
  cases mem_singleton.mp hOps
  obtain rfl := row_of_put_mem (n := 6) hPut
  obtain rfl := row_of_put_mem (n := 5) hPut'
  exact absurd hSame.2.2 (by decide)

end Runs

end TideSql.Dml
