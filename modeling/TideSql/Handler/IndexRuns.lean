import TideSql.Handler.RowTtl
import TideSql.Handler.IndexExact

/-!
# Index families over whole runs

Any number of transactions call `write_row`, `update_row` and `delete_row` while the clock goes on.
-/

namespace TideSql.Dml
open KeyCodec SortKey IndexRead Lib Lib.Bytes Lib.Snapshot Lib.Run Lib.Expiry

section Calls

variable {ι β : Type} (T : Table ι β)

def Probes (s : Session) (pkAutoGenerated : Bool) : Prop :=
  T.pkParts.isSome = true ∧ s.skipUnique = false ∧ pkAutoGenerated = false

def CallSettled (x : IndexShape ι) (s : Session) (c : Key → Option (Val ι)) : Call ι → Prop
  | .write gen rowId buf => Fit x buf ∧ (Probes T s gen ∨ c (dataKey (writeBuildPk T rowId buf)) = none)
  | .update currentPk old new ws =>
    c (dataKey currentPk) = some (.row old) ∧ MarksChanges (toUpdate T currentPk old new ws) ∧
      MovesWith (toUpdate T currentPk old new ws) x ∧ Fit x new ∧
      (s.skipUnique = false ∨ pkFromRecord T currentPk new = currentPk ∨
        c (dataKey (pkFromRecord T currentPk new)) = none)
  | .delete currentPk buf => c (dataKey currentPk) = some (.row buf)

variable {T} {i : Nat} {x : IndexShape ι}

theorem pkFromRecord_pkFromRecord (currentPk : Bytes) (r : Row ι) :
    pkFromRecord T (pkFromRecord T currentPk r) r = pkFromRecord T currentPk r := by
  simp only [pkFromRecord]
  cases T.pkParts <;> rfl

theorem writeBuildPk_own (rowId : Nat) (buf : Row ι) :
    pkFromRecord T (writeBuildPk T rowId buf) buf = writeBuildPk T rowId buf :=
  pkFromRecord_pkFromRecord ..

variable {view : Store Key (Val ι)} {ops : List (Op Key (Val ι))} {s : Session}

theorem writeRow_ok {gen : Bool} {rowId : Nat} {buf : Row ι} (h : writeRow T s gen rowId buf view = .ok ops) :
    writeCheckPkUnique T s view (writeBuildPk T rowId buf) (s.skipUnique || gen) = none ∧
      writeCheckSecondaryUnique T s view buf = none ∧
      ops = .put (dataKey (writeBuildPk T rowId buf)) (.row buf) ::
        writeMaintainIndexes T (writeBuildPk T rowId buf) buf := by
  simp only [writeRow] at h
  split at h
  · cases h
  · rename_i hPk
    split at h
    · cases h
    · rename_i hSecondary
      cases h
      exact ⟨hPk, hSecondary, rfl⟩

variable {u : Update ι}

theorem updateRow_ok (h : updateRow T s u view = .ok ops) : (s.skipUnique = false → updateCheckUnique T view u = none) ∧
      ops = updateRewritePrimary u ++ updateMaintainIndexes T u := by
  simp only [updateRow] at h
  split at h
  · cases h
  · rename_i hCheck
    cases h
    refine ⟨fun hOff => ?_, rfl⟩
    rwa [hOff, if_neg Bool.false_ne_true] at hCheck

theorem fresh_of_writeCheckPkUnique {pk : Bytes} {gen : Bool}
    (hReplace : (s.writeCanReplace && T.indexes.isEmpty) = false) (hProbes : Probes T s gen)
    (h : writeCheckPkUnique T s view pk (s.skipUnique || gen) = none) : view.get (dataKey pk) = none := by
  obtain ⟨hPk, hSkip, hGen⟩ := hProbes
  have hSome : T.pkParts.isNone = false := by rw [← Option.not_isSome, hPk, Bool.not_true]
  rw [writeCheckPkUnique, hSome, hSkip, hGen, hReplace] at h
  cases hGet : view.get (dataKey pk) with
  | none => rfl
  | some v => simp [probePkExists, hGet] at h

theorem fresh_of_updateCheckUnique {currentPk : Bytes} {old new : Row ι} {ws : ι → Bool}
    (hMoved : currentPk ≠ pkFromRecord T currentPk new)
    (h : updateCheckUnique T view (toUpdate T currentPk old new ws) = none) :
    view.get (dataKey (pkFromRecord T currentPk new)) = none := by
  have hPk : T.pkParts.isSome = true := by
    rw [pkFromRecord] at hMoved
    cases hParts : T.pkParts with
    | none => simp [hParts] at hMoved
    | some parts => rfl
  rw [updateCheckUnique] at h
  split at h
  · cases h
  · rename_i hProbe
    simpa [Update.pkChanged, toUpdate, hMoved, hPk, probePkExists] using hProbe

theorem anchored_rowOps (primary : List (Op Key (Val ι))) (f : IndexShape ι → List (Op Bytes (Val ι)))
    (hPrimary : ∀ o ∈ primary, ∃ pk, o.key = dataKey pk)
    (hIndex : ∀ y, ∀ o ∈ f y, dataKey (pkOf y o.key) ∈ keys primary) :
    Anchored (group T) dataKey (primary ++ maintain T f) := by
  intro o ho
  rw [keys, List.map_append, List.mem_append]
  left
  obtain ho | ho := List.mem_append.mp ho
  · obtain ⟨pk, hKey⟩ := hPrimary o ho
    rw [hKey, group_dataKey, ← hKey]
    exact List.mem_map.mpr ⟨o, ho, rfl⟩
  · obtain ⟨j, y, o', hy, ho', rfl⟩ := mem_maintain ho
    have hGroup : group T (tag j o').key = pkOf y o'.key := by
      cases o' <;> exact group_idx T hy _
    rw [hGroup]
    exact hIndex y o' ho'

theorem pkOf_patch (pk pk' : Bytes) (r r' : Row ι) {x : IndexShape ι} {dels : List Bytes} {puts : List (Bytes × Val ι)}
    (hDels : ∀ key ∈ dels, key ∈ (entries T pk r x).map Prod.fst) (hPuts : ∀ e ∈ puts, e ∈ entries T pk' r' x)
    {o : Op Bytes (Val ι)} (ho : o ∈ patch dels puts) : pkOf x o.key = pk ∨ pkOf x o.key = pk' := by
  obtain ho | ho := List.mem_append.mp ho
  · obtain ⟨key, hKey, rfl⟩ := List.mem_map.mp ho
    obtain ⟨e, he, rfl⟩ := List.mem_map.mp (hDels key hKey)
    exact .inl (pkOf_entries he)
  · obtain ⟨e, he, rfl⟩ := List.mem_map.mp ho
    exact .inr (pkOf_entries (hPuts e he))

theorem pkOf_updateIndex (hOwn : pkFromRecord T u.newPk u.newData = u.newPk) (y : IndexShape ι) {o : Op Bytes (Val ι)}
    (ho : o ∈ updateIndex T u y) : pkOf y o.key = u.oldPk ∨ pkOf y o.key = u.newPk := by
  cases y with
  | regular b parts =>
    simp only [updateIndex, updateRegularIndex, secIdxKey, hOwn] at ho
    split at ho
    · split at ho
      · cases ho
      · obtain rfl | ho := List.mem_cons.mp ho
        · exact .inl (pkOf_entries (T := T) (r := u.oldData) (x := .regular b parts) List.mem_cons_self)
        · rw [List.mem_singleton.mp ho]
          exact .inr (pkOf_entries (T := T) (r := u.newData) (x := .regular b parts) List.mem_cons_self)
    · cases ho
  | fulltext cols tokenize =>
    have hKeys : (∃ t, o.key = ftsBuildKey t u.oldPk) ∨ ∃ t, o.key = ftsBuildKey t u.newPk := by
      simp only [updateIndex, updateFtsIndex, updateFtsIndexDiff] at ho
      split at ho
      · split at ho
        all_goals
          obtain ho | ho := List.mem_append.mp ho
          · obtain ⟨kv, -, rfl⟩ := List.mem_map.mp ho
            exact .inl ⟨kv.1, rfl⟩
          · obtain ⟨kv, -, rfl⟩ := List.mem_map.mp ho
            exact .inr ⟨kv.1, rfl⟩
      · cases ho
    obtain ⟨t, hKey⟩ | ⟨t, hKey⟩ := hKeys
    · exact .inl (by rw [hKey, pkOf_ftsBuildKey])
    · exact .inr (by rw [hKey, pkOf_ftsBuildKey])
  | spatial col =>
    simp only [updateIndex, updateSpatialIndex, delSpatialEntry_eq, putSpatialEntry_eq] at ho
    split at ho
    · obtain ho | ho := List.mem_append.mp ho
      · exact pkOf_patch _ _ u.oldData u.newData (fun _ h => h) (fun _ h => by cases h) ho
      · exact pkOf_patch u.oldPk _ u.oldData u.newData (fun _ h => by cases h) (fun _ h => h) ho
    · cases ho

theorem dataKey_mem_updateRewritePrimary {pk : Bytes} :
    dataKey pk ∈ keys (updateRewritePrimary u) ↔ pk = u.oldPk ∨ pk = u.newPk := by
  rw [updateRewritePrimary, keys, List.map_append, List.mem_append, Update.pkChanged]
  obtain hSame | hMoved := eq_or_ne u.oldPk u.newPk
  · simp [hSame, Op.key, dataKey_inj]
  · simp [hMoved, Op.key, dataKey_inj]

theorem write_fresh (hx : T.indexes[i]? = some x) {gen : Bool} {rowId : Nat} {buf : Row ι}
    (hSettled : CallSettled T x s view.get (.write gen rowId buf)) (hOk : writeRow T s gen rowId buf view = .ok ops) :
    view.get (dataKey (writeBuildPk T rowId buf)) = none := by
  have hIndexes : T.indexes ≠ [] := fun hNil => by simp [hNil] at hx
  obtain hProbes | hNone := hSettled.2
  · exact fresh_of_writeCheckPkUnique (by simp [hIndexes]) hProbes (writeRow_ok hOk).1
  · exact hNone

theorem update_carried {currentPk : Bytes} {old new : Row ι} {ws : ι → Bool} (h : ∀ pk, Good T i x pk view.get)
    (hSettled : CallSettled T x s view.get (.update currentPk old new ws))
    (hOk : updateRow T s (toUpdate T currentPk old new ws) view = .ok ops) :
    Carried T (toUpdate T currentPk old new ws) x ∧
      (currentPk ≠ pkFromRecord T currentPk new → view.get (dataKey (pkFromRecord T currentPk new)) = none) := by
  obtain ⟨hRow, hMarks, hMoves, hFit, hFree⟩ := hSettled
  obtain ⟨r, hr, -, hFitOld⟩ := (h currentPk).own _ hRow
  cases hr
  refine ⟨carried hMarks hMoves (pkFromRecord_pkFromRecord ..) hFitOld hFit, fun hMoved => ?_⟩
  obtain hOn | hSame | hNone := hFree
  · exact fresh_of_updateCheckUnique hMoved ((updateRow_ok hOk).1 hOn)
  · exact absurd hSame.symm hMoved
  · exact hNone

theorem rowCall_anchored {c : Call ι} (hOk : rowCall T s view c = .ok ops)
    (hDelete : ∀ currentPk buf, c = .delete currentPk buf → pkFromRecord T currentPk buf = currentPk) :
    Anchored (group T) dataKey ops := by
  cases c with
  | write gen rowId buf =>
    obtain ⟨-, -, rfl⟩ := writeRow_ok hOk
    refine anchored_rowOps [.put _ _] _ (fun o ho => ?_) fun y o ho => ?_
    · rw [List.mem_singleton.mp ho]
      exact ⟨_, rfl⟩
    · rw [writeIndex_eq (writeBuildPk_own rowId buf)] at ho
      have hPk := pkOf_patch (writeBuildPk T rowId buf) _ buf _ (fun _ h => by cases h) (fun _ h => h) ho
      rw [or_self_iff.mp hPk]
      exact List.mem_cons_self
  | update currentPk old new ws =>
    obtain ⟨-, rfl⟩ := updateRow_ok hOk
    exact anchored_rowOps _ _ (fun o ho => updateRewritePrimary_key ho) fun y o ho =>
      dataKey_mem_updateRewritePrimary.mpr (pkOf_updateIndex (pkFromRecord_pkFromRecord ..) y ho)
  | delete currentPk buf =>
    cases hOk
    refine anchored_rowOps [.del _] _ (fun o ho => ?_) fun y o ho => ?_
    · rw [List.mem_singleton.mp ho]
      exact ⟨_, rfl⟩
    · rw [deleteIndex_eq (hDelete currentPk buf rfl)] at ho
      have hPk := pkOf_patch _ currentPk _ buf (fun _ h => h) (fun _ h => by cases h) ho
      rw [or_self_iff.mp hPk]
      exact List.mem_cons_self

theorem rowCall_good (hx : T.indexes[i]? = some x) {c : Call ι} (h : ∀ pk, Good T i x pk view.get)
    (hSettled : CallSettled T x s view.get c) (hOk : rowCall T s view c = .ok ops) :
    Anchored (group T) dataKey ops ∧ ∀ pk, Good T i x pk (updateAll view.get ops) := by
  refine ⟨rowCall_anchored hOk fun currentPk buf hEq => ?_, ?_⟩
  · subst hEq
    obtain ⟨r, hr, hOwn, -⟩ := (h currentPk).own _ hSettled
    cases hr
    exact hOwn
  cases c with
  | write gen rowId buf =>
    have hFresh := write_fresh hx hSettled hOk
    obtain ⟨-, -, rfl⟩ := writeRow_ok hOk
    exact good_write hx h (writeBuildPk_own rowId buf) hSettled.1 hFresh
  | update currentPk old new ws =>
    obtain ⟨⟨dels, puts, hCarries⟩, hFresh⟩ := update_carried h hSettled hOk
    obtain ⟨-, rfl⟩ := updateRow_ok hOk
    obtain ⟨hRow, -, -, hFit, -⟩ := hSettled
    exact good_update hx h hCarries hRow (pkFromRecord_pkFromRecord ..) hFit hFresh
  | delete currentPk buf =>
    cases hOk
    exact good_delete hx h hSettled

end Calls

section Samples

inductive Column where
  | x
  | n
  | doc
  | geom
  deriving DecidableEq, Repr

def tinyPart (col : Column) : KeyPart Column := ⟨⟨col, false, .tiny, true, .other, 1⟩, 1, false⟩

def words (doc : Bytes) : List Bytes := (doc.splitOn 0x20).filter (· ≠ [])

def origin : Bytes := [0, 0, 0, 0, 1, 1, 0, 0, 0] ++ List.replicate 16 0

def places : Table Column Unit where
  sorts := ⟨fun _ n v => (v ++ List.replicate n 0).take n, fun _ n v => by simp⟩
  pkParts := some [tinyPart .x]
  indexes := [.regular false [tinyPart .n], .fulltext [.doc] words, .spatial .geom]
  computeMbr g := if g = origin then some () else none
  hilbert _ := 2 ^ 63
  buildValue _ := List.replicate 32 0

def sea : Bytes := [0x73, 0x65, 0x61]

def place (x n : UInt8) : Row Column
  | .x => some [x]
  | .n => some [n]
  | .doc => some sea
  | .geom => some origin

def checked : Session := ⟨false, false⟩

def after (acts : List (Action Unit Column)) : World Unit Key (Val Column) :=
  (run (step places) (init Store.empty) acts).getD (init Store.empty)

theorem only_row {ι : Type} {s : Store Key (Val ι)} (pk : Bytes) (r : Row ι) {pk' : Bytes} {r' : Row ι}
    (hNames : ∀ k ∈ s.names, k.1 = .data → k = dataKey pk) (hGet : s.get (dataKey pk) = some (.row r))
    (h : s.get (dataKey pk') = some (.row r')) : pk' = pk ∧ r' = r := by
  have hMem : dataKey pk' ∈ s.names := by
    rw [Store.mem_names_iff, h]
    exact Option.some_ne_none _
  obtain rfl := dataKey_inj.mp (hNames _ hMem rfl)
  rw [hGet] at h
  cases h
  exact ⟨rfl, rfl⟩

def noTtl : TtlOptions Column := ⟨none, fun _ => 0, 0⟩

theorem rowTtl_noTtl (c : Call Column) : rowTtl noTtl 0 c = none := by
  cases c <;> rfl

def overwriting : List (Action Unit Column) :=
  [.start (), .row () checked (.write true 0 (place 1 1)), .commit (),
    .start (), .row () checked (.write true 0 (place 1 2)), .commit ()]

def moving (ws : Column → Bool) : List (Action Unit Column) :=
  [.start (), .row () checked (.write false 0 (place 1 1)), .commit (),
    .start (), .row () checked (.update [1] (place 1 1) (place 2 1) ws), .commit ()]

/-- The row is put again after five of its ten seconds, and six seconds later the entries of its other columns are gone
before it. -/
def outliving (new : Row Column) (ws : Column → Bool) : List (TimedAction Unit Column) :=
  [.call 10 (.start ()), .call 10 (.row () checked (.write false 0 (place 1 1))), .call 10 (.commit ()), .tick 5,
    .call 10 (.start ()), .call 10 (.row () checked (.update [1] (place 1 1) new ws)), .call 10 (.commit ()), .tick 6]

def afterTicks (acts : List (TimedAction Unit Column)) : Timed Unit Column :=
  (run (timedStep noTtl places) timedInit acts).getD timedInit

/-- The run goes through and commits what the property does not hold of. -/
def Breaks (P : Store Key (Val Column) → Prop) (acts : List (TimedAction Unit Column)) : Prop :=
  run (timedStep noTtl places) timedInit acts = some (afterTicks acts) ∧ ¬P (afterTicks acts).committed

end Samples

section Runs

variable {τ ι β : Type} [DecidableEq τ] {T : Table ι β} {i : Nat} {x : IndexShape ι}

def Settled (T : Table ι β) (x : IndexShape ι) (w : World τ Key (Val ι)) : Action τ ι → Prop
  | .row j s c => ∀ t, w.active j = some t → CallSettled T x s t.view.get c
  | _ => True

theorem step_cases {w w' : World τ Key (Val ι)} {a : Action τ ι} (h : step T w a = some w') :
    w' = w ∨ (∃ b, Snapshot.step w b = some w' ∧ (∀ j ops, b ≠ .write j ops) ∧ ∀ j, b = .commit j → a = .commit j) ∨
      ∃ j s c t ops, a = .row j s c ∧ w.active j = some t ∧ rowCall T s t.view c = .ok ops ∧
        Snapshot.step w (.write j ops) = some w' := by
  cases a with
  | start j => exact .inr (.inl ⟨.start j, h, fun _ _ hEq => (by cases hEq), fun _ hEq => by cases hEq⟩)
  | undo j n => exact .inr (.inl ⟨.undo j n, h, fun _ _ hEq => (by cases hEq), fun _ hEq => by cases hEq⟩)
  | commit j => exact .inr (.inl ⟨.commit j, h, fun _ _ hEq => (by cases hEq), fun _ hEq => by cases hEq; rfl⟩)
  | abort j => exact .inr (.inl ⟨.abort j, h, fun _ _ hEq => (by cases hEq), fun _ hEq => by cases hEq⟩)
  | row j s c =>
    rw [step] at h
    split at h
    · cases h
    · rename_i t ht
      split at h
      · cases h
        exact .inl rfl
      · rename_i ops hOk
        exact .inr (.inr ⟨j, s, c, t, ops, rfl, ht, hOk, h⟩)

theorem good_empty (pk : Bytes) : Good T i x pk (Store.get (Store.empty : Store Key (Val ι))) where
  own _ h := by cases h
  entry_iff _ _ _ := by
    constructor
    · intro h
      cases h
    · intro h
      cases h

theorem kept_step (hx : T.indexes[i]? = some x) {w w' : World τ Key (Val ι)} {a : Action τ ι}
    (h : Kept (group T) dataKey (Good T i x) Store.empty w) (hSettled : Settled T x w a)
      (hStep : step T w a = some w') :
    Kept (group T) dataKey (Good T i x) Store.empty w' := by
  obtain rfl | ⟨b, hStep, hNot, -⟩ | ⟨j, s, c, t, ops, rfl, ht, hOk, hStep⟩ := step_cases hStep
  · exact h
  · exact h.step (good_local hx) (fun j ops hEq => absurd hEq (hNot j ops)) hStep
  · refine h.step (good_local hx) (fun j' ops' hEq => ?_) hStep
    cases hEq
    obtain ⟨hAnchored, hGood⟩ := rowCall_good hx (h.view ht) (hSettled t ht) hOk
    refine ⟨hAnchored, fun t' ht' => ?_⟩
    cases ht.symm.trans ht'
    exact hGood

variable {w : World τ Key (Val ι)}

section

variable (hx : T.indexes[i]? = some x) (h : Reach (step T) (Settled T x) (init Store.empty) w)
include hx h

theorem kept_of_reach : Kept (group T) dataKey (Good T i x) Store.empty w :=
  h.invariant _ (kept_init good_empty) fun _ _ _ => kept_step hx

theorem row_own {s : Store Key (Val ι)} (hs : w.Shows s) {pk : Bytes} {r : Row ι}
    (hRow : s.get (dataKey pk) = some (.row r)) : pkFromRecord T pk r = pk ∧ Fit x r := by
  obtain ⟨r', hr', hOwn⟩ := ((kept_of_reach hx h).shows hs pk).own _ hRow
  cases hr'
  exact hOwn

theorem get_idx_iff {s : Store Key (Val ι)} (hs : w.Shows s) (key : Bytes) (v : Val ι) : s.get (.idx i, key) = some v ↔
      ∃ pk r, s.get (dataKey pk) = some (.row r) ∧ (key, v) ∈ entries T pk r x := by
  rw [((kept_of_reach hx h).shows hs (pkOf x key)).entry_iff key v rfl]
  constructor
  · intro hWanted
    rw [wanted] at hWanted
    split at hWanted
    · rename_i r hRow
      exact ⟨_, r, hRow, hWanted⟩
    · cases hWanted
  · rintro ⟨pk, r, hRow, hEntry⟩
    rw [pkOf_entries hEntry, wanted_of_row hRow]
    exact hEntry

end

theorem reach_moving {guard : World Unit Key (Val Column) → Action Unit Column → Prop}
    (hStart : ∀ w, guard w (.start ())) (hCommit : ∀ w, guard w (.commit ()))
    (hWrite : guard (after [.start ()]) (.row () checked (.write false 0 (place 1 1))))
    (hUpdate : guard (after ((moving fun _ => true).take 4))
      (.row () checked (.update [1] (place 1 1) (place 2 1) fun _ => true))) :
    Reach (step places) guard (init Store.empty) (after (moving fun _ => true)) := by
  have h₁ : Reach (step places) guard (init Store.empty) (after [.start ()]) := .step (.start ()) .init (hStart _) rfl
  have h₂ : Reach (step places) guard (init Store.empty) (after ((moving fun _ => true).take 2)) :=
    h₁.step (.row () checked (.write false 0 (place 1 1))) hWrite rfl
  have h₃ : Reach (step places) guard (init Store.empty) (after ((moving fun _ => true).take 3)) :=
    h₂.step (.commit ()) (hCommit _) rfl
  have h₄ : Reach (step places) guard (init Store.empty) (after ((moving fun _ => true).take 4)) :=
    h₃.step (.start ()) (hStart _) rfl
  have h₅ : Reach (step places) guard (init Store.empty) (after ((moving fun _ => true).take 5)) :=
    h₄.step (.row () checked (.update [1] (place 1 1) (place 2 1) fun _ => true)) hUpdate rfl
  exact h₅.step (.commit ()) (hCommit _) rfl

theorem callSettled_moving {x : IndexShape Column} (hFit : Fit x (place 2 1))
    (hMoves : MovesWith (toUpdate places [1] (place 1 1) (place 2 1) fun _ => true) x) {t : Txn Key (Val Column)}
    (ht : (after ((moving fun _ => true).take 4)).active () = some t) :
    CallSettled places x checked t.view.get (.update [1] (place 1 1) (place 2 1) fun _ => true) := by
  cases ht
  exact ⟨rfl, fun _ hSet => (by cases hSet), hMoves, hFit, .inl rfl⟩

theorem reach_settled_moving {x : IndexShape Column} (hFit : Fit x (place 1 1)) (hFit' : Fit x (place 2 1))
    (hMoves : MovesWith (toUpdate places [1] (place 1 1) (place 2 1) fun _ => true) x) :
    Reach (step places) (Settled places x) (init Store.empty) (after (moving fun _ => true)) :=
  reach_moving (fun _ => trivial) (fun _ => trivial) (fun _ _ => ⟨hFit, .inl ⟨rfl, rfl, rfl⟩⟩) fun _ =>
    callSettled_moving hFit' hMoves

def SecIdxExact (T : Table ι β) (i : Nat) (parts : List (KeyPart ι)) (s : Store Key (Val ι)) : Prop :=
  ∀ key, s.get (.idx i, key) ≠ none ↔ ∃! pk, ∃ r, s.get (dataKey pk) = some (.row r) ∧ key = secIdxKey T parts pk r

def FtsExact (i : Nat) (cols : List ι) (tokenize : Bytes → List Bytes) (s : Store Key (Val ι)) : Prop :=
  ∀ key v, s.get (.idx i, key) = some v ↔ ∃! p : Bytes × Bytes, ∃ r, s.get (dataKey p.2) = some (.row r) ∧
    p.1 ∈ ftsExtractAndTokenize cols tokenize r ∧ key = ftsBuildKey p.1 p.2 ∧
    ∃ tf docLen, v = .bytes (ftsBuildValue tf docLen) ∧ tf.toNat = (ftsExtractAndTokenize cols tokenize r).count p.1 ∧
      docLen.toNat = (ftsExtractAndTokenize cols tokenize r).length

def SpatialExact (T : Table ι β) (i : Nat) (col : ι) (s : Store Key (Val ι)) : Prop :=
  ∀ key v, s.get (.idx i, key) = some v ↔ ∃! pk, ∃ r box, s.get (dataKey pk) = some (.row r) ∧
    spatialComputeMbr T col r = some box ∧ key = spatialBuildKey T box pk ∧ v = .bytes (T.buildValue box)

theorem secIdxExact_of_reach {unique : Bool} {parts : List (KeyPart ι)}
    (hx : T.indexes[i]? = some (.regular unique parts)) {w : World τ Key (Val ι)}
    (h : Reach (step T) (Settled T (.regular unique parts)) (init Store.empty) w) {s : Store Key (Val ι)}
    (hs : w.Shows s) : SecIdxExact T i parts s := by
  intro key
  have hEntry : ∀ {pk r}, s.get (dataKey pk) = some (.row r) → ∀ v : Val ι,
      (key, v) ∈ entries T pk r (.regular unique parts) ↔ key = secIdxKey T parts pk r ∧ v = .bytes tdbEmptyVal := by
    intro pk r hRow v
    rw [entries, List.mem_singleton, Prod.mk.injEq, secIdxKey, (row_own hx h hs hRow).1]
  constructor
  · intro hSome
    obtain ⟨v, hv⟩ := Option.ne_none_iff_exists'.mp hSome
    obtain ⟨pk, r, hRow, hMem⟩ := (get_idx_iff hx h hs key v).mp hv
    refine ⟨pk, ⟨r, hRow, ((hEntry hRow v).mp hMem).1⟩, ?_⟩
    rintro pk' ⟨r', hRow', hKey'⟩
    exact pk_eq_of_entries ((hEntry hRow' _).mpr ⟨hKey', rfl⟩) hMem
  · rintro ⟨pk, ⟨r, hRow, hKey⟩, -⟩
    have hMem := (hEntry hRow _).mpr ⟨hKey, rfl⟩
    rw [(get_idx_iff hx h hs key _).mpr ⟨pk, r, hRow, hMem⟩]
    exact Option.some_ne_none _

/-- Without durations a secondary index has one key for each row that is visible, and no other. -/
theorem secIdx_exact {opts : TtlOptions ι} {unique : Bool} {parts : List (KeyPart ι)}
    (hx : T.indexes[i]? = some (.regular unique parts)) {st : Timed τ ι}
    (h : Reach (timedStep opts T) (NoTtl opts (Settled T (.regular unique parts))) timedInit st)
    {s : Store Key (Cell (Val ι))} (hs : st.world.Shows s) : SecIdxExact T i parts (visible st.now s) :=
  secIdxExact_of_reach hx (reach_plain h).2 (shows_visible h hs)

/-- The generated `n` makes `write_row` take `x` for new: the entry of the row it replaces stays. With a duration the
entry of `n` does not last as long as a row that is put again for another column. -/
theorem secIdx_keeps_overwritten : Breaks (SecIdxExact places 0 [tinyPart .n]) (overwriting.map (.call 0)) ∧
    Breaks (SecIdxExact places 0 [tinyPart .n]) (outliving (Function.update (place 1 1) .doc none) (· = .doc)) := by
  refine ⟨⟨rfl, fun hExact => ?_⟩, rfl, fun hExact => ?_⟩
  · obtain ⟨pk, ⟨r, hRow, hKey⟩, -⟩ := (hExact [1, 1]).mp (by decide)
    obtain ⟨rfl, rfl⟩ := only_row [1] (place 1 2) (by decide) rfl hRow
    revert hKey
    decide
  · have hRow :
      (afterTicks (outliving (Function.update (place 1 1) .doc none) (· = .doc))).committed.get (dataKey [1]) =
        some (.row (Function.update (place 1 1) .doc none)) := rfl
    refine (hExact [1, 1]).mpr ⟨[1], ⟨_, hRow, by decide⟩, ?_⟩ (by decide)
    rintro pk ⟨r, hGet, -⟩
    exact (only_row [1] _ (by decide) hRow hGet).1

theorem secIdx_exact_moving : (Timed.untimed 60 (after (moving fun _ => true))).committed.get (dataKey [2]) ≠ none ∧
    SecIdxExact places 0 [tinyPart .n] (Timed.untimed 60 (after (moving fun _ => true))).committed := by
  have hReach := reach_settled_moving (x := .regular false [tinyPart .n]) trivial trivial trivial
  exact ⟨by decide, secIdx_exact (T := places) rfl (reach_untimed rowTtl_noTtl hReach 60) (.inl rfl)⟩

theorem ftsExact_of_reach {cols : List ι} {tokenize : Bytes → List Bytes}
    (hx : T.indexes[i]? = some (.fulltext cols tokenize)) {w : World τ Key (Val ι)}
    (h : Reach (step T) (Settled T (.fulltext cols tokenize)) (init Store.empty) w) {s : Store Key (Val ι)}
    (hs : w.Shows s) : FtsExact i cols tokenize s := by
  intro key v
  rw [get_idx_iff hx h hs key v]
  constructor
  · rintro ⟨pk, r, hRow, hMem⟩
    have hFit := (row_own hx h hs hRow).2
    obtain ⟨t, ht, hKey, hv⟩ := mem_ftsEntries.mp hMem
    refine ⟨(t, pk), ⟨r, hRow, ht, hKey, _, _, hv, ?_, ?_⟩, ?_⟩
    · exact UInt16.toNat_ofNat_of_lt' (hFit.1 t ht).2
    · exact UInt32.toNat_ofNat_of_lt' hFit.2
    · rintro ⟨t', pk'⟩ ⟨r', hRow', ht', hKey', -⟩
      have hFit' := (row_own hx h hs hRow').2
      obtain ⟨rfl, rfl⟩ := ftsBuildKey_inj (hFit'.1 t' ht').1 (hFit.1 t ht).1 (hKey'.symm.trans hKey)
      rfl
  · rintro ⟨⟨t, pk⟩, ⟨r, hRow, ht, hKey, tf, docLen, hv, hTf, hLen⟩, -⟩
    refine ⟨pk, r, hRow, mem_ftsEntries.mpr ⟨t, ht, hKey, ?_⟩⟩
    rw [hv, ← hTf, ← hLen, UInt16.ofNat_toNat, UInt32.ofNat_toNat]

theorem tokens_place (x n : UInt8) : ftsExtractAndTokenize [.doc] words (place x n) = [sea] := rfl

theorem fit_place (x n : UInt8) : Fit (.fulltext [.doc] words) (place x n) := by
  rw [Fit, tokens_place]
  decide

theorem get_outliving :
    (afterTicks (outliving (place 1 2) (· = .n))).committed.get (dataKey [1]) = some (.row (place 1 2)) := rfl

theorem spatialExact_of_reach {col : ι} (hx : T.indexes[i]? = some (.spatial col)) {w : World τ Key (Val ι)}
    (h : Reach (step T) (Settled T (.spatial col)) (init Store.empty) w) {s : Store Key (Val ι)} (hs : w.Shows s) :
    SpatialExact T i col s := by
  intro key v
  have hEntry : ∀ (pk : Bytes) (r : Row ι), (key, v) ∈ entries T pk r (.spatial col) ↔ ∃ box,
      spatialComputeMbr T col r = some box ∧ key = spatialBuildKey T box pk ∧ v = .bytes (T.buildValue box) := by
    intro pk r
    rw [entries]
    cases spatialComputeMbr T col r with
    | none | some box => simp [spatialEntries]
  rw [get_idx_iff hx h hs key v]
  constructor
  · rintro ⟨pk, r, hRow, hMem⟩
    obtain ⟨box, hBox, hKey, hv⟩ := (hEntry pk r).mp hMem
    refine ⟨pk, ⟨r, box, hRow, hBox, hKey, hv⟩, ?_⟩
    rintro pk' ⟨r', box', hRow', hBox'⟩
    exact pk_eq_of_entries ((hEntry pk' r').mpr ⟨box', hBox'⟩) hMem
  · rintro ⟨pk, ⟨r, box, hRow, hBox⟩, -⟩
    exact ⟨pk, r, hRow, (hEntry pk r).mpr ⟨box, hBox⟩⟩

/-- Without durations a spatial index has one entry for each visible row that has a box, and no other. -/
theorem spatial_exact {opts : TtlOptions ι} {col : ι} (hx : T.indexes[i]? = some (.spatial col)) {st : Timed τ ι}
    (h : Reach (timedStep opts T) (NoTtl opts (Settled T (.spatial col))) timedInit st) {s : Store Key (Cell (Val ι))}
    (hs : st.world.Shows s) : SpatialExact T i col (visible st.now s) :=
  spatialExact_of_reach hx (reach_plain h).2 (shows_visible h hs)

/-- The same statements leave the entry of the old key in the spatial index, and a row without its entry. -/
theorem spatial_keeps_moved : Breaks (SpatialExact places 2 .geom) ((moving (· = .x)).map (.call 0)) ∧
    Breaks (SpatialExact places 2 .geom) (outliving (place 1 2) (· = .n)) := by
  refine ⟨⟨rfl, fun hExact => ?_⟩, rfl, fun hExact => ?_⟩
  · have hEntry : (afterTicks ((moving (· = .x)).map (.call 0))).committed.get (.idx 2, spatialBuildKey places () [1]) =
        some (.bytes (places.buildValue ())) := rfl
    obtain ⟨pk, ⟨r, box, hRow, -, hKey, -⟩, -⟩ := (hExact _ _).mp hEntry
    obtain ⟨rfl, rfl⟩ := only_row [2] (place 2 1) (by decide) rfl hRow
    cases box
    revert hKey
    decide
  · have hEntry := (hExact (spatialBuildKey places () [1]) (.bytes (places.buildValue ()))).mpr
      ⟨[1], ⟨_, (), get_outliving, rfl, rfl, rfl⟩, ?_⟩
    · cases hEntry.symm.trans (rfl : _ = none)
    rintro pk ⟨r, box, hGet, -⟩
    exact (only_row [1] _ (by decide) get_outliving hGet).1

theorem spatial_exact_moving : (Timed.untimed 60 (after (moving fun _ => true))).committed.get (dataKey [2]) ≠ none ∧
    SpatialExact places 2 .geom (Timed.untimed 60 (after (moving fun _ => true))).committed := by
  have hReach := reach_settled_moving (x := .spatial .geom) trivial trivial fun _ => rfl
  exact ⟨by decide, spatial_exact (T := places) rfl (reach_untimed rowTtl_noTtl hReach 60) (.inl rfl)⟩

end Runs

end TideSql.Dml
