import TideSql.Handler.Connection
import TideSql.Handler.IndexRuns

/-!
# DELETE without WHERE

The server may hand such a statement to `delete_all_rows` in place of a `delete_row` for each row.
-/

namespace TideSql.DeleteAll
open Dml KeyCodec SortKey IndexRead Txn StmtSavepoint Connection Lib Lib.Snapshot List

abbrev TableKey (τ : Type) := τ × Dml.Key
abbrev Content (τ ι : Type) := Store (TableKey τ) (Val ι)
abbrev Write (τ ι : Type) := Op (TableKey τ) (Val ι)
abbrev ConnTrx (τ ι κ : Type) := FtsTrx (Content τ ι) (Write τ ι) κ

def onTable {τ ι : Type} (tab : τ) : Op Dml.Key (Val ι) → Write τ ι
  | .put k v => .put (tab, k) v
  | .del k => .del (tab, k)

structure Enforced (τ ι κ : Type) where
  writes : List (Write τ ι)
  deltas : List (FtsMetaDelta κ)
  ok : Bool

structure Target (τ ι β κ : Type) where
  tab : τ
  table : Table ι β
  /-- `fk_enforce_parent_delete`: a child row blocks it, or is changed along with the row. -/
  fkEnforceParentDelete : Content τ ι → Bytes → Row ι → Enforced τ ι κ
  deltas : Row ι → List (FtsMetaDelta κ)
  metaPut : FtsMetaDelta κ → Write τ ι
  optionsKey : Bytes
  optionsVal : Bytes

section Model

variable {τ ι β κ : Type} [DecidableEq τ] [DecidableEq κ] (E : Target τ ι β κ)

def viewOf (trx : ConnTrx τ ι κ) : Content τ ι :=
  match trx.txn with
  | some t => applyAll t.snapshot t.ops
  | none => Store.empty

def deleteRow (pk : Bytes) (buf : Row ι) (trx : ConnTrx τ ι κ) : Bool × ConnTrx τ ι κ :=
  let fk := E.fkEnforceParentDelete (viewOf trx) pk buf
  let trx := StmtSavepoint.writeRow fk.writes fk.deltas trx
  if fk.ok then
    (true, StmtSavepoint.writeRow ((Dml.deleteRow E.table pk buf).map (onTable E.tab)) (E.deltas buf) trx)
  else (false, trx)

/-- The rows of the scan, up to the first that cannot be deleted. One that a cascade has removed is
no longer there to be read. -/
def deleteEach : List (Bytes × Row ι) → ConnTrx τ ι κ → Bool × ConnTrx τ ι κ
  | [], trx => (true, trx)
  | (pk, buf) :: rows, trx =>
    if ((viewOf trx).get (E.tab, dataKey pk)).isNone then deleteEach rows trx
    else
      let r := deleteRow E pk buf trx
      if r.1 then deleteEach rows r.2 else r

def tableRows (tab : τ) (content : Content τ ι) : List (Bytes × Row ι) :=
  content.entries.filterMap fun e => if e.1.1 = tab then dataRow (e.1.2, e.2) else none

def recreated (content : Content τ ι) : Content τ ι :=
  (content.dropAll (content.names.filter (·.1 = E.tab))).put (E.tab, .data, E.optionsKey) (.bytes E.optionsVal)

def publish (content : Content τ ι) : LibCall (Content τ ι) (Write τ ι) → Content τ ι
  | .commit t true | .commitPrepared t true => applyAll content t.ops
  | _ => content

structure Outcome (τ ι κ : Type) where
  ok : Bool
  pending : Pending (Write τ ι) κ
  afterCommit : TableKey τ → Option (Val ι)
  afterRollback : TableKey τ → Option (Val ι)

def outcome (content : Content τ ι) (r : Bool × ConnTrx τ ι κ) : Outcome τ ι κ :=
  let stmtEnd :=
    if r.1 then tidesdbCommit E.metaPut false true .fine r.2 else Connection.tidesdbRollback false true .fine r.2
  let trx := stmtEnd.haData.getD r.2
  ⟨r.1, trx.pending, ((tidesdbCommit E.metaPut true true .fine trx).calls.foldl publish content).get,
    ((Connection.tidesdbRollback true true .fine trx).calls.foldl publish content).get⟩

def byRows (content : Content τ ι) (trx : ConnTrx τ ι κ) : Outcome τ ι κ :=
  outcome E content (deleteEach E (tableRows E.tab (viewOf trx)) trx)

def byDeleteAllRows (content : Content τ ι) (trx : ConnTrx τ ι κ) : Outcome τ ι κ :=
  let d := deleteAllRows trx
  outcome E (recreated E content) (d.ok, d.haData.getD trx)

end Model

section Compare

variable {τ ι β κ : Type} [DecidableEq κ] {E : Target τ ι β κ} {trx : ConnTrx τ ι κ}

def Occupied (trx : ConnTrx τ ι κ) : Prop := Live trx ∧ trx.pending ≠ .empty

theorem occupied_writeRow (hLive : Live trx) (w : Write τ ι) (ws : List (Write τ ι)) (deltas : List (FtsMetaDelta κ)) :
    Occupied (StmtSavepoint.writeRow (w :: ws) deltas trx) := by
  refine ⟨hLive.writeRow _ deltas, fun hEmpty => ?_⟩
  rw [pending_writeRow hLive] at hEmpty
  have hWrites := congrArg Pending.writes hEmpty
  exact cons_ne_nil _ _ (append_eq_nil_iff.mp hWrites).2

variable [DecidableEq τ]

theorem deleteEach_there {pk : Bytes} {v : Val ι} (h : (viewOf trx).get (E.tab, dataKey pk) = some v) (buf : Row ι)
    (rows : List (Bytes × Row ι)) :
    deleteEach E ((pk, buf) :: rows) trx =
      if (deleteRow E pk buf trx).1 then deleteEach E rows (deleteRow E pk buf trx).2 else deleteRow E pk buf trx := by
  rw [deleteEach, h, Option.isNone_some, if_neg Bool.false_ne_true]

theorem occupied_deleteRow (hLive : Live trx) {pk : Bytes} {buf : Row ι} (hOk : (deleteRow E pk buf trx).1 = true) :
    Occupied (deleteRow E pk buf trx).2 := by
  rw [deleteRow] at hOk ⊢
  split
  · exact occupied_writeRow (hLive.writeRow _ _) _ _ _
  · rename_i hFk
    rw [if_neg hFk] at hOk
    cases hOk

theorem deleteEach_occupied (rows : List (Bytes × Row ι)) (h : Occupied trx)
    (hOk : (deleteEach E rows trx).1 = true) : Occupied (deleteEach E rows trx).2 := by
  induction rows generalizing trx with
  | nil => exact h
  | cons row rows ih =>
    obtain ⟨pk, buf⟩ := row
    cases hThere : (viewOf trx).get (E.tab, dataKey pk) with
    | none =>
      rw [deleteEach, hThere, Option.isNone_none, if_pos rfl] at hOk ⊢
      exact ih h hOk
    | some v =>
      rw [deleteEach_there hThere] at hOk ⊢
      split at hOk
      · rename_i hRow
        rw [if_pos hRow]
        exact ih (occupied_deleteRow h.1 hRow) hOk
      · rename_i hRow
        exact absurd hOk hRow

theorem mem_tableRows {content : Content τ ι} {tab : τ} {pk : Bytes} {r : Row ι} :
    (pk, r) ∈ tableRows tab content ↔ content.get (tab, dataKey pk) = some (.row r) := by
  rw [tableRows, mem_filterMap, ← Store.mem_entries_iff]
  constructor
  · rintro ⟨⟨⟨tab', k⟩, v⟩, he, hRow⟩
    split at hRow
    · rename_i hTab
      cases hTab
      obtain ⟨rfl, rfl⟩ := dataRow_eq_some hRow
      exact he
    · cases hRow
  · exact fun hMem => ⟨_, hMem, (if_pos rfl).trans (dataRow_dataKey pk r)⟩

theorem deleteEach_cases (hLive : Live trx) (hOk : (deleteEach E (tableRows E.tab (viewOf trx)) trx).1 = true) :
    Occupied (deleteEach E (tableRows E.tab (viewOf trx)) trx).2 ∨
      trx.pending = .empty ∧ tableRows E.tab (viewOf trx) = [] := by
  by_cases hPending : trx.pending = .empty
  · cases hRows : tableRows E.tab (viewOf trx) with
    | nil => exact .inr ⟨hPending, rfl⟩
    | cons row rows =>
      have hThere : (viewOf trx).get (E.tab, dataKey row.1) = some (.row row.2) :=
        mem_tableRows.mp (hRows ▸ mem_cons_self)
      rw [hRows, deleteEach_there hThere] at hOk
      rw [deleteEach_there hThere]
      split at hOk
      · rename_i hRow
        rw [if_pos hRow]
        exact .inl (deleteEach_occupied rows (occupied_deleteRow hLive hRow) hOk)
      · rename_i hRow
        exact absurd hOk hRow
  · exact .inl (deleteEach_occupied _ ⟨hLive, hPending⟩ hOk)

omit [DecidableEq κ] in
theorem pending_stmtSavepointDisarm {σ ω : Type} (releaseOk : Bool) (trx : FtsTrx σ ω κ) :
    (StmtSavepoint.stmtSavepointDisarm releaseOk trx).pending = trx.pending := by
  obtain ⟨⟨txn, dirty, active, needsReset, gen⟩, pending, ftsDirty, fts, dirtySnapshot⟩ := trx
  cases active <;> cases releaseOk <;> cases txn <;> rfl

omit [DecidableEq κ] in
theorem outcome_pending (hLive : Live trx) (content : Content τ ι) :
    (outcome E content (true, trx)).pending = trx.pending := by
  obtain ⟨⟨txn, dirty, active, needsReset, gen⟩, pending, ftsDirty, fts, dirtySnapshot⟩ := trx
  cases txn with
  | none => cases hLive.txn
  | some t => exact pending_stmtSavepointDisarm true _

omit [DecidableEq κ] in
theorem outcome_of_empty (h : trx.pending = .empty) (content : Content τ ι) :
    outcome E content (true, trx) = ⟨true, .empty, content.get, content.get⟩ := by
  obtain ⟨⟨txn, dirty, active, needsReset, gen⟩, pending, ftsDirty, fts, dirtySnapshot⟩ := trx
  simp only [FtsTrx.pending, Pending.empty, Pending.mk.injEq] at h
  obtain ⟨hOps, rfl, rfl⟩ := h
  cases txn with
  | none => rfl
  | some t =>
    obtain ⟨id, snapshot, ops, savepoints, prepared⟩ := t
    cases hOps
    cases active <;> cases dirty <;> cases prepared <;> rfl

omit [DecidableEq κ] in
theorem byDeleteAllRows_eq (hLive : Live trx) (content : Content τ ι) :
    byDeleteAllRows E content trx = ⟨true, .empty, (recreated E content).get, (recreated E content).get⟩ := by
  obtain ⟨⟨txn, dirty, active, needsReset, gen⟩, pending, ftsDirty, fts, dirtySnapshot⟩ := trx
  cases txn with
  | none => cases hLive.txn
  | some t => exact outcome_of_empty rfl _

omit [DecidableEq κ] in
theorem get_recreated (content : Content τ ι) (tab : τ) (k : Dml.Key) : (recreated E content).get (tab, k) =
      if tab = E.tab then if k = (.data, E.optionsKey) then some (.bytes E.optionsVal) else none
      else content.get (tab, k) := by
  simp only [recreated, Store.get_put, Store.get_dropAll, mem_filter, Store.mem_names_iff, decide_eq_true_eq]
  obtain rfl | hTab := eq_or_ne tab E.tab
  · obtain rfl | hKey := eq_or_ne k (.data, E.optionsKey)
    · simp
    · cases content.get (E.tab, k) <;> simp [hKey]
  · simp [hTab]

def Bare (E : Target τ ι β κ) (content : Content τ ι) : Prop :=
  ∀ k, content.get (E.tab, k) = if k = (.data, E.optionsKey) then some (.bytes E.optionsVal) else none

omit [DecidableEq κ] in
theorem recreated_eq_iff (content : Content τ ι) : content.get = (recreated E content).get ↔ Bare E content := by
  constructor
  · intro hEq k
    rw [hEq, get_recreated, if_pos rfl]
  · intro hBare
    funext ⟨tab, k⟩
    rw [get_recreated]
    split
    · rename_i hTab
      rw [hTab]
      exact hBare k
    · rfl

/-- The two ways differ as soon as the transaction has something pending or the table something in it. -/
theorem deleteAllRows_same_iff (hLive : Live trx) (content : Content τ ι) :
    byDeleteAllRows E content trx = byRows E content trx ↔
      trx.pending = .empty ∧ (∀ pk r, (viewOf trx).get (E.tab, dataKey pk) ≠ some (.row r)) ∧ Bare E content := by
  rw [byDeleteAllRows_eq hLive]
  constructor
  · intro hSame
    have hOk : (deleteEach E (tableRows E.tab (viewOf trx)) trx).1 = true := (congrArg Outcome.ok hSame).symm
    obtain hOccupied | ⟨hPending, hRows⟩ := deleteEach_cases hLive hOk
    · have hPending := congrArg Outcome.pending hSame
      rw [byRows, ← Prod.mk.eta (p := deleteEach E (tableRows E.tab (viewOf trx)) trx), hOk,
        outcome_pending hOccupied.1] at hPending
      exact absurd hPending.symm hOccupied.2
    · refine ⟨hPending, fun pk r hRow => ?_, ?_⟩
      · have hMem := mem_tableRows.mpr hRow
        rw [hRows] at hMem
        cases hMem
      · have hRollback := congrArg Outcome.afterRollback hSame
        rw [byRows, hRows, deleteEach, outcome_of_empty hPending] at hRollback
        exact (recreated_eq_iff content).mp hRollback.symm
  · rintro ⟨hPending, hNone, hBare⟩
    have hRows : tableRows E.tab (viewOf trx) = [] :=
      eq_nil_iff_forall_not_mem.mpr fun row hMem => hNone row.1 row.2 (mem_tableRows.mp hMem)
    rw [byRows, hRows, deleteEach, outcome_of_empty hPending, (recreated_eq_iff content).mpr hBare]

end Compare

section Samples

def target (blocked : Bool) : Target Bool Column Unit Unit where
  tab := true
  table := places
  fkEnforceParentDelete _ _ _ := ⟨[], [], !blocked⟩
  deltas _ := []
  metaPut _ := .del (true, .data, [])
  optionsKey := [0]
  optionsVal := []

def onlyOptions : Content Bool Column := Store.empty.put (true, .data, [0]) (.bytes [])

def openTrx (content : Content Bool Column) (ws : List (Write Bool Column)) : ConnTrx Bool Column Unit :=
  ⟨⟨some ⟨0, content, ws, [], false⟩, !ws.isEmpty, false, false, 1⟩, [], false, [], false⟩

theorem deleteAllRows_same_bare : byDeleteAllRows (target false) onlyOptions (openTrx onlyOptions []) =
      byRows (target false) onlyOptions (openTrx onlyOptions []) := by
  refine (deleteAllRows_same_iff ⟨rfl, rfl⟩ onlyOptions).mpr ⟨rfl, fun pk r hRow => ?_, fun k => ?_⟩
  · cases hRow
  · rw [onlyOptions, Store.get_put]
    exact if_congr ((Prod.mk.injEq ..).to_iff.trans (and_iff_right rfl)) rfl rfl

def oneRowContent : Content Bool Column := onlyOptions.put (true, dataKey [1]) (.row (place 1 1))

/-- A ROLLBACK no longer brings the row back, a COMMIT no longer keeps one of another table, and no child row blocks
the statement. -/
theorem deleteAllRows_loses :
    ((byRows (target false) oneRowContent
      (openTrx oneRowContent [.put (false, dataKey [2]) (.row (place 2 2))])).afterRollback
        (true, dataKey [1])).isSome = true ∧
      ((byDeleteAllRows (target false) oneRowContent
        (openTrx oneRowContent [.put (false, dataKey [2]) (.row (place 2 2))])).afterRollback
          (true, dataKey [1])).isSome =
        false ∧
      ((byRows (target false) oneRowContent
        (openTrx oneRowContent [.put (false, dataKey [2]) (.row (place 2 2))])).afterCommit
          (false, dataKey [2])).isSome =
        true ∧
      ((byDeleteAllRows (target false) oneRowContent
        (openTrx oneRowContent [.put (false, dataKey [2]) (.row (place 2 2))])).afterCommit
          (false, dataKey [2])).isSome =
        false ∧
      (byRows (target true) oneRowContent (openTrx oneRowContent [])).ok = false ∧
      (byDeleteAllRows (target true) oneRowContent (openTrx oneRowContent [])).ok = true := by
  decide

end Samples

end TideSql.DeleteAll
