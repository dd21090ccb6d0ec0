import Mathlib.Data.List.TakeWhile
import TideSql.Handler.StmtSavepoint

/-!
# A connection under library failures

Every callback that acts on `tidesdb_trx_t`, with each library call it makes allowed to fail.
-/

namespace TideSql.Connection
open XidKey Txn StmtSavepoint Bool

/-- How the library answers the calls of one callback. No callback makes the same call twice. -/
structure Answers (κ : Type) where
  beginOk : Bool
  resetOk : Bool
  savepointOk : Bool
  releaseOk : Bool
  rollbackToOk : Bool
  prepareOk : Bool
  commitOk : Bool
  metaOk : FtsMetaDelta κ → Bool

def Answers.fine {κ : Type} : Answers κ := ⟨true, true, true, true, true, true, true, fun _ => true⟩

/-- A call that ends, restarts or prepares a library transaction, with the transaction it finds. -/
inductive LibCall (σ ω : Type) where
  | reset (t : LibTxn σ ω)
  | free (t : LibTxn σ ω)
  | prepare (key : Key) (t : LibTxn σ ω) (ok : Bool)
  | commit (t : LibTxn σ ω) (ok : Bool)
  | commitPrepared (t : LibTxn σ ω) (ok : Bool)
  | rollback (t : LibTxn σ ω)
  | rollbackPrepared (t : LibTxn σ ω)

structure Done (σ ω κ : Type) where
  haData : Option (FtsTrx σ ω κ)
  calls : List (LibCall σ ω)
  ok : Bool

section Callbacks

variable {σ ω κ : Type}

def newTrx (id : Nat) (snapshot : σ) : FtsTrx σ ω κ where
  txn := some (.start id snapshot)
  dirty := false
  stmtSavepointActive := false
  needsReset := false
  txnGeneration := 1
  ftsMetaPending := []
  ftsMetaDirty := false
  stmtFtsSnapshot := []
  stmtFtsDirtySnapshot := false

def getOrCreateTrx (id : Nat) (snapshot : σ) (a : Answers κ) : Option (FtsTrx σ ω κ) → Done σ ω κ
  | none => if a.beginOk then ⟨some (newTrx id snapshot), [], true⟩ else ⟨none, [], false⟩
  | some trx =>
    match trx.txn with
    | none =>
      -- `needs_reset` is not looked at here
      if a.beginOk then
        ⟨some
          { trx with txn := some (.start id snapshot), dirty := false, txnGeneration := trx.txnGeneration + 1 },
          [], true⟩
      else ⟨some trx, [], false⟩
    | some t =>
      if trx.needsReset then
        if a.resetOk then
          ⟨some
            { trx with txn := some (t.reset snapshot), needsReset := false, txnGeneration := trx.txnGeneration + 1 },
            [.reset t], true⟩
        else if a.beginOk then
          ⟨some
            { trx with
              txn := some (.start id snapshot), needsReset := false, txnGeneration := trx.txnGeneration + 1 },
            [.free t], true⟩
        else ⟨some { trx with txn := none }, [.free t], false⟩
      else ⟨some trx, [], true⟩

def externalLockAcquire (id : Nat) (snapshot : σ) (isAutocommit isDdl : Bool) (a : Answers κ)
    (haData : Option (FtsTrx σ ω κ)) : Done σ ω κ :=
  let d := getOrCreateTrx id snapshot a haData
  if d.ok && !isAutocommit && !isDdl then
    { d with
      haData := d.haData.map fun trx =>
        if trx.txn.isSome && !trx.stmtSavepointActive then stmtSavepointArm a.releaseOk a.savepointOk trx else trx }
  else d

def tdbStmtTxnForDdl (id : Nat) (snapshot : σ) (a : Answers κ) (ws : List ω) (haData : Option (FtsTrx σ ω κ)) :
    Done σ ω κ :=
  let d := getOrCreateTrx id snapshot a haData
  if d.ok then { d with haData := d.haData.map fun trx => { trx with toTrx := Txn.writeRow ws trx.toTrx } } else d

/-- One put for each delta, up to the first that fails; the deltas are gone in every case. -/
def flushTrxFtsMetaPending (metaPut : FtsMetaDelta κ → ω) (metaOk : FtsMetaDelta κ → Bool) (trx : FtsTrx σ ω κ) :
    Bool × FtsTrx σ ω κ :=
  let cleared := { trx with ftsMetaPending := [], ftsMetaDirty := false }
  if !trx.ftsMetaDirty || trx.ftsMetaPending.isEmpty || trx.txn.isNone then (true, cleared)
  else
    (trx.ftsMetaPending.all metaOk,
      { cleared with txn := trx.txn.map (·.write ((trx.ftsMetaPending.takeWhile metaOk).map metaPut)) })

def tdbTxnCommitStateful (ok : Bool) (t : LibTxn σ ω) : LibCall σ ω :=
  if t.prepared then .commitPrepared t ok else .commit t ok

def tdbTxnRollbackStateful (t : LibTxn σ ω) : LibCall σ ω :=
  if t.prepared then .rollbackPrepared t else .rollback t

def freed (trx : FtsTrx σ ω κ) : FtsTrx σ ω κ := { trx with toTrx := trx.toTrx.freed }

def ended (trx : FtsTrx σ ω κ) : FtsTrx σ ω κ := { trx with toTrx := trx.toTrx.ended }

def cleared (trx : FtsTrx σ ω κ) : FtsTrx σ ω κ := { trx with ftsMetaPending := [], ftsMetaDirty := false }

/-- A connection never holds a prepared transaction of the registry, which `prepare` has detached. -/
def tdbFinalizeCommit (metaPut : FtsMetaDelta κ → ω) (a : Answers κ) (trx : FtsTrx σ ω κ) : Done σ ω κ :=
  let trx := stmtSavepointDisarm a.releaseOk trx
  if trx.dirty then
    let f := flushTrxFtsMetaPending metaPut a.metaOk trx
    match f.2.txn with
    | none => ⟨some f.2, [], true⟩
    | some t =>
      if !f.1 then ⟨some (freed f.2), [.rollback t, .free t], false⟩
      else if a.commitOk then ⟨some (ended f.2), [tdbTxnCommitStateful true t], true⟩
      else ⟨some (freed f.2), [tdbTxnCommitStateful false t, tdbTxnRollbackStateful t, .free t], false⟩
  else
    match trx.txn with
    | none => ⟨some trx, [], true⟩
    | some t => ⟨some (ended (cleared trx)), [.rollback t], true⟩

def tidesdbCommit (metaPut : FtsMetaDelta κ → ω) (all inTransaction : Bool) (a : Answers κ) (trx : FtsTrx σ ω κ) :
    Done σ ω κ :=
  if trx.txn.isNone then ⟨some trx, [], true⟩
  else if all || !inTransaction then tdbFinalizeCommit metaPut a trx
  else ⟨some (stmtSavepointDisarm a.releaseOk trx), [], true⟩

def tidesdbRollback (all inTransaction : Bool) (a : Answers κ) (trx : FtsTrx σ ω κ) : Done σ ω κ :=
  match trx.txn with
  | none => ⟨some trx, [], true⟩
  | some t =>
    let r := if all || !inTransaction then (false, trx) else stmtSavepointRollback a.rollbackToOk trx
    if r.1 then ⟨some r.2, [], true⟩
    else ⟨some (ended { cleared r.2 with stmtFtsSnapshot := [] }), [tdbTxnRollbackStateful t], true⟩

/-- With the entry an external XA PREPARE publishes in `tdb_prepared_txns`. The library resolves an
empty batch at once, so it leaves nothing prepared. -/
def tidesdbPrepare (metaPut : FtsMetaDelta κ → ω) (key : Key) (all isExternal : Bool) (a : Answers κ)
    (trx : FtsTrx σ ω κ) : Done σ ω κ × Option (Key × LibTxn σ ω) :=
  if trx.txn.isNone || !all then (⟨some trx, [], true⟩, none)
  else
    let trx := stmtSavepointDisarm a.releaseOk trx
    if !trx.dirty && !isExternal then (⟨some trx, [], true⟩, none)
    else
      let f := if trx.dirty then flushTrxFtsMetaPending metaPut a.metaOk trx else (true, trx)
      match f.2.txn with
      | none => (⟨some f.2, [], true⟩, none)
      | some t =>
        if !f.1 then (⟨some (freed f.2), [tdbTxnRollbackStateful t, .free t], false⟩, none)
        else if !a.prepareOk then
          (⟨some (freed f.2), [.prepare key t false, tdbTxnRollbackStateful t, .free t], false⟩, none)
        else
          let t' := { t with prepared := !t.ops.isEmpty }
          if isExternal then (⟨some (cleared (freed f.2)), [.prepare key t true], true⟩, some (key, t'))
          else (⟨some { f.2 with txn := some t' }, [.prepare key t true], true⟩, none)

/-- The batch in the middle of a statement. `dirty` is cleared on the path to success alone. -/
def maybeBulkCommit (metaPut : FtsMetaDelta κ → ω) (id : Nat) (snapshot : σ) (a : Answers κ) (trx : FtsTrx σ ω κ) :
    Done σ ω κ :=
  if trx.txn.isNone then ⟨some trx, [], true⟩
  else
    let f := flushTrxFtsMetaPending metaPut a.metaOk trx
    match f.2.txn with
    | none => ⟨some f.2, [], true⟩
    | some t =>
      if !f.1 then ⟨some f.2, [], false⟩
      else if !a.commitOk then
        if a.beginOk then
          ⟨some
            { f.2 with
              txn := some (.start id snapshot)
              txnGeneration := f.2.txnGeneration + 1
              stmtSavepointActive := false
              stmtFtsSnapshot := [] },
            [.commit t false, .rollback t, .free t], false⟩
        else ⟨some { f.2 with txn := none }, [.commit t false, .rollback t, .free t], false⟩
      else if !a.resetOk && !a.beginOk then ⟨some { f.2 with txn := none }, [.commit t true, .free t], false⟩
      else
        ⟨some
          { f.2 with
            txn := some (if a.resetOk then t.reset snapshot else .start id snapshot)
            dirty := false
            txnGeneration := f.2.txnGeneration + 1
            stmtSavepointActive := false
            stmtFtsSnapshot := [] },
          [.commit t true, if a.resetOk then .reset t else .free t], true⟩

/-- The connection's transaction in `delete_all_rows`; the families are dropped and made anew afterwards. -/
def deleteAllRows (trx : FtsTrx σ ω κ) : Done σ ω κ :=
  match trx.txn with
  | none => ⟨some trx, [], true⟩
  | some t => ⟨some (cleared { trx with txn := none, dirty := false }), [.rollback t, .free t], true⟩

def tdbUdfReleaseOwnTxn (trx : FtsTrx σ ω κ) : Done σ ω κ :=
  match trx.txn with
  | none => ⟨some trx, [], true⟩
  | some t =>
    ⟨some (cleared { trx with txn := none, dirty := false, txnGeneration := trx.txnGeneration + 1 }),
      [.rollback t, .free t], true⟩

def tidesdbCloseConnection (trx : FtsTrx σ ω κ) : Done σ ω κ :=
  match trx.txn with
  | none => ⟨none, [], true⟩
  | some t => ⟨none, [.rollback t, .free t], true⟩

def tidesdbSavepointSet (slot : Nat) (a : Answers κ) (trx : FtsTrx σ ω κ) : Done σ ω κ :=
  if a.savepointOk then ⟨some { trx with toTrx := Txn.tidesdbSavepointSet slot trx.toTrx }, [], true⟩
  else ⟨some trx, [], trx.txn.isNone⟩

/-- The deltas stay as they are. Whether the savepoint can be set again is not looked at. -/
def tidesdbSavepointRollback (slot : Nat) (a : Answers κ) (trx : FtsTrx σ ω κ) : Done σ ω κ :=
  match trx.txn with
  | none => ⟨some trx, [], true⟩
  | some t =>
    match if a.rollbackToOk then t.rollbackToSavepoint (.user slot) else none with
    | none => ⟨some trx, [], false⟩
    | some t' =>
      ⟨some { trx with txn := some (if a.savepointOk then t'.savepoint (.user slot) else t') }, [], true⟩

def tidesdbSavepointRelease (slot : Nat) (a : Answers κ) (trx : FtsTrx σ ω κ) : Done σ ω κ :=
  if a.releaseOk then ⟨some { trx with toTrx := Txn.tidesdbSavepointRelease slot trx.toTrx }, [], true⟩
  else ⟨some trx, [], trx.txn.isNone⟩

variable {a : Answers κ} {trx : FtsTrx σ ω κ}

variable {haData : Option (FtsTrx σ ω κ)} {snapshot : σ}

inductive Opened (id : Nat) (snapshot : σ) (a : Answers κ) : Option (FtsTrx σ ω κ) → Done σ ω κ → Prop where
  | created : Opened id snapshot a none ⟨some (newTrx id snapshot), [], true⟩
  | absent : Opened id snapshot a none ⟨none, [], false⟩
  | begun (trx : FtsTrx σ ω κ) (hTxn : trx.txn = none) :
      Opened id snapshot a (some trx)
        ⟨some
          { trx with txn := some (.start id snapshot), dirty := false, txnGeneration := trx.txnGeneration + 1 },
          [], true⟩
  | refused (trx : FtsTrx σ ω κ) (hTxn : trx.txn = none) : Opened id snapshot a (some trx) ⟨some trx, [], false⟩
  | kept (trx : FtsTrx σ ω κ) (t : LibTxn σ ω) (hTxn : trx.txn = some t) (hNeeds : trx.needsReset = false) :
      Opened id snapshot a (some trx) ⟨some trx, [], true⟩
  | renewed (trx : FtsTrx σ ω κ) (t : LibTxn σ ω) (id' : Nat) (call : LibCall σ ω) (hTxn : trx.txn = some t)
      (hNeeds : trx.needsReset = true) (hCall : call = .reset t ∨ call = .free t) :
      Opened id snapshot a (some trx)
        ⟨some
          { trx with
            txn := some (.start id' snapshot), needsReset := false, txnGeneration := trx.txnGeneration + 1 },
          [call], true⟩
  | lost (trx : FtsTrx σ ω κ) (t : LibTxn σ ω) (hTxn : trx.txn = some t) (hNeeds : trx.needsReset = true)
      (hFail : (a.resetOk || a.beginOk) = false) :
      Opened id snapshot a (some trx) ⟨some { trx with txn := none, needsReset := true }, [.free t], false⟩

theorem getOrCreateTrx_opened (id : Nat) (snapshot : σ) (a : Answers κ) (haData : Option (FtsTrx σ ω κ)) :
    Opened id snapshot a haData (getOrCreateTrx id snapshot a haData) := by
  cases haData with
  | none =>
    rw [getOrCreateTrx]
    split
    · exact .created
    · exact .absent
  | some trx =>
    rw [getOrCreateTrx]
    cases hTxn : trx.txn with
    | none =>
      dsimp only
      split
      · exact .begun trx hTxn
      · exact .refused trx hTxn
    | some t =>
      cases hNeeds : trx.needsReset with
      | false => exact .kept trx t hTxn hNeeds
      | true =>
        cases hReset : a.resetOk with
        | true => exact .renewed trx t t.id _ hTxn hNeeds (Or.inl rfl)
        | false =>
          cases hBegin : a.beginOk with
          | true => exact .renewed trx t id _ hTxn hNeeds (Or.inr rfl)
          | false => exact .lost trx t hTxn hNeeds (by rw [hReset, hBegin]; rfl)

theorem getOrCreateTrx_ok {id : Nat} (h : (getOrCreateTrx id snapshot a haData).ok = true) :
    ∃ trx t, (getOrCreateTrx id snapshot a haData).haData = some trx ∧ trx.txn = some t := by
  have hDone := getOrCreateTrx_opened id snapshot a haData
  generalize getOrCreateTrx id snapshot a haData = d at h hDone ⊢
  cases hDone with
  | created | begun trx hTxn | renewed trx t id' call hTxn hNeeds hCall => exact ⟨_, _, rfl, rfl⟩
  | kept trx t hTxn hNeeds => exact ⟨trx, t, rfl, hTxn⟩
  | absent | refused trx hTxn | lost trx t hTxn hNeeds hFail => cases h

theorem externalLockAcquire_cases (id : Nat) (snapshot : σ) (isAutocommit isDdl : Bool) (a : Answers κ)
    (haData : Option (FtsTrx σ ω κ)) :
    externalLockAcquire id snapshot isAutocommit isDdl a haData = getOrCreateTrx id snapshot a haData ∨
      ∃ trx t, (getOrCreateTrx id snapshot a haData).haData = some trx ∧ trx.txn = some t ∧
        trx.stmtSavepointActive = false ∧ externalLockAcquire id snapshot isAutocommit isDdl a haData =
          { getOrCreateTrx id snapshot a haData with
            haData := some (stmtSavepointArm a.releaseOk a.savepointOk trx) } := by
  rw [externalLockAcquire]
  split
  · rename_i hArm
    obtain ⟨trx, t, hTrx, hTxn⟩ := getOrCreateTrx_ok (and_eq_true_iff.mp (and_eq_true_iff.mp hArm).1).1
    cases hActive : trx.stmtSavepointActive with
    | true =>
      refine Or.inl ?_
      generalize getOrCreateTrx id snapshot a haData = d at hTrx
      cases d
      simp only at hTrx
      simp [hTrx, hActive]
    | false => exact Or.inr ⟨trx, t, hTrx, hTxn, hActive, by simp [hTrx, hTxn, hActive]⟩
  · exact Or.inl rfl

variable {t : LibTxn σ ω}

theorem stmtSavepointArm_eq (releaseOk savepointOk : Bool) (hTxn : trx.txn = some t) :
    ∃ sps active fts ftsDirty, stmtSavepointArm releaseOk savepointOk trx = { trx with
        txn := some { t with savepoints := sps }
        stmtSavepointActive := active
        stmtFtsSnapshot := fts
        stmtFtsDirtySnapshot := ftsDirty } := by
  obtain ⟨⟨txn, dirty, active, needsReset, gen⟩, pending, ftsDirty, fts, dirtySnapshot⟩ := trx
  cases hTxn
  cases savepointOk with
  | false => cases releaseOk <;> exact ⟨_, active, fts, dirtySnapshot, rfl⟩
  | true => cases releaseOk <;> exact ⟨_, true, pending, ftsDirty, rfl⟩

theorem externalLockAcquire_ok {id : Nat} {isAutocommit isDdl : Bool}
    (h : (externalLockAcquire id snapshot isAutocommit isDdl a haData).ok = true) :
    ∃ trx t, (externalLockAcquire id snapshot isAutocommit isDdl a haData).haData = some trx ∧ trx.txn = some t := by
  obtain hEq | ⟨trx, t, _, hTxn, _, hEq⟩ := externalLockAcquire_cases id snapshot isAutocommit isDdl a haData
  · rw [hEq] at h ⊢
    exact getOrCreateTrx_ok h
  · obtain ⟨sps, active, fts, ftsDirty, hArm⟩ := stmtSavepointArm_eq a.releaseOk a.savepointOk hTxn
    rw [hEq, hArm]
    exact ⟨_, _, rfl, rfl⟩

theorem tdbStmtTxnForDdl_ok {id : Nat} {ws : List ω} (hOk : (tdbStmtTxnForDdl id snapshot a ws haData).ok = true) :
    ∃ trx t, (tdbStmtTxnForDdl id snapshot a ws haData).haData = some trx ∧ trx.txn = some t := by
  rw [tdbStmtTxnForDdl] at hOk ⊢
  split at hOk
  · rename_i hOpen
    obtain ⟨trx, t, hTrx, hTxn⟩ := getOrCreateTrx_ok hOpen
    rw [if_pos hOpen]
    simp only [hTrx, Option.map_some]
    exact ⟨_, t.write ws, rfl, by simp [Txn.writeRow, hTxn]⟩
  · rename_i hOpen
    exact absurd hOk hOpen

theorem flush_spec (metaPut : FtsMetaDelta κ → ω) (metaOk : FtsMetaDelta κ → Bool) (hTxn : trx.txn = some t) :
    ∃ ok ws, flushTrxFtsMetaPending metaPut metaOk trx =
        (ok, { trx with txn := some (t.write ws), ftsMetaPending := [], ftsMetaDirty := false }) ∧
      (trx.ftsMetaPending = [] → ok = true ∧ ws = []) ∧
      (ok = true → trx.ftsMetaDirty = true → ws = trx.ftsMetaPending.map metaPut) := by
  rw [flushTrxFtsMetaPending]
  by_cases hIdle : (!trx.ftsMetaDirty || trx.ftsMetaPending.isEmpty || trx.txn.isNone) = true
  · refine ⟨true, [], ?_, fun _ => ⟨rfl, rfl⟩, fun _ hDirty => ?_⟩
    · rw [if_pos hIdle]
      simp [LibTxn.write, ← hTxn]
    · rw [hDirty, hTxn] at hIdle
      have hNil : trx.ftsMetaPending = [] := by simpa using hIdle
      rw [hNil, List.map_nil]
  · refine ⟨trx.ftsMetaPending.all metaOk, (trx.ftsMetaPending.takeWhile metaOk).map metaPut, ?_, ?_, ?_⟩
    · rw [if_neg hIdle]
      simp [hTxn]
    · intro hNil
      simp [hNil]
    · intro hAll _
      rw [List.takeWhile_eq_self_iff.mpr (List.all_eq_true.mp hAll)]

theorem stmtSavepointDisarm_eq (releaseOk : Bool) (hTxn : trx.txn = some t) :
    ∃ sps fts, stmtSavepointDisarm releaseOk trx = { trx with
        txn := some { t with savepoints := sps }
        stmtSavepointActive := false
        stmtFtsSnapshot := fts } := by
  obtain ⟨⟨txn, dirty, active, needsReset, gen⟩, pending, ftsDirty, fts, dirtySnapshot⟩ := trx
  cases hTxn
  cases active with
  | false => exact ⟨t.savepoints, fts, rfl⟩
  | true =>
    cases releaseOk with
    | false => exact ⟨t.savepoints, [], rfl⟩
    | true => exact ⟨(t.releaseSavepoint .stmt).savepoints, [], rfl⟩

structure Freed (trx trx' : FtsTrx σ ω κ) : Prop where
  txn : trx'.txn = none
  dirty : trx'.dirty = false
  needsReset : trx'.needsReset = trx.needsReset
  fts : trx'.ftsMetaPending = [] ∨ trx.dirty = false ∧ trx'.ftsMetaPending = trx.ftsMetaPending

structure Ended (t : LibTxn σ ω) (trx' : FtsTrx σ ω κ) : Prop where
  txn : trx'.txn = some (.start t.id t.snapshot)
  dirty : trx'.dirty = false
  needsReset : trx'.needsReset = true
  fts : trx'.ftsMetaPending = []

structure Extends (t t' : LibTxn σ ω) : Prop where
  id : t'.id = t.id
  snapshot : t'.snapshot = t.snapshot
  prepared : t'.prepared = t.prepared
  ops : t.ops <+: t'.ops

theorem Extends.write (t : LibTxn σ ω) (sps : List (SavepointName × Nat)) (ws : List ω) :
    Extends t (({ t with savepoints := sps } : LibTxn σ ω).write ws) :=
  ⟨rfl, rfl, rfl, List.prefix_append t.ops ws⟩

inductive Finalized (a : Answers κ) (trx : FtsTrx σ ω κ) (t : LibTxn σ ω) : Done σ ω κ → Prop where
  | flushFailed (trx' : FtsTrx σ ω κ) (t' : LibTxn σ ω) (hDirty : trx.dirty = true) (hFts : trx.ftsMetaPending ≠ [])
      (hFreed : Freed trx trx') (hSame : Extends t t') : Finalized a trx t ⟨some trx', [.rollback t', .free t'], false⟩
  | committed (trx' : FtsTrx σ ω κ) (t' : LibTxn σ ω) (hDirty : trx.dirty = true) (hOk : a.commitOk = true)
      (hEnded : Ended t trx') (hSame : Extends t t') :
      Finalized a trx t ⟨some trx', [tdbTxnCommitStateful true t'], true⟩
  | refused (trx' : FtsTrx σ ω κ) (t' : LibTxn σ ω) (hDirty : trx.dirty = true) (hOk : a.commitOk = false)
      (hFreed : Freed trx trx') (hSame : Extends t t') :
      Finalized a trx t
        ⟨some trx', [tdbTxnCommitStateful false t', tdbTxnRollbackStateful t', .free t'], false⟩
  | readOnly (trx' : FtsTrx σ ω κ) (t' : LibTxn σ ω) (hDirty : trx.dirty = false) (hEnded : Ended t trx')
      (hSame : Extends t t') (hOps : t'.ops = t.ops) : Finalized a trx t ⟨some trx', [.rollback t'], true⟩

theorem tdbFinalizeCommit_finalized (metaPut : FtsMetaDelta κ → ω) (a : Answers κ) (hTxn : trx.txn = some t) :
    Finalized a trx t (tdbFinalizeCommit metaPut a trx) := by
  obtain ⟨sps, fts, hDisarm⟩ := stmtSavepointDisarm_eq a.releaseOk hTxn
  have hSame := Extends.write t sps
  rw [tdbFinalizeCommit]
  generalize stmtSavepointDisarm a.releaseOk trx = trx₁ at hDisarm ⊢
  have hTxn₁ : trx₁.txn = some { t with savepoints := sps } := by rw [hDisarm]
  have hNeeds : trx₁.needsReset = trx.needsReset := by rw [hDisarm]
  have hFts : trx₁.ftsMetaPending = trx.ftsMetaPending := by rw [hDisarm]
  have hDirty₁ : trx₁.dirty = trx.dirty := by rw [hDisarm]
  cases hDirty : trx.dirty with
  | false =>
    rw [hDirty₁, hDirty, hTxn₁]
    refine .readOnly _ _ hDirty ⟨?_, rfl, rfl, rfl⟩ (by simpa [LibTxn.write] using hSame []) rfl
    simp [ended, cleared, Trx.ended, hTxn₁, LibTxn.finished]
  | true =>
    obtain ⟨ok, ws, hFlush, hNone, _⟩ := flush_spec metaPut a.metaOk hTxn₁
    rw [hDirty₁, hDirty, hFlush]
    cases ok with
    | false =>
      refine .flushFailed _ _ hDirty (fun hNil => ?_) ⟨rfl, rfl, hNeeds, Or.inl rfl⟩ (hSame ws)
      exact absurd (hNone (hFts.trans hNil)).1 false_ne_true
    | true =>
      cases hOk : a.commitOk with
      | false => exact .refused _ _ hDirty hOk ⟨rfl, rfl, hNeeds, Or.inl rfl⟩ (hSame ws)
      | true => exact .committed _ _ hDirty hOk ⟨rfl, rfl, rfl, rfl⟩ (hSame ws)

inductive AfterPrepare (metaPut : FtsMetaDelta κ → ω) (key : Key) (all isExternal : Bool) (a : Answers κ)
    (trx : FtsTrx σ ω κ) (t : LibTxn σ ω) : Done σ ω κ × Option (Key × LibTxn σ ω) → Prop where
  | deferred (hAll : all = false) : AfterPrepare metaPut key all isExternal a trx t (⟨some trx, [], true⟩, none)
  | readOnly (sps : List (SavepointName × Nat)) (fts : List (FtsMetaDelta κ)) (hDirty : trx.dirty = false)
      (hInternal : isExternal = false) (hAll : all = true) :
      AfterPrepare metaPut key all isExternal a trx t
        (⟨some
            { trx with
              txn := some { t with savepoints := sps }
              stmtSavepointActive := false
              stmtFtsSnapshot := fts },
          [], true⟩, none)
  | flushFailed (trx' : FtsTrx σ ω κ) (t' : LibTxn σ ω) (hDirty : trx.dirty = true) (hFreed : Freed trx trx')
      (hSame : Extends t t') :
      AfterPrepare metaPut key all isExternal a trx t
        (⟨some trx', [tdbTxnRollbackStateful t', .free t'], false⟩, none)
  | refused (trx' : FtsTrx σ ω κ) (t' : LibTxn σ ω) (hFreed : Freed trx trx') (hSame : Extends t t')
      (hAll : all = true) (hVote : (trx.dirty || isExternal) = true)
      (hPuts : trx.dirty = true → trx.ftsMetaDirty = true → t'.ops = t.ops ++ trx.ftsMetaPending.map metaPut) :
      AfterPrepare metaPut key all isExternal a trx t
        (⟨some trx', [.prepare key t' false, tdbTxnRollbackStateful t', .free t'], false⟩, none)
  | detached (trx' : FtsTrx σ ω κ) (t' : LibTxn σ ω) (hFreed : Freed trx trx') (hSame : Extends t t')
      (hAll : all = true) (hExternal : isExternal = true) (hFts : trx'.ftsMetaPending = [])
      (hPuts : trx.dirty = true → trx.ftsMetaDirty = true → t'.ops = t.ops ++ trx.ftsMetaPending.map metaPut) :
      AfterPrepare metaPut key all isExternal a trx t
        (⟨some trx', [.prepare key t' true], true⟩, some (key, { t' with prepared := !t'.ops.isEmpty }))
  | prepared (trx' : FtsTrx σ ω κ) (t' : LibTxn σ ω) (hDirty : trx.dirty = true) (hDirty' : trx'.dirty = true)
      (hTxn : trx'.txn = some { t' with prepared := !t'.ops.isEmpty }) (hNeeds : trx'.needsReset = trx.needsReset)
      (hUnarmed : trx'.stmtSavepointActive = false) (hFts : trx'.ftsMetaPending = []) (hSame : Extends t t')
      (hInternal : isExternal = false)
      (hPuts : trx.ftsMetaDirty = true → t'.ops = t.ops ++ trx.ftsMetaPending.map metaPut) (hAll : all = true) :
      AfterPrepare metaPut key all isExternal a trx t (⟨some trx', [.prepare key t' true], true⟩, none)

theorem tidesdbPrepare_afterPrepare (metaPut : FtsMetaDelta κ → ω) (key : Key) (all isExternal : Bool) (a : Answers κ)
    (hTxn : trx.txn = some t) :
    AfterPrepare metaPut key all isExternal a trx t (tidesdbPrepare metaPut key all isExternal a trx) := by
  rw [tidesdbPrepare, hTxn]
  cases all with
  | false => exact .deferred rfl
  | true =>
    obtain ⟨sps, fts, hDisarm⟩ := stmtSavepointDisarm_eq a.releaseOk hTxn
    have hSame := Extends.write t sps
    have hSame₀ : Extends t { t with savepoints := sps } := by simpa [LibTxn.write] using hSame []
    rw [if_neg (by simp)]
    dsimp only
    generalize stmtSavepointDisarm a.releaseOk trx = trx₁ at hDisarm ⊢
    have hTxn₁ : trx₁.txn = some { t with savepoints := sps } := by rw [hDisarm]
    have hNeeds : trx₁.needsReset = trx.needsReset := by rw [hDisarm]
    have hFts : trx₁.ftsMetaPending = trx.ftsMetaPending := by rw [hDisarm]
    have hFtsDirty : trx₁.ftsMetaDirty = trx.ftsMetaDirty := by rw [hDisarm]
    have hUnarmed : trx₁.stmtSavepointActive = false := by rw [hDisarm]
    have hDirty₁ : trx₁.dirty = trx.dirty := by rw [hDisarm]
    rw [hDirty₁]
    cases hDirty : trx.dirty with
    | false =>
      have hNoPuts : ∀ {P : Prop}, trx.dirty = true → P := fun h => absurd (hDirty.symm.trans h) false_ne_true
      cases isExternal with
      | false =>
        rw [hDisarm]
        exact .readOnly sps fts hDirty rfl rfl
      | true =>
        rw [if_neg (by decide), if_neg Bool.false_ne_true]
        dsimp only
        rw [hTxn₁]
        cases hOk : a.prepareOk with
        | false => exact .refused _ _ ⟨rfl, rfl, hNeeds, Or.inr ⟨hDirty, hFts⟩⟩ hSame₀ rfl (by simp) hNoPuts
        | true => exact .detached _ _ ⟨rfl, rfl, hNeeds, Or.inl rfl⟩ hSame₀ rfl rfl rfl hNoPuts
    | true =>
      obtain ⟨ok, ws, hFlush, _, hPuts⟩ := flush_spec metaPut a.metaOk hTxn₁
      rw [if_neg (by simp), if_pos rfl, hFlush]
      cases ok with
      | false => exact .flushFailed _ _ hDirty ⟨rfl, rfl, hNeeds, Or.inl rfl⟩ (hSame ws)
      | true =>
        have hPuts' : trx.ftsMetaDirty = true →
            (({ t with savepoints := sps } : LibTxn σ ω).write ws).ops = t.ops ++ trx.ftsMetaPending.map metaPut := by
          intro h
          rw [LibTxn.write, hPuts rfl (hFtsDirty.trans h), hFts]
        cases hOk : a.prepareOk with
        | false =>
          exact .refused _ _ ⟨rfl, rfl, hNeeds, Or.inl rfl⟩ (hSame ws) rfl (by simp [hDirty]) fun _ => hPuts'
        | true =>
          cases isExternal with
          | false => exact .prepared _ _ hDirty (hDirty₁.trans hDirty) rfl hNeeds hUnarmed rfl (hSame ws) rfl hPuts' rfl
          | true => exact .detached _ _ ⟨rfl, rfl, hNeeds, Or.inl rfl⟩ (hSame ws) rfl rfl rfl fun _ => hPuts'

inductive AfterBulk (id : Nat) (snapshot : σ) (a : Answers κ) (trx : FtsTrx σ ω κ) (t : LibTxn σ ω) :
    Done σ ω κ → Prop where
  | flushFailed (ws : List ω) (hFts : trx.ftsMetaPending ≠ []) :
      AfterBulk id snapshot a trx t
        ⟨some { trx with txn := some (t.write ws), ftsMetaPending := [], ftsMetaDirty := false }, [], false⟩
  | refused (trx' : FtsTrx σ ω κ) (t' : LibTxn σ ω) (hSame : Extends t t')
      (hTxn : trx'.txn = none ∨ trx'.txn = some (.start id snapshot) ∧ trx'.stmtSavepointActive = false)
      (hDirty : trx'.dirty = trx.dirty) (hNeeds : trx'.needsReset = trx.needsReset) (hFts : trx'.ftsMetaPending = []) :
      AfterBulk id snapshot a trx t ⟨some trx', [.commit t' false, .rollback t', .free t'], false⟩
  | lost (trx' : FtsTrx σ ω κ) (t' : LibTxn σ ω) (hSame : Extends t t') (hTxn : trx'.txn = none)
      (hNeeds : trx'.needsReset = trx.needsReset) (hFts : trx'.ftsMetaPending = []) :
      AfterBulk id snapshot a trx t ⟨some trx', [.commit t' true, .free t'], false⟩
  | batch (trx' : FtsTrx σ ω κ) (t' : LibTxn σ ω) (id' : Nat) (call : LibCall σ ω) (hSame : Extends t t')
      (hTxn : trx'.txn = some (.start id' snapshot)) (hId : id' = t.id ∨ id' = id)
      (hCall : call = .reset t' ∨ call = .free t') (hDirty : trx'.dirty = false)
      (hNeeds : trx'.needsReset = trx.needsReset) (hFts : trx'.ftsMetaPending = []) :
      AfterBulk id snapshot a trx t ⟨some trx', [.commit t' true, call], true⟩

theorem maybeBulkCommit_afterBulk (metaPut : FtsMetaDelta κ → ω) (id : Nat) (snapshot : σ) (a : Answers κ)
    (hTxn : trx.txn = some t) : AfterBulk id snapshot a trx t (maybeBulkCommit metaPut id snapshot a trx) := by
  obtain ⟨ok, ws, hFlush, hNone, _⟩ := flush_spec metaPut a.metaOk hTxn
  have hSame : Extends t (t.write ws) := Extends.write t t.savepoints ws
  rw [maybeBulkCommit, if_neg (by simp [hTxn]), hFlush]
  cases ok with
  | false =>
    refine .flushFailed ws fun hNil => ?_
    exact absurd (hNone hNil).1 false_ne_true
  | true =>
    cases hCommit : a.commitOk with
    | false =>
      cases hBegin : a.beginOk with
      | false => exact .refused _ _ hSame (Or.inl rfl) rfl rfl rfl
      | true => exact .refused _ _ hSame (Or.inr ⟨rfl, rfl⟩) rfl rfl rfl
    | true =>
      cases hReset : a.resetOk with
      | true => exact .batch _ _ _ _ hSame rfl (Or.inl rfl) (Or.inl rfl) rfl rfl rfl
      | false =>
        cases hBegin : a.beginOk with
        | false => exact .lost _ _ hSame rfl rfl rfl
        | true => exact .batch _ _ _ _ hSame rfl (Or.inr rfl) (Or.inr rfl) rfl rfl rfl

inductive RolledBack (all inTransaction : Bool) (a : Answers κ) (trx : FtsTrx σ ω κ) (t : LibTxn σ ω) :
    Done σ ω κ → Prop where
  | full (trx' : FtsTrx σ ω κ) (hEnded : Ended t trx') :
      RolledBack all inTransaction a trx t ⟨some trx', [tdbTxnRollbackStateful t], true⟩
  | statement (m : SavepointName) (count : Nat) (older : List (SavepointName × Nat))
      (hStmt : (all || !inTransaction) = false) (hOk : a.rollbackToOk = true)
      (hActive : trx.stmtSavepointActive = true)
      (hDrop : t.savepoints.dropWhile (·.1 ≠ .stmt) = (m, count) :: older) :
      RolledBack all inTransaction a trx t
        ⟨some
          { trx with
            txn := some { t with ops := t.ops.take count, savepoints := older }
            txnGeneration := trx.txnGeneration + 1
            stmtSavepointActive := false
            ftsMetaPending := trx.stmtFtsSnapshot
            ftsMetaDirty := trx.stmtFtsDirtySnapshot
            stmtFtsSnapshot := [] },
          [], true⟩

theorem tidesdbRollback_rolledBack (all inTransaction : Bool) (a : Answers κ) (hTxn : trx.txn = some t) :
    RolledBack all inTransaction a trx t (tidesdbRollback all inTransaction a trx) := by
  have hEnded : ∀ trx' : FtsTrx σ ω κ, trx'.txn = some t →
      Ended t (ended { cleared trx' with stmtFtsSnapshot := [] }) := by
    intro trx' hTxn'
    refine ⟨?_, rfl, rfl, rfl⟩
    simp [ended, cleared, Trx.ended, hTxn', LibTxn.finished]
  rw [tidesdbRollback, hTxn]
  dsimp only
  cases hReal : all || !inTransaction with
  | true => exact .full _ (hEnded trx hTxn)
  | false =>
    rw [if_neg Bool.false_ne_true, StmtSavepoint.stmtSavepointRollback]
    cases hActive : trx.stmtSavepointActive with
    | false => exact .full _ (hEnded trx hTxn)
    | true =>
      cases hOk : a.rollbackToOk with
      | false => exact .full _ (hEnded _ hTxn)
      | true =>
        rw [if_pos rfl, if_pos rfl, hTxn, Option.bind_some]
        cases hTo : t.rollbackToSavepoint .stmt with
        | none => exact .full _ (hEnded _ rfl)
        | some t' =>
          obtain ⟨m, count, older, hDrop, rfl⟩ := LibTxn.rollbackToSavepoint_eq_some hTo
          exact .statement m count older hReal hOk hActive hDrop

/-- The savepoint itself may be missing afterwards, and no statement savepoint is new. -/
theorem tidesdbSavepointRollback_cases (slot : Nat) (a : Answers κ) (hTxn : trx.txn = some t) :
    tidesdbSavepointRollback slot a trx = ⟨some trx, [], false⟩ ∨ ∃ m count older sps, a.rollbackToOk = true ∧
      t.savepoints.dropWhile (·.1 ≠ .user slot) = (m, count) :: older ∧
      (∀ c, (SavepointName.stmt, c) ∈ sps → (SavepointName.stmt, c) ∈ older) ∧
      tidesdbSavepointRollback slot a trx =
        ⟨some { trx with txn := some { t with ops := t.ops.take count, savepoints := sps } }, [], true⟩ := by
  rw [tidesdbSavepointRollback, hTxn]
  dsimp only
  cases hOk : a.rollbackToOk with
  | false => exact Or.inl rfl
  | true =>
    rw [if_pos rfl]
    cases hTo : t.rollbackToSavepoint (.user slot) with
    | none => exact Or.inl rfl
    | some t' =>
      obtain ⟨m, count, older, hDrop, rfl⟩ := LibTxn.rollbackToSavepoint_eq_some hTo
      cases a.savepointOk with
      | false => exact Or.inr ⟨m, count, older, older, rfl, hDrop, fun _ hMem => hMem, rfl⟩
      | true =>
        refine Or.inr ⟨m, count, older, _, rfl, hDrop, fun c hMem => ?_, rfl⟩
        obtain hEq | hMem := List.mem_cons.mp hMem
        · cases hEq
        · exact hMem

end Callbacks

section Calls

variable {σ ω κ : Type}

/-- `row` is a row call that got as far as marking the transaction, with what it has put and gathered; a refused row
has put nothing. -/
inductive Call (ω κ : Type) where
  | lock (isAutocommit isDdl : Bool)
  | openTrx
  | ddl (ws : List ω)
  | row (ws : List ω) (deltas : List (FtsMetaDelta κ))
  | bulkCommit
  | savepointSet (slot : Nat)
  | savepointRollback (slot : Nat)
  | savepointRelease (slot : Nat)
  | prepare (key : Key) (all isExternal : Bool)
  | commit (all inTransaction : Bool)
  | rollback (all inTransaction : Bool)
  | deleteAllRows
  | releaseOwnTxn
  | close

def onTrx (f : FtsTrx σ ω κ → Done σ ω κ) : Option (FtsTrx σ ω κ) → Done σ ω κ
  | none => ⟨none, [], true⟩
  | some trx => f trx

variable [DecidableEq κ]

def perform (metaPut : FtsMetaDelta κ → ω) (id : Nat) (snapshot : σ) (a : Answers κ)
    (haData : Option (FtsTrx σ ω κ)) : Call ω κ → Done σ ω κ
  | .lock isAutocommit isDdl => externalLockAcquire id snapshot isAutocommit isDdl a haData
  | .openTrx => getOrCreateTrx id snapshot a haData
  | .ddl ws => tdbStmtTxnForDdl id snapshot a ws haData
  | .row ws deltas => onTrx (fun trx => ⟨some (writeRow ws deltas trx), [], true⟩) haData
  | .bulkCommit => onTrx (maybeBulkCommit metaPut id snapshot a) haData
  | .savepointSet slot => onTrx (tidesdbSavepointSet slot a) haData
  | .savepointRollback slot => onTrx (tidesdbSavepointRollback slot a) haData
  | .savepointRelease slot => onTrx (tidesdbSavepointRelease slot a) haData
  | .prepare key all isExternal => onTrx (fun trx => (tidesdbPrepare metaPut key all isExternal a trx).1) haData
  | .commit all inTransaction => onTrx (tidesdbCommit metaPut all inTransaction a) haData
  | .rollback all inTransaction => onTrx (tidesdbRollback all inTransaction a) haData
  | .deleteAllRows => onTrx deleteAllRows haData
  | .releaseOwnTxn => onTrx tdbUdfReleaseOwnTxn haData
  | .close => onTrx tidesdbCloseConnection haData

/-- Where the connection stands: between statements, in a statement that has its transaction, or in one
that the server has to roll back because a call has failed. -/
inductive Stage where
  | between
  | running
  | failed
  deriving DecidableEq

theorem between_ne_running : Stage.between ≠ .running := by decide

theorem between_ne_failed : Stage.between ≠ .failed := by decide

structure Conn (σ ω κ : Type) where
  haData : Option (FtsTrx σ ω κ)
  stage : Stage

def Conn.init : Conn σ ω κ := ⟨none, .between⟩

def Conn.txn (s : Conn σ ω κ) : Option (LibTxn σ ω) := s.haData.bind (·.txn)

def Conn.prepared (s : Conn σ ω κ) : Bool := s.txn.any LibTxn.prepared

/-- When a call is made: row calls in a statement that has locked its tables, a batch commit from a marked
transaction, and nothing between an internal prepare and the decision. -/
def allowed (s : Conn σ ω κ) : Call ω κ → Bool
  | .lock _ _ | .openTrx | .ddl _ => decide (s.stage ≠ .failed) && !s.prepared
  | .row _ _ => decide (s.stage = .running) && !s.prepared
  | .bulkCommit => decide (s.stage = .running) && !s.prepared && s.haData.any (·.dirty)
  | .savepointSet _ | .savepointRollback _ | .savepointRelease _ | .releaseOwnTxn =>
    decide (s.stage = .between) && !s.prepared
  | .deleteAllRows => decide (s.stage ≠ .failed) && !s.prepared
  | .prepare _ all _ => (if all then decide (s.stage = .between) else decide (s.stage ≠ .failed)) && !s.prepared
  | .commit _ _ => decide (s.stage ≠ .failed)
  | .rollback _ _ | .close => true

/-- `delete_all_rows` leaves the handler without a transaction, so that the next row call opens one. -/
def nextStage (stage : Stage) (ok : Bool) : Call ω κ → Stage
  | .lock _ _ | .openTrx | .ddl _ => if ok then .running else if stage = .between then .between else .failed
  | .row _ _ | .prepare _ _ _ => stage
  | .bulkCommit => if ok then .running else .failed
  | _ => .between

def Conn.step (metaPut : FtsMetaDelta κ → ω) (id : Nat) (snapshot : σ) (a : Answers κ) (s : Conn σ ω κ)
    (c : Call ω κ) : Option (Conn σ ω κ × List (LibCall σ ω)) :=
  let d := perform metaPut id snapshot a s.haData c
  if allowed s c then some (⟨d.haData, nextStage s.stage d.ok c⟩, d.calls) else none

theorem Conn.step_eq_some {metaPut : FtsMetaDelta κ → ω} {id : Nat} {snapshot : σ} {a : Answers κ} {s s' : Conn σ ω κ}
    {c : Call ω κ} {calls : List (LibCall σ ω)} (h : s.step metaPut id snapshot a c = some (s', calls)) :
    allowed s c = true ∧ s' = ⟨(perform metaPut id snapshot a s.haData c).haData,
          nextStage s.stage (perform metaPut id snapshot a s.haData c).ok c⟩ ∧
      calls = (perform metaPut id snapshot a s.haData c).calls := by
  rw [Conn.step] at h
  split at h
  · rename_i hAllowed
    cases h
    exact ⟨hAllowed, rfl, rfl⟩
  · cases h

end Calls

end TideSql.Connection
