import TideSql.Handler.XidKey

/-!
# The connection's transaction

`tidesdb_trx_t` and the handlerton callbacks that act on it, over a library transaction that keeps its writes
in one list and its savepoints as counts of that list.
-/

namespace TideSql.Txn
open XidKey List

inductive SavepointName where
  | stmt
  | user (slot : Nat)
  deriving DecidableEq

structure LibTxn (σ ω : Type) where
  id : Nat
  snapshot : σ
  ops : List ω
  savepoints : List (SavepointName × Nat)
  prepared : Bool

namespace LibTxn

variable {σ ω : Type}

def start (id : Nat) (snapshot : σ) : LibTxn σ ω := ⟨id, snapshot, [], [], false⟩

def savepoint (t : LibTxn σ ω) (n : SavepointName) : LibTxn σ ω :=
  { t with savepoints := (n, t.ops.length) :: t.savepoints }

def releaseSavepoint (t : LibTxn σ ω) (n : SavepointName) : LibTxn σ ω :=
  { t with savepoints := t.savepoints.eraseP (·.1 = n) }

def rollbackToSavepoint (t : LibTxn σ ω) (n : SavepointName) : Option (LibTxn σ ω) :=
  match t.savepoints.dropWhile (·.1 ≠ n) with
  | [] => none
  | (_, count) :: older => some { t with ops := t.ops.take count, savepoints := older }

def reset (t : LibTxn σ ω) (snapshot : σ) : LibTxn σ ω := start t.id snapshot

def finished (t : LibTxn σ ω) : LibTxn σ ω := start t.id t.snapshot

def write (t : LibTxn σ ω) (ws : List ω) : LibTxn σ ω := { t with ops := t.ops ++ ws }

theorem rollbackToSavepoint_eq_some {t t' : LibTxn σ ω} {n : SavepointName} (h : t.rollbackToSavepoint n = some t') :
    ∃ m count older, t.savepoints.dropWhile (·.1 ≠ n) = (m, count) :: older ∧
      t' = { t with ops := t.ops.take count, savepoints := older } := by
  rw [rollbackToSavepoint] at h
  split at h
  · cases h
  · rename_i m count older hDrop
    exact ⟨m, count, older, hDrop, (Option.some.inj h).symm⟩

end LibTxn

/-- What survives a crash: the writes in commit order, each under the key of its transaction, and
the prepared batches. -/
structure Storage (ω : Type) where
  committed : List (Key × ω)
  inDoubt : List (Key × List ω)

namespace Storage

variable {ω : Type}

def commit (st : Storage ω) (key : Key) (ops : List ω) : Storage ω :=
  { st with committed := st.committed ++ ops.map fun w => (key, w) }

def prepare (st : Storage ω) (key : Key) (ops : List ω) : Storage ω :=
  { st with inDoubt := st.inDoubt ++ [(key, ops)] }

def rollbackPrepared (st : Storage ω) (key : Key) : Storage ω :=
  { st with inDoubt := st.inDoubt.filter (·.1 ≠ key) }

def doubted (st : Storage ω) (key : Key) : List ω :=
  match st.inDoubt.find? (·.1 = key) with
  | some batch => batch.2
  | none => []

def commitPrepared (st : Storage ω) (key : Key) : Storage ω :=
  (st.commit key (st.doubted key)).rollbackPrepared key

def written (st : Storage ω) (key : Key) : List ω := (st.committed.filter (·.1 = key)).map Prod.snd

variable (st : Storage ω) (key key' : Key) (ops : List ω)

@[simp] theorem written_commit :
    (st.commit key ops).written key' = st.written key' ++ if key = key' then ops else [] := by
  simp only [commit, written, filter_append, map_append, append_cancel_left_eq]
  split
  · rename_i h
    rw [List.filter_eq_self.mpr (by simp [h]), List.map_map]
    exact List.map_id ops
  · rename_i h
    rw [List.filter_eq_nil_iff.mpr (by simp [h]), map_nil]

@[simp] theorem doubted_commit : (st.commit key ops).doubted key' = st.doubted key' := rfl

@[simp] theorem written_prepare : (st.prepare key ops).written key' = st.written key' := rfl

theorem doubted_prepare (h : ∀ b ∈ st.inDoubt, b.1 ≠ key) : (st.prepare key ops).doubted key = ops := by
  have hNone : st.inDoubt.find? (·.1 = key) = none := by simpa [find?_eq_none] using h
  simp [doubted, prepare, find?_append, hNone]

@[simp] theorem written_rollbackPrepared : (st.rollbackPrepared key).written key' = st.written key' := rfl

@[simp] theorem doubted_rollbackPrepared :
    (st.rollbackPrepared key).doubted key' = if key = key' then [] else st.doubted key' := by
  obtain rfl | h := eq_or_ne key key'
  · have hNone : (st.rollbackPrepared key).inDoubt.find? (·.1 = key) = none := by
      simp [rollbackPrepared, find?_eq_none]
    simp [doubted, hNone]
  · have hSame : (st.rollbackPrepared key).inDoubt.find? (·.1 = key') = st.inDoubt.find? (·.1 = key') := by
      rw [rollbackPrepared, find?_filter]
      congr 1
      funext b
      simp only [decide_eq_true_eq, decide_eq_decide, and_iff_right_iff_imp]
      exact fun hb => hb ▸ h.symm
    rw [doubted, hSame, if_neg h, doubted]

@[simp] theorem written_commitPrepared :
    (st.commitPrepared key).written key' = st.written key' ++ if key = key' then st.doubted key else [] := by
  rw [commitPrepared, written_rollbackPrepared, written_commit]

@[simp] theorem doubted_commitPrepared :
    (st.commitPrepared key).doubted key' = if key = key' then [] else st.doubted key' := by
  rw [commitPrepared, doubted_rollbackPrepared, doubted_commit]

end Storage

structure Trx (σ ω : Type) where
  txn : Option (LibTxn σ ω)
  dirty : Bool
  stmtSavepointActive : Bool
  needsReset : Bool
  txnGeneration : Nat

structure Outcome (σ ω : Type) where
  storage : Storage ω
  trx : Trx σ ω
  ok : Bool

section Callbacks

variable {σ ω : Type}

def stmtSavepointArm (trx : Trx σ ω) : Trx σ ω :=
  match trx.txn with
  | none => trx
  | some t =>
    { trx with txn := some ((t.releaseSavepoint .stmt).savepoint .stmt), stmtSavepointActive := true }

def stmtSavepointDisarm (trx : Trx σ ω) : Trx σ ω :=
  if trx.stmtSavepointActive then
    { trx with txn := trx.txn.map (·.releaseSavepoint .stmt), stmtSavepointActive := false }
  else trx

/-- The partial rollback, or nothing when the caller has to roll back the whole transaction. -/
def stmtSavepointRollback (trx : Trx σ ω) : Option (Trx σ ω) :=
  if trx.stmtSavepointActive then
    match trx.txn.bind (·.rollbackToSavepoint .stmt) with
    | none => none
    | some t =>
      some { trx with txn := some t, txnGeneration := trx.txnGeneration + 1, stmtSavepointActive := false }
  else none

def getOrCreateTrx (id : Nat) (snapshot : σ) (trx : Trx σ ω) : Trx σ ω :=
  match trx.txn with
  | none =>
    { trx with txn := some (.start id snapshot), dirty := false, txnGeneration := trx.txnGeneration + 1 }
  | some t =>
    if trx.needsReset then
      { trx with txn := some (t.reset snapshot), needsReset := false, txnGeneration := trx.txnGeneration + 1 }
    else trx

def tidesdbSavepointSet (slot : Nat) (trx : Trx σ ω) : Trx σ ω :=
  { trx with txn := trx.txn.map (·.savepoint (.user slot)) }

/-- The library drops the savepoint, so it is set again. The generation stays. -/
def tidesdbSavepointRollback (slot : Nat) (trx : Trx σ ω) : Option (Trx σ ω) :=
  match trx.txn with
  | none => some trx
  | some t =>
    match t.rollbackToSavepoint (.user slot) with
    | none => none
    | some t' => some { trx with txn := some (t'.savepoint (.user slot)) }

def tidesdbSavepointRelease (slot : Nat) (trx : Trx σ ω) : Trx σ ω :=
  { trx with txn := trx.txn.map (·.releaseSavepoint (.user slot)) }

def Trx.ended (trx : Trx σ ω) : Trx σ ω :=
  { trx with
    txn := trx.txn.map LibTxn.finished
    dirty := false
    stmtSavepointActive := false
    needsReset := true
    txnGeneration := trx.txnGeneration + 1 }

def Trx.freed (trx : Trx σ ω) : Trx σ ω :=
  { trx with txn := none, dirty := false, stmtSavepointActive := false, txnGeneration := trx.txnGeneration + 1 }

/-- The commit of an active batch or the phase-two commit of a prepared one; either may fail. -/
def tdbTxnCommitStateful (key : Key) (commitOk : Bool) (st : Storage ω) (t : LibTxn σ ω) : Option (Storage ω) :=
  if commitOk then some (if t.prepared then st.commitPrepared key else st.commit key t.ops) else none

def tdbTxnRollbackStateful (key : Key) (st : Storage ω) (t : LibTxn σ ω) : Storage ω :=
  if t.prepared then st.rollbackPrepared key else st

def tdbFinalizeCommit (key : Key) (commitOk : Bool) (st : Storage ω) (trx : Trx σ ω) : Outcome σ ω :=
  let trx := stmtSavepointDisarm trx
  match trx.txn with
  | none => ⟨st, trx, true⟩
  | some t =>
    if trx.dirty then
      match tdbTxnCommitStateful key commitOk st t with
      | some st' => ⟨st', trx.ended, true⟩
      | none => ⟨tdbTxnRollbackStateful key st t, trx.freed, false⟩
    else ⟨st, trx.ended, true⟩

def tidesdbCommit (key : Key) (all inTransaction commitOk : Bool) (st : Storage ω) (trx : Trx σ ω) : Outcome σ ω :=
  if trx.txn.isNone then ⟨st, trx, true⟩
  else if all || !inTransaction then tdbFinalizeCommit key commitOk st trx
  else ⟨st, stmtSavepointDisarm trx, true⟩

def tidesdbRollback (key : Key) (all inTransaction : Bool) (st : Storage ω) (trx : Trx σ ω) : Outcome σ ω :=
  match trx.txn with
  | none => ⟨st, trx, true⟩
  | some t =>
    match if all || !inTransaction then none else stmtSavepointRollback trx with
    | some trx' => ⟨st, trx', true⟩
    | none => ⟨tdbTxnRollbackStateful key st t, trx.ended, true⟩

def tidesdbPrepare (key : Key) (all prepareOk : Bool) (st : Storage ω) (trx : Trx σ ω) : Outcome σ ω :=
  match trx.txn with
  | none => ⟨st, trx, true⟩
  | some t =>
    if !all then ⟨st, trx, true⟩
    else
      let trx := stmtSavepointDisarm trx
      if !trx.dirty then ⟨st, trx, true⟩
      else if prepareOk then
        ⟨st.prepare key t.ops, { trx with txn := trx.txn.map fun t => { t with prepared := true } }, true⟩
      else ⟨tdbTxnRollbackStateful key st t, trx.freed, false⟩

/-- The commit in the middle of a statement, once its buffered writes reach the batch size. -/
def maybeBulkCommit (key : Key) (commitOk : Bool) (id : Nat) (snapshot : σ) (st : Storage ω) (trx : Trx σ ω) :
    Outcome σ ω :=
  match trx.txn with
  | none => ⟨st, trx, true⟩
  | some t =>
    if commitOk then
      ⟨st.commit key t.ops, { trx with
          txn := some (t.reset snapshot)
          dirty := false
          stmtSavepointActive := false
          txnGeneration := trx.txnGeneration + 1 },
        true⟩
    else
      ⟨st, { trx with
          txn := some (.start id snapshot)
          stmtSavepointActive := false
          txnGeneration := trx.txnGeneration + 1 },
        false⟩

/-- Mark the transaction, then buffer the puts and deletes. A refused write has marked it already. -/
def writeRow (ws : List ω) (trx : Trx σ ω) : Trx σ ω :=
  { trx with txn := trx.txn.map (·.write ws), dirty := true }

theorem txnGeneration_le_stmtSavepointRollback {trx trx' : Trx σ ω} (h : stmtSavepointRollback trx = some trx') :
    trx.txnGeneration ≤ trx'.txnGeneration := by
  rw [stmtSavepointRollback] at h
  split at h
  · split at h
    · cases h
    · cases h
      exact Nat.le_succ _
  · cases h

theorem txnGeneration_le_tidesdbSavepointRollback {slot : Nat} {trx trx' : Trx σ ω}
    (h : tidesdbSavepointRollback slot trx = some trx') : trx.txnGeneration ≤ trx'.txnGeneration := by
  rw [tidesdbSavepointRollback] at h
  split at h
  · cases h
    exact le_rfl
  · split at h
    · cases h
    · cases h
      exact le_rfl

end Callbacks

end TideSql.Txn
