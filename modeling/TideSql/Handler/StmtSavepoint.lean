import TideSql.Handler.Txn
import TideSql.Lib.Run

/-!
# Statement savepoints

A statement inside a transaction arms a library savepoint when it locks its first table, and its rollback goes
back to that savepoint.
-/

namespace TideSql.StmtSavepoint
open Txn Lib.Run Option

structure FtsMetaDelta (κ : Type) where
  dataCf : κ
  keynr : Nat
  docDelta : Int
  wordDelta : Int

/-- `tidesdb_trx_t` with its full-text deltas. -/
structure FtsTrx (σ ω κ : Type) extends Trx σ ω where
  ftsMetaPending : List (FtsMetaDelta κ)
  ftsMetaDirty : Bool
  stmtFtsSnapshot : List (FtsMetaDelta κ)
  stmtFtsDirtySnapshot : Bool

section Callbacks

variable {σ ω κ : Type}

def accumulate [DecidableEq κ] (d : FtsMetaDelta κ) : List (FtsMetaDelta κ) → List (FtsMetaDelta κ)
  | [] => [d]
  | e :: pending =>
    if e.dataCf = d.dataCf ∧ e.keynr = d.keynr then
      { e with docDelta := e.docDelta + d.docDelta, wordDelta := e.wordDelta + d.wordDelta } :: pending
    else e :: accumulate d pending

def trxFtsMetaAccumulate [DecidableEq κ] (trx : FtsTrx σ ω κ) (d : FtsMetaDelta κ) : FtsTrx σ ω κ :=
  { trx with ftsMetaPending := accumulate d trx.ftsMetaPending, ftsMetaDirty := true }

def writeRow [DecidableEq κ] (ws : List ω) (deltas : List (FtsMetaDelta κ)) (trx : FtsTrx σ ω κ) : FtsTrx σ ω κ :=
  deltas.foldl trxFtsMetaAccumulate { trx with toTrx := Txn.writeRow ws trx.toTrx }

def stmtSavepointArm (releaseOk savepointOk : Bool) (trx : FtsTrx σ ω κ) : FtsTrx σ ω κ :=
  match trx.txn with
  | none => trx
  | some t =>
    let t := if releaseOk then t.releaseSavepoint .stmt else t
    if savepointOk then
      { trx with
        txn := some (t.savepoint .stmt)
        stmtSavepointActive := true
        stmtFtsSnapshot := trx.ftsMetaPending
        stmtFtsDirtySnapshot := trx.ftsMetaDirty }
    else { trx with txn := some t }

def stmtSavepointDisarm (releaseOk : Bool) (trx : FtsTrx σ ω κ) : FtsTrx σ ω κ :=
  if trx.stmtSavepointActive then
    { trx with
      txn := if releaseOk then trx.txn.map (·.releaseSavepoint .stmt) else trx.txn
      stmtSavepointActive := false
      stmtFtsSnapshot := [] }
  else trx

def stmtSavepointRollback (rollbackOk : Bool) (trx : FtsTrx σ ω κ) : Bool × FtsTrx σ ω κ :=
  if trx.stmtSavepointActive then
    match if rollbackOk then trx.txn.bind (·.rollbackToSavepoint .stmt) else none with
    | none => (false, { trx with stmtSavepointActive := false, stmtFtsSnapshot := [] })
    | some t =>
      (true, { trx with
          txn := some t
          txnGeneration := trx.txnGeneration + 1
          stmtSavepointActive := false
          ftsMetaPending := trx.stmtFtsSnapshot
          ftsMetaDirty := trx.stmtFtsDirtySnapshot
          stmtFtsSnapshot := [] })
  else (false, trx)

/-- `get_or_create_trx`, which does not look at the deltas. -/
def ensureStmtTxn (id : Nat) (snapshot : σ) (trx : FtsTrx σ ω κ) : FtsTrx σ ω κ :=
  { trx with toTrx := getOrCreateTrx id snapshot trx.toTrx }

/-- Called for each table a statement locks, and by `start_stmt` for each table that LOCK TABLES has
locked before. -/
def externalLockAcquire (id : Nat) (snapshot : σ) (isAutocommit isDdl releaseOk savepointOk : Bool)
    (trx : FtsTrx σ ω κ) : FtsTrx σ ω κ :=
  let trx := ensureStmtTxn id snapshot trx
  if !isAutocommit && !isDdl && trx.txn.isSome && !trx.stmtSavepointActive then
    stmtSavepointArm releaseOk savepointOk trx
  else trx

def tidesdbRollback (all inTransaction rollbackOk : Bool) (trx : FtsTrx σ ω κ) : FtsTrx σ ω κ :=
  if trx.txn.isNone then trx
  else
    let r := if all || !inTransaction then (false, trx) else stmtSavepointRollback rollbackOk trx
    if r.1 then r.2
    else { r.2 with toTrx := r.2.toTrx.ended, ftsMetaPending := [], ftsMetaDirty := false, stmtFtsSnapshot := [] }

theorem toTrx_stmtSavepointArm (trx : FtsTrx σ ω κ) :
    (stmtSavepointArm true true trx).toTrx = Txn.stmtSavepointArm trx.toTrx := by
  obtain ⟨⟨txn, dirty, active, reset, gen⟩, pending, ftsDirty, snapshot, dirtySnapshot⟩ := trx
  cases txn <;> rfl

end Callbacks

section System

variable {σ ω κ : Type}

structure Pending (ω κ : Type) where
  writes : List ω
  fts : List (FtsMetaDelta κ)
  ftsDirty : Bool

def Pending.empty : Pending ω κ := ⟨[], [], false⟩

def Pending.write [DecidableEq κ] (ws : List ω) (deltas : List (FtsMetaDelta κ)) (p : Pending ω κ) : Pending ω κ :=
  ⟨p.writes ++ ws, deltas.foldl (fun pending d => accumulate d pending) p.fts, p.ftsDirty || !deltas.isEmpty⟩

def FtsTrx.pending (trx : FtsTrx σ ω κ) : Pending ω κ :=
  ⟨(trx.txn.map LibTxn.ops).getD [], trx.ftsMetaPending, trx.ftsMetaDirty⟩

structure Armed (ω κ : Type) where
  pending : Pending ω κ
  wrote : Bool

structure Stmt (ω κ : Type) where
  before : Pending ω κ
  wrote : Bool
  armed : Option (Armed ω κ)

structure Conn (σ ω κ : Type) where
  trx : FtsTrx σ ω κ
  stmt : Option (Stmt ω κ)

inductive Action (σ ω κ : Type) where
  | lock (id : Nat) (snapshot : σ) (releaseOk savepointOk : Bool)
  | row (ws : List ω) (deltas : List (FtsMetaDelta κ))
  | commit (releaseOk : Bool)
  | rollback (rollbackOk : Bool)
  | savepointSet (slot : Nat) (ok : Bool)
  | savepointRollback (slot : Nat) (ok : Bool)
  | savepointRelease (slot : Nat) (ok : Bool)

def Conn.user (s : Conn σ ω κ) (trx : Trx σ ω) : Option (Conn σ ω κ) :=
  if s.stmt.isSome then none else some { s with trx := { s.trx with toTrx := trx } }

def step [DecidableEq κ] (s : Conn σ ω κ) : Action σ ω κ → Option (Conn σ ω κ)
  | .lock id snapshot releaseOk savepointOk =>
    let trx := externalLockAcquire id snapshot false false releaseOk savepointOk s.trx
    let st := s.stmt.getD ⟨s.trx.pending, false, none⟩
    let armed :=
      if trx.stmtSavepointActive && !s.trx.stmtSavepointActive then some ⟨s.trx.pending, st.wrote⟩ else st.armed
    some ⟨trx, some { st with armed := armed }⟩
  | .row ws deltas => s.stmt.map fun st => ⟨writeRow ws deltas s.trx, some { st with wrote := true }⟩
  | .commit releaseOk => s.stmt.map fun _ => ⟨stmtSavepointDisarm releaseOk s.trx, none⟩
  | .rollback rollbackOk => s.stmt.map fun _ => ⟨tidesdbRollback false true rollbackOk s.trx, none⟩
  | .savepointSet slot ok => s.user (if ok then tidesdbSavepointSet slot s.trx.toTrx else s.trx.toTrx)
  | .savepointRollback slot ok =>
    s.user (if ok then (tidesdbSavepointRollback slot s.trx.toTrx).getD s.trx.toTrx else s.trx.toTrx)
  | .savepointRelease slot ok => s.user (if ok then tidesdbSavepointRelease slot s.trx.toTrx else s.trx.toTrx)

structure Quiet (trx : FtsTrx σ ω κ) : Prop where
  unarmed : trx.stmtSavepointActive = false
  spent : trx.needsReset = true → ∃ t, trx.txn = some t ∧ t.ops = []

end System

section Steps

variable {σ ω κ : Type} {trx : FtsTrx σ ω κ}

structure Holds (trx : FtsTrx σ ω κ) (p : Pending ω κ) : Prop where
  active : trx.stmtSavepointActive = true
  newest : ∃ t older, trx.txn = some t ∧ t.savepoints = (.stmt, p.writes.length) :: older ∧ p.writes <+: t.ops
  fts : trx.stmtFtsSnapshot = p.fts
  ftsDirty : trx.stmtFtsDirtySnapshot = p.ftsDirty

structure Live (trx : FtsTrx σ ω κ) : Prop where
  txn : trx.txn.isSome = true
  needsReset : trx.needsReset = false

structure StmtOk (trx : FtsTrx σ ω κ) (st : Stmt ω κ) : Prop where
  live : Live trx
  fresh : st.wrote = false → trx.pending = st.before
  armed : ∀ a, st.armed = some a → Holds trx a.pending ∧ (a.wrote = false → a.pending = st.before)
  unarmed : st.armed = none → trx.stmtSavepointActive = false

structure Inv (s : Conn σ ω κ) : Prop where
  between : s.stmt = none → Quiet s.trx
  stmt : ∀ st, s.stmt = some st → StmtOk s.trx st

theorem ensureStmtTxn_of_live (id : Nat) (snapshot : σ) (h : Live trx) : ensureStmtTxn id snapshot trx = trx := by
  obtain ⟨hTxn, hReset⟩ := h
  obtain ⟨⟨txn, dirty, active, needsReset, gen⟩, pending, ftsDirty, fts, dirtySnapshot⟩ := trx
  obtain ⟨t, rfl⟩ := isSome_iff_exists.mp hTxn
  cases needsReset with
  | false => rfl
  | true => cases hReset

theorem ensureStmtTxn_of_quiet (id : Nat) (snapshot : σ) (h : Quiet trx) :
    Live (ensureStmtTxn id snapshot trx) ∧ (ensureStmtTxn id snapshot trx).pending = trx.pending ∧
      (ensureStmtTxn id snapshot trx).stmtSavepointActive = false := by
  obtain ⟨hUnarmed, hSpent⟩ := h
  obtain ⟨⟨txn, dirty, active, needsReset, gen⟩, pending, ftsDirty, fts, dirtySnapshot⟩ := trx
  cases needsReset with
  | false => cases txn <;> exact ⟨⟨rfl, rfl⟩, rfl, hUnarmed⟩
  | true =>
    obtain ⟨t, rfl, hOps⟩ := hSpent rfl
    refine ⟨⟨rfl, rfl⟩, ?_, hUnarmed⟩
    simp [FtsTrx.pending, ensureStmtTxn, getOrCreateTrx, LibTxn.reset, LibTxn.start, hOps]

section

variable (releaseOk savepointOk : Bool)

theorem externalLockAcquire_of_unarmed {id : Nat} {snapshot : σ} (hLive : Live (ensureStmtTxn id snapshot trx))
    (h : (ensureStmtTxn id snapshot trx).stmtSavepointActive = false) :
    externalLockAcquire id snapshot false false releaseOk savepointOk trx =
      stmtSavepointArm releaseOk savepointOk (ensureStmtTxn id snapshot trx) := by
  simp [externalLockAcquire, hLive.txn, h]

theorem externalLockAcquire_of_armed {id : Nat} {snapshot : σ}
    (h : (ensureStmtTxn id snapshot trx).stmtSavepointActive = true) :
    externalLockAcquire id snapshot false false releaseOk savepointOk trx = ensureStmtTxn id snapshot trx := by
  simp [externalLockAcquire, h]

theorem stmtSavepointArm_spec (hLive : Live trx) (hUnarmed : trx.stmtSavepointActive = false) :
    Live (stmtSavepointArm releaseOk savepointOk trx) ∧
      (stmtSavepointArm releaseOk savepointOk trx).pending = trx.pending ∧
      (stmtSavepointArm releaseOk savepointOk trx).stmtSavepointActive = savepointOk ∧
      (savepointOk = true → Holds (stmtSavepointArm releaseOk savepointOk trx) trx.pending) := by
  obtain ⟨hTxn, hReset⟩ := hLive
  obtain ⟨⟨txn, dirty, active, needsReset, gen⟩, pending, ftsDirty, fts, dirtySnapshot⟩ := trx
  obtain ⟨t, rfl⟩ := isSome_iff_exists.mp hTxn
  cases savepointOk with
  | false =>
    refine ⟨⟨rfl, hReset⟩, ?_, hUnarmed, fun h => by cases h⟩
    cases releaseOk <;> rfl
  | true =>
    refine ⟨⟨rfl, hReset⟩, ?_, rfl, fun _ => ⟨rfl, ?_, rfl, rfl⟩⟩
    · cases releaseOk <;> rfl
    · cases releaseOk <;> exact ⟨_, _, rfl, rfl, List.prefix_rfl⟩

end

section Rows

variable [DecidableEq κ]

theorem foldl_trxFtsMetaAccumulate (deltas : List (FtsMetaDelta κ)) (trx : FtsTrx σ ω κ) :
    deltas.foldl trxFtsMetaAccumulate trx = { trx with
        ftsMetaPending := deltas.foldl (fun pending d => accumulate d pending) trx.ftsMetaPending
        ftsMetaDirty := trx.ftsMetaDirty || !deltas.isEmpty } := by
  induction deltas generalizing trx with
  | nil => simp
  | cons d deltas ih =>
    rw [List.foldl_cons, ih]
    simp [trxFtsMetaAccumulate]

theorem toTrx_writeRow (ws : List ω) (deltas : List (FtsMetaDelta κ)) (trx : FtsTrx σ ω κ) :
    (writeRow ws deltas trx).toTrx = Txn.writeRow ws trx.toTrx := by
  rw [writeRow, foldl_trxFtsMetaAccumulate]

theorem Live.writeRow (h : Live trx) (ws : List ω) (deltas : List (FtsMetaDelta κ)) :
    Live (writeRow ws deltas trx) := by
  refine ⟨?_, ?_⟩
  · rw [toTrx_writeRow, Txn.writeRow, isSome_map]
    exact h.txn
  · rw [toTrx_writeRow]
    exact h.needsReset

theorem Holds.writeRow {p : Pending ω κ} (h : Holds trx p) (ws : List ω) (deltas : List (FtsMetaDelta κ)) :
    Holds (writeRow ws deltas trx) p := by
  obtain ⟨hActive, ⟨t, older, ht, hNewest, hPre⟩, hFts, hDirty⟩ := h
  rw [StmtSavepoint.writeRow, foldl_trxFtsMetaAccumulate]
  refine ⟨hActive, ⟨t.write ws, older, ?_, hNewest, hPre.trans (List.prefix_append _ _)⟩, hFts, hDirty⟩
  simp [Txn.writeRow, ht]

theorem pending_writeRow (h : Live trx) (ws : List ω) (deltas : List (FtsMetaDelta κ)) :
    (writeRow ws deltas trx).pending = trx.pending.write ws deltas := by
  obtain ⟨t, ht⟩ := isSome_iff_exists.mp h.txn
  rw [writeRow, foldl_trxFtsMetaAccumulate]
  simp [FtsTrx.pending, Pending.write, Txn.writeRow, ht, LibTxn.write]

end Rows

theorem rollbackToSavepoint_of_newest {t : LibTxn σ ω} {writes : List ω} {older : List (SavepointName × Nat)}
    (hNewest : t.savepoints = (.stmt, writes.length) :: older) (hPre : writes <+: t.ops) :
    t.rollbackToSavepoint .stmt = some { t with ops := writes, savepoints := older } := by
  simp [LibTxn.rollbackToSavepoint, hNewest, ← List.prefix_iff_eq_take.mp hPre]

theorem tidesdbRollback_of_holds {p : Pending ω κ} (h : Holds trx p) :
    ∃ t older, trx.txn = some t ∧ tidesdbRollback false true true trx = { trx with
        txn := some { t with ops := p.writes, savepoints := older }
        txnGeneration := trx.txnGeneration + 1
        stmtSavepointActive := false
        ftsMetaPending := p.fts
        ftsMetaDirty := p.ftsDirty
        stmtFtsSnapshot := [] } := by
  obtain ⟨hActive, ⟨t, older, ht, hNewest, hPre⟩, hFts, hDirty⟩ := h
  have hBack := rollbackToSavepoint_of_newest hNewest hPre
  refine ⟨t, older, ht, ?_⟩
  simp [tidesdbRollback, stmtSavepointRollback, hActive, ht, hBack, hFts, hDirty]

theorem tidesdbRollback_of_lost {t : LibTxn σ ω} {rollbackOk : Bool} (ht : trx.txn = some t)
    (h : trx.stmtSavepointActive = false ∨ rollbackOk = false) :
    ∃ trx' : FtsTrx σ ω κ, trx'.txn = some t ∧ tidesdbRollback false true rollbackOk trx =
      { trx' with toTrx := trx'.toTrx.ended, ftsMetaPending := [], ftsMetaDirty := false, stmtFtsSnapshot := [] } := by
  have hNot : (stmtSavepointRollback rollbackOk trx).1 = false ∧
    (stmtSavepointRollback rollbackOk trx).2.txn = some t := by
    rw [stmtSavepointRollback]
    obtain hUnarmed | rfl := h
    · rw [hUnarmed, if_neg Bool.false_ne_true]
      exact ⟨rfl, ht⟩
    · split <;> exact ⟨rfl, ht⟩
  refine ⟨_, hNot.2, ?_⟩
  simp [tidesdbRollback, ht, hNot.1]

theorem back_of_holds {p : Pending ω κ} (hLive : Live trx) (h : Holds trx p) :
    (tidesdbRollback false true true trx).pending = p ∧ Live (tidesdbRollback false true true trx) ∧
      (tidesdbRollback false true true trx).stmtSavepointActive = false := by
  obtain ⟨t, older, -, hEq⟩ := tidesdbRollback_of_holds h
  rw [hEq]
  exact ⟨rfl, ⟨rfl, hLive.needsReset⟩, rfl⟩

theorem back_of_lost {t : LibTxn σ ω} {rollbackOk : Bool} (ht : trx.txn = some t)
    (h : trx.stmtSavepointActive = false ∨ rollbackOk = false) :
    (tidesdbRollback false true rollbackOk trx).pending = .empty ∧
      Quiet (tidesdbRollback false true rollbackOk trx) := by
  obtain ⟨trx', ht', hEq⟩ := tidesdbRollback_of_lost ht h
  rw [hEq]
  refine ⟨?_, rfl, fun _ => ⟨t.finished, ?_, rfl⟩⟩
  · simp [FtsTrx.pending, Pending.empty, Trx.ended, ht', LibTxn.finished, LibTxn.start]
  · simp [Trx.ended, ht']

theorem quiet_of_live (hLive : Live trx) (hUnarmed : trx.stmtSavepointActive = false) : Quiet trx := by
  refine ⟨hUnarmed, fun hReset => ?_⟩
  rw [hLive.needsReset] at hReset
  cases hReset

theorem quiet_stmtSavepointDisarm (releaseOk : Bool) (hLive : Live trx) :
    Quiet (stmtSavepointDisarm releaseOk trx) := by
  rw [stmtSavepointDisarm]
  split
  · refine ⟨rfl, fun hReset => ?_⟩
    rw [hLive.needsReset] at hReset
    cases hReset
  · rename_i hUnarmed
    exact quiet_of_live hLive (Bool.eq_false_of_not_eq_true hUnarmed)

theorem Quiet.savepoints (h : Quiet trx) {trx' : Trx σ ω}
    (hUnarmed : trx'.stmtSavepointActive = trx.stmtSavepointActive)
    (hReset : trx'.needsReset = trx.needsReset)
    (hTxn : ∀ t, trx.txn = some t → t.ops = [] → ∃ t', trx'.txn = some t' ∧ t'.ops = []) :
    Quiet { trx with toTrx := trx' } where
  unarmed := hUnarmed.trans h.unarmed
  spent hSpent := by
    obtain ⟨t, ht, hOps⟩ := h.spent (hReset ▸ hSpent)
    exact hTxn t ht hOps

section

variable (slot : Nat) (h : Quiet trx)
include h

theorem quiet_savepointSet : Quiet { trx with toTrx := tidesdbSavepointSet slot trx.toTrx } := by
  refine h.savepoints rfl rfl fun t ht hOps => ⟨t.savepoint (.user slot), ?_, hOps⟩
  rw [tidesdbSavepointSet, ht, map_some]

theorem quiet_savepointRelease : Quiet { trx with toTrx := tidesdbSavepointRelease slot trx.toTrx } := by
  refine h.savepoints rfl rfl fun t ht hOps => ⟨t.releaseSavepoint (.user slot), ?_, hOps⟩
  rw [tidesdbSavepointRelease, ht, map_some]

theorem quiet_savepointRollback :
    Quiet { trx with toTrx := (tidesdbSavepointRollback slot trx.toTrx).getD trx.toTrx } := by
  rw [tidesdbSavepointRollback]
  split
  · exact h
  · rename_i t ht
    split
    · exact h
    · rename_i t' hBack
      obtain ⟨m, count, older, -, rfl⟩ := LibTxn.rollbackToSavepoint_eq_some hBack
      refine h.savepoints rfl rfl fun u hu hOps => ⟨_, rfl, ?_⟩
      rw [hu] at ht
      cases ht
      simp [LibTxn.savepoint, hOps]

end

end Steps

section Runs

variable {σ ω κ : Type} {trx : FtsTrx σ ω κ} {st : Stmt ω κ}

theorem stmtOk_lock {id : Nat} {snapshot : σ} (releaseOk savepointOk : Bool)
    (hLive : Live (ensureStmtTxn id snapshot trx)) (hPending : (ensureStmtTxn id snapshot trx).pending = trx.pending)
    (hUnarmed : (ensureStmtTxn id snapshot trx).stmtSavepointActive = false)
    (hFresh : st.wrote = false → trx.pending = st.before) (hArmed : st.armed = none) :
    StmtOk (externalLockAcquire id snapshot false false releaseOk savepointOk trx)
      { st with armed := if (externalLockAcquire id snapshot false false releaseOk savepointOk trx).stmtSavepointActive
        then some ⟨trx.pending, st.wrote⟩ else st.armed } := by
  obtain ⟨hLive', hPending', hActive, hHolds⟩ := stmtSavepointArm_spec releaseOk savepointOk hLive hUnarmed
  rw [hPending] at hPending' hHolds
  rw [externalLockAcquire_of_unarmed releaseOk savepointOk hLive hUnarmed, hActive]
  cases savepointOk with
  | false => exact ⟨hLive', fun hWrote => hPending'.trans (hFresh hWrote), fun a ha => (by simp [hArmed] at ha),
               fun _ => hActive⟩
  | true =>
    refine ⟨hLive', fun hWrote => hPending'.trans (hFresh hWrote), fun a ha => ?_, fun h => by cases h⟩
    cases ha
    exact ⟨hHolds rfl, hFresh⟩

theorem inv_user {s s' : Conn σ ω κ} {trx : Trx σ ω} (hStep : s.user trx = some s')
    (hQuiet : s.stmt = none → Quiet { s.trx with toTrx := trx }) : Inv s' := by
  rw [Conn.user] at hStep
  split at hStep
  · cases hStep
  · rename_i hNone
    rw [not_isSome_iff_eq_none] at hNone
    cases hStep
    refine ⟨fun _ => hQuiet hNone, fun st hst => ?_⟩
    rw [hNone] at hst
    cases hst

theorem pending_rollback {s : Conn σ ω κ} (h : Inv s) (hst : s.stmt = some st) (rollbackOk : Bool) :
    (∀ a, st.armed = some a → rollbackOk = true → (tidesdbRollback false true rollbackOk s.trx).pending = a.pending) ∧
    (st.armed = none ∨ rollbackOk = false → (tidesdbRollback false true rollbackOk s.trx).pending = .empty) ∧
    Quiet (tidesdbRollback false true rollbackOk s.trx) := by
  obtain ⟨hLive, -, hArmed, hUnarmed⟩ := h.stmt st hst
  obtain ⟨t, ht⟩ := isSome_iff_exists.mp hLive.txn
  cases rollbackOk with
  | false =>
    obtain ⟨hEmpty, hQuiet⟩ := back_of_lost ht (.inr rfl)
    exact ⟨fun _ _ hOk => (by cases hOk), fun _ => hEmpty, hQuiet⟩
  | true =>
    cases hCase : st.armed with
    | none =>
      have hLost : s.trx.stmtSavepointActive = false ∨ true = false := .inl (hUnarmed hCase)
      obtain ⟨hEmpty, hQuiet⟩ := back_of_lost ht hLost
      exact ⟨fun _ ha => (by cases ha), fun _ => hEmpty, hQuiet⟩
    | some a =>
      obtain ⟨hBack, hLive', hUnarmed'⟩ := back_of_holds hLive (hArmed a hCase).1
      refine ⟨fun b hb _ => ?_, fun hLost => ?_, quiet_of_live hLive' hUnarmed'⟩
      · cases hb
        exact hBack
      · obtain hNone | hFailed := hLost
        · cases hNone
        · cases hFailed

variable [DecidableEq κ]

theorem inv_lock {s s' : Conn σ ω κ} {id : Nat} {snapshot : σ} {releaseOk savepointOk : Bool} (h : Inv s)
    (hStep : step s (.lock id snapshot releaseOk savepointOk) = some s') : Inv s' := by
  obtain ⟨trx, _ | st⟩ := s
  · have hQuiet : Quiet trx := h.between rfl
    obtain ⟨hLive, hPending, hUnarmed⟩ := ensureStmtTxn_of_quiet id snapshot hQuiet
    cases hStep
    refine ⟨fun hNone => (by cases hNone), fun st hst => ?_⟩
    cases hst
    simp only [hQuiet.unarmed, Bool.not_false, Bool.and_true]
    exact stmtOk_lock releaseOk savepointOk hLive hPending hUnarmed (fun _ => rfl) rfl
  · have hOk : StmtOk trx st := h.stmt st rfl
    have hSame := ensureStmtTxn_of_live id snapshot hOk.live
    cases hStep
    refine ⟨fun hNone => (by cases hNone), fun st' hst => ?_⟩
    cases hst
    cases hActive : trx.stmtSavepointActive with
    | true =>
      rw [← hSame] at hActive
      simp only [externalLockAcquire_of_armed releaseOk savepointOk hActive, hSame, Bool.not_true, Bool.and_false,
        Bool.false_eq_true, if_false, getD_some]
      exact hOk
    | false =>
      have hArmed : st.armed = none := by
        cases hArmed : st.armed with
        | none => rfl
        | some a =>
          rw [(hOk.armed a hArmed).1.active] at hActive
          cases hActive
      simp only [Bool.not_false, Bool.and_true]
      exact stmtOk_lock releaseOk savepointOk (hSame.symm ▸ hOk.live) (congrArg _ hSame)
        (hSame.symm ▸ hActive) hOk.fresh hArmed

theorem inv_row {s s' : Conn σ ω κ} {ws : List ω} {deltas : List (FtsMetaDelta κ)} (h : Inv s)
    (hStep : step s (.row ws deltas) = some s') : Inv s' := by
  obtain ⟨st, hst, rfl⟩ := map_eq_some_iff.mp hStep
  obtain ⟨hLive, -, hArmed, hUnarmed⟩ := h.stmt st hst
  refine ⟨fun hNone => (by cases hNone), fun st' hst' => ?_⟩
  cases hst'
  refine ⟨hLive.writeRow ws deltas, fun hWrote => (by cases hWrote), fun a ha => ?_, fun hNone => ?_⟩
  · obtain ⟨hHolds, hBefore⟩ := hArmed a ha
    exact ⟨hHolds.writeRow ws deltas, hBefore⟩
  · rw [toTrx_writeRow]
    exact hUnarmed hNone

theorem inv_step {s s' : Conn σ ω κ} {a : Action σ ω κ} (h : Inv s) (hStep : step s a = some s') : Inv s' := by
  cases a with
  | lock id snapshot releaseOk savepointOk => exact inv_lock h hStep
  | row ws deltas => exact inv_row h hStep
  | commit releaseOk =>
    obtain ⟨st, hst, rfl⟩ := map_eq_some_iff.mp hStep
    exact ⟨fun _ => quiet_stmtSavepointDisarm releaseOk (h.stmt st hst).live, fun _ hNone => by cases hNone⟩
  | rollback rollbackOk =>
    obtain ⟨st, hst, rfl⟩ := map_eq_some_iff.mp hStep
    exact ⟨fun _ => (pending_rollback h hst rollbackOk).2.2, fun _ hNone => by cases hNone⟩
  | savepointSet slot ok =>
    refine inv_user hStep fun hNone => ?_
    split
    · exact quiet_savepointSet slot (h.between hNone)
    · exact h.between hNone
  | savepointRollback slot ok =>
    refine inv_user hStep fun hNone => ?_
    split
    · exact quiet_savepointRollback slot (h.between hNone)
    · exact h.between hNone
  | savepointRelease slot ok =>
    refine inv_user hStep fun hNone => ?_
    split
    · exact quiet_savepointRelease slot (h.between hNone)
    · exact h.between hNone

theorem inv_of_reach {trx₀ : FtsTrx σ ω κ} (hQuiet : Quiet trx₀) {s : Conn σ ω κ}
    (h : Reach step (fun _ _ => True) ⟨trx₀, none⟩ s) : Inv s := by
  refine h.invariant Inv ⟨fun _ => hQuiet, fun _ hNone => by cases hNone⟩ ?_
  exact fun _ _ _ hInv _ hStep => inv_step hInv hStep

/-- A statement rollback goes back to where the savepoint was armed. Without a savepoint the transaction is left with
nothing. -/
theorem stmt_rollback_restores {trx₀ : FtsTrx σ ω κ} (hQuiet : Quiet trx₀) {s s' : Conn σ ω κ}
    (h : Reach step (fun _ _ => True) ⟨trx₀, none⟩ s) (hst : s.stmt = some st) {rollbackOk : Bool}
    (hStep : step s (.rollback rollbackOk) = some s') :
    (∀ a, st.armed = some a → rollbackOk = true →
      s'.trx.pending = a.pending ∧ (a.wrote = false → s'.trx.pending = st.before)) ∧
    (st.armed = none ∨ rollbackOk = false → s'.trx.pending = .empty) := by
  have hInv := inv_of_reach hQuiet h
  obtain ⟨st', hst', rfl⟩ := map_eq_some_iff.mp hStep
  obtain ⟨hBack, hLost, -⟩ := pending_rollback hInv hst rollbackOk
  refine ⟨fun a ha hOk => ⟨hBack a ha hOk, fun hWrote => ?_⟩, hLost⟩
  exact (hBack a ha hOk).trans (((hInv.stmt st hst).armed a ha).2 hWrote)

end Runs

section Samples

def opening : FtsTrx Unit Nat Unit := ⟨⟨none, false, false, false, 0⟩, [], false, [], false⟩

theorem quiet_opening : Quiet opening := ⟨rfl, fun h => by cases h⟩

def twoStatements (savepointOk : Bool) : List (Action Unit Nat Unit) :=
  [.lock 0 () true true, .row [1] [⟨(), 1, 1, 3⟩], .commit true, .lock 0 () true savepointOk, .row [2] [⟨(), 1, 1, 4⟩]]

def afterTwo (savepointOk : Bool) : Conn Unit Nat Unit :=
  (run step ⟨opening, none⟩ (twoStatements savepointOk)).getD ⟨opening, none⟩

theorem reach_afterTwo (savepointOk : Bool) : Reach step (fun _ _ => True) ⟨opening, none⟩ (afterTwo savepointOk) := by
  cases savepointOk <;>
    exact ((((Reach.init.step (.lock 0 () true true) trivial rfl).step (.row [1] [⟨(), 1, 1, 3⟩]) trivial rfl).step
      (.commit true) trivial rfl).step (.lock 0 () true _) trivial rfl).step (.row [2] [⟨(), 1, 1, 4⟩]) trivial rfl

/-- The savepoint could not be armed, and the first statement is lost with the second. -/
theorem stmt_rollback_loses_earlier : Reach step (fun _ _ => True) ⟨opening, none⟩ (afterTwo false) ∧
      ∃ st s', (afterTwo false).stmt = some st ∧ step (afterTwo false) (.rollback true) = some s' ∧
        st.before.writes = [1] ∧ s'.trx.pending.writes = [] :=
  ⟨reach_afterTwo false, _, _, rfl, rfl, rfl, rfl⟩

theorem stmt_rollback_restores_first :
    ∃ st s', (afterTwo true).stmt = some st ∧ step (afterTwo true) (.rollback true) = some s' ∧
      st.before.writes = [1] ∧ s'.trx.pending = st.before := by
  refine ⟨_, _, rfl, rfl, rfl, ?_⟩
  have hStep : step (afterTwo true) (.rollback true) = some _ := rfl
  exact ((stmt_rollback_restores quiet_opening (reach_afterTwo true) rfl hStep).1 _ rfl rfl).2 rfl

end Samples

end TideSql.StmtSavepoint
