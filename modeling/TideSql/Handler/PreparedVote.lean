import Mathlib.Logic.Function.Basic
import TideSql.Handler.Connection
import TideSql.Lib.Store

/-!
# Prepared votes

A transaction whose `prepare` has returned success must still commit when the coordinator asks for it.
-/

namespace TideSql.PreparedVote
open XidKey Connection Lib Lib.Run List Option Function Bool
open Txn (LibTxn)
open StmtSavepoint (FtsTrx FtsMetaDelta)

variable {σ ω κ : Type}

inductive Place where
  | attached (conn : Nat)
  | registered (key : Key)
  deriving DecidableEq

structure Vote (ω : Type) where
  place : Place
  batch : List ω
  asked : Bool
  committed : Option Bool

structure Server (σ ω κ : Type) where
  conns : Nat → Conn σ ω κ
  registry : Store Key (LibTxn σ ω)
  nextId : Nat
  votes : List (Vote ω)

inductive Event (σ ω κ : Type) where
  | call (conn : Nat) (snapshot : σ) (answers : Answers κ) (call : Call ω κ)
  | commitByXid (key : Key) (ok : Bool)
  | rollbackByXid (key : Key) (ok : Bool)

/-- `tidesdb_commit_by_xid`, without the marker it clears: what it leaves in the registry. -/
def tidesdbCommitByXid (key : Key) (ok : Bool) (registry : Store Key (LibTxn σ ω)) :
    Store Key (LibTxn σ ω) × List (LibCall σ ω) :=
  match registry.get key with
  | none => (registry, [])
  | some t =>
    let rest := registry.drop key
    if ok then (rest, [.commitPrepared t true, .free t]) else (rest.put key t, [.commitPrepared t false])

def tidesdbRollbackByXid (key : Key) (ok : Bool) (registry : Store Key (LibTxn σ ω)) :
    Store Key (LibTxn σ ω) × List (LibCall σ ω) :=
  match registry.get key with
  | none => (registry, [])
  | some t =>
    let rest := registry.drop key
    if ok then (rest, [.rollbackPrepared t, .free t]) else (rest.put key t, [])

def commits : LibCall σ ω → Bool
  | .commit _ ok | .commitPrepared _ ok => ok
  | _ => false

def rollsBack : LibCall σ ω → Bool
  | .rollback _ | .rollbackPrepared _ => true
  | _ => false

def outcome (calls : List (LibCall σ ω)) : Option Bool :=
  if calls.any commits then some true else if calls.any rollsBack then some false else none

def Vote.isOpen (v : Vote ω) (place : Place) : Bool := decide (v.place = place) && v.committed.isNone

def askAt (place : Place) (calls : List (LibCall σ ω)) (votes : List (Vote ω)) : List (Vote ω) :=
  votes.map fun v => if v.isOpen place then { v with asked := true, committed := outcome calls } else v

/-- A rollback of it, asked for by the coordinator or made when its connection closes: neither is a commit
request, and the vote ends there. -/
def releaseAt (place : Place) (calls : List (LibCall σ ω)) (votes : List (Vote ω)) : List (Vote ω) :=
  if calls.any rollsBack then votes.filter fun v => !v.isOpen place else votes

def votedBatch (txn : Option (LibTxn σ ω)) : List (LibCall σ ω) → List ω
  | .prepare _ t _ :: _ => t.ops
  | _ => (txn.map LibTxn.ops).getD []

section Step

variable [DecidableEq κ]

def published (metaPut : FtsMetaDelta κ → ω) (a : Answers κ) (conn : Conn σ ω κ) : Call ω κ → Option (Key × LibTxn σ ω)
  | .prepare key all isExternal => conn.haData.bind fun trx => (tidesdbPrepare metaPut key all isExternal a trx).2
  | _ => none

def votesAfter (c : Nat) (conn : Conn σ ω κ) (ok : Bool) (calls : List (LibCall σ ω)) (votes : List (Vote ω)) :
    Call ω κ → List (Vote ω)
  | .commit all inTransaction => if all || !inTransaction then askAt (.attached c) calls votes else votes
  | .rollback _ _ | .close => releaseAt (.attached c) calls votes
  | .prepare key all isExternal =>
    if all && ok && conn.txn.isSome then
      ⟨if isExternal then .registered key else .attached c, votedBatch conn.txn calls, false, none⟩ :: votes
    else votes
  | _ => votes

def fresh (registry : Store Key (LibTxn σ ω)) : Call ω κ → Bool
  | .prepare key _ isExternal => !isExternal || (registry.get key).isNone
  | _ => true

def step (metaPut : FtsMetaDelta κ → ω) (s : Server σ ω κ) : Event σ ω κ → Option (Server σ ω κ)
  | .call c snapshot a call =>
    if fresh s.registry call then
      ((s.conns c).step metaPut s.nextId snapshot a call).map fun r =>
        { conns := update s.conns c r.1
          registry := match published metaPut a (s.conns c) call with
            | some entry => s.registry.put entry.1 entry.2
            | none => s.registry
          nextId := s.nextId + 1
          votes :=
            votesAfter c (s.conns c) (perform metaPut s.nextId snapshot a (s.conns c).haData call).ok r.2 s.votes call }
    else none
  | .commitByXid key ok =>
    let r := tidesdbCommitByXid key ok s.registry
    some { s with registry := r.1, votes := askAt (.registered key) r.2 s.votes }
  | .rollbackByXid key ok =>
    let r := tidesdbRollbackByXid key ok s.registry
    some { s with registry := r.1, votes := releaseAt (.registered key) r.2 s.votes }

end Step

def init : Server σ ω κ := ⟨fun _ => Conn.init, Store.empty, 0, []⟩

/-- It has committed, or is prepared and, once its commit has been asked for, can be resolved by its XID. Without
writes there is nothing to keep. -/
def Kept (s : Server σ ω κ) (v : Vote ω) : Prop :=
  v.batch = [] ∨ v.committed = some true ∨
    v.committed = none ∧ (v.asked = true → ∃ key t, v.place = .registered key ∧ s.registry.get key = some t ∧
      t.prepared = true ∧ t.ops = v.batch)

/-- The condition on a step: the library's phase-two commit of a connection's own transaction succeeds. -/
def Honoured (s : Server σ ω κ) : Event σ ω κ → Prop
  | .call c _ a (.commit all inTransaction) =>
    (all || !inTransaction) = true → (s.conns c).prepared = true → a.commitOk = true
  | _ => True

def Plain (haData : Option (FtsTrx σ ω κ)) : Prop :=
  ∀ trx t, haData = some trx → trx.txn = some t → t.prepared = false ∧ (t.ops ≠ [] → trx.dirty = true)

section Trx

variable {trx trx' : FtsTrx σ ω κ} {t t' : LibTxn σ ω}

theorem plain_none : Plain (none : Option (FtsTrx σ ω κ)) := nofun

theorem Plain.of_none (h : trx.txn = none) : Plain (some trx) := by
  intro trx₀ t₀ hTrx₀ hTxn₀
  cases hTrx₀
  rw [h] at hTxn₀
  cases hTxn₀

theorem Plain.of_some (hTxn : trx.txn = some t) (hActive : t.prepared = false) (hOps : t.ops ≠ [] → trx.dirty = true) :
    Plain (some trx) := by
  intro trx₀ t₀ hTrx₀ hTxn₀
  cases hTrx₀
  cases hTxn.symm.trans hTxn₀
  exact ⟨hActive, hOps⟩

theorem Plain.of_start {id : Nat} {snapshot : σ} (hTxn : trx.txn = some (.start id snapshot)) : Plain (some trx) :=
  .of_some hTxn rfl fun hNe => absurd rfl hNe

theorem Plain.of_less (h : Plain (some trx)) (hTxn : trx.txn = some t) (hTxn' : trx'.txn = some t')
    (hPrepared : t'.prepared = t.prepared) (hOps : t.ops = [] → t'.ops = []) (hDirty : trx'.dirty = trx.dirty) :
    Plain (some trx') := by
  obtain ⟨hActive, hMarked⟩ := h trx t rfl hTxn
  refine .of_some hTxn' (hPrepared.trans hActive) fun hNe => ?_
  rw [hDirty]
  exact hMarked fun hNil => hNe (hOps hNil)

variable {haData : Option (FtsTrx σ ω κ)}

section

variable (h : Plain haData) (id : Nat) (snapshot : σ)
include h

theorem Plain.getOrCreate (a : Answers κ) : Plain (getOrCreateTrx id snapshot a haData).haData := by
  have hDone := getOrCreateTrx_opened id snapshot a haData
  generalize getOrCreateTrx id snapshot a haData = d at hDone ⊢
  cases hDone with
  | created | begun trx hTxn | renewed trx t id' call hTxn hNeeds hCall => exact .of_start rfl
  | absent | refused trx hTxn | kept trx t hTxn hNeeds => exact h
  | lost trx t hTxn hNeeds hFail => exact .of_none rfl

theorem Plain.lock (isAutocommit isDdl : Bool) (a : Answers κ) :
    Plain (externalLockAcquire id snapshot isAutocommit isDdl a haData).haData := by
  have hOpen := h.getOrCreate id snapshot a
  obtain hEq | ⟨trx, t, hTrx, hTxn, _, hEq⟩ := externalLockAcquire_cases id snapshot isAutocommit isDdl a haData
  · rw [hEq]
    exact hOpen
  · obtain ⟨sps, active, fts, ftsDirty, hArm⟩ := stmtSavepointArm_eq a.releaseOk a.savepointOk hTxn
    rw [hTrx] at hOpen
    rw [hEq, hArm]
    exact hOpen.of_less hTxn rfl rfl (fun hNil => hNil) rfl

theorem Plain.ddl (a : Answers κ) (ws : List ω) : Plain (tdbStmtTxnForDdl id snapshot a ws haData).haData := by
  have hOpen := h.getOrCreate id snapshot a
  rw [tdbStmtTxnForDdl]
  split
  · rename_i hOk
    obtain ⟨trx, t, hTrx, hTxn⟩ := getOrCreateTrx_ok hOk
    rw [hTrx] at hOpen ⊢
    refine .of_some (t := t.write ws) ?_ (hOpen trx t rfl hTxn).1 fun _ => rfl
    simp [Txn.writeRow, hTxn]
  · exact hOpen

end

section

variable (h : Plain (some trx)) (metaPut : FtsMetaDelta κ → ω)
include h

theorem Plain.commit (all inTransaction : Bool) (a : Answers κ) :
    Plain (tidesdbCommit metaPut all inTransaction a trx).haData := by
  rw [tidesdbCommit]
  cases hTxn : trx.txn with
  | none => exact h
  | some t =>
    rw [if_neg (by simp)]
    split
    · have hDone := tdbFinalizeCommit_finalized metaPut a hTxn
      generalize tdbFinalizeCommit metaPut a trx = d at hDone ⊢
      cases hDone with
      | flushFailed trx' t' hDirty hFts hFreed hSame => exact .of_none hFreed.txn
      | committed trx' t' hDirty hOk hEnded hSame => exact .of_start hEnded.txn
      | refused trx' t' hDirty hOk hFreed hSame => exact .of_none hFreed.txn
      | readOnly trx' t' hDirty hEnded hSame hOps => exact .of_start hEnded.txn
    · obtain ⟨sps, fts, hEq⟩ := stmtSavepointDisarm_eq a.releaseOk hTxn
      rw [hEq]
      exact h.of_less hTxn rfl rfl (fun hNil => hNil) rfl

theorem Plain.bulk (id : Nat) (snapshot : σ) (a : Answers κ) (hDirty : trx.dirty = true) :
    Plain (maybeBulkCommit metaPut id snapshot a trx).haData := by
  cases hTxn : trx.txn with
  | none =>
    rw [maybeBulkCommit, hTxn]
    exact h
  | some t =>
    have hActive := (h trx t rfl hTxn).1
    have hDone := maybeBulkCommit_afterBulk metaPut id snapshot a hTxn
    generalize maybeBulkCommit metaPut id snapshot a trx = d at hDone ⊢
    cases hDone with
    | flushFailed ws hFts => exact .of_some rfl hActive fun _ => hDirty
    | refused trx' t' hSame hTxn' hDirty' hNeeds hFts =>
      obtain hNone | ⟨hStart, _⟩ := hTxn'
      · exact .of_none hNone
      · exact .of_start hStart
    | lost trx' t' hSame hTxn' hNeeds hFts => exact .of_none hTxn'
    | batch trx' t' id' call hSame hTxn' hId hCall hDirty' hNeeds hFts => exact .of_start hTxn'

end

theorem Plain.ended_cleared (hTxn : trx.txn = some t) :
    Plain (some (ended { cleared trx with stmtFtsSnapshot := [] } : FtsTrx σ ω κ)) := by
  refine .of_start (show _ = some (LibTxn.start t.id t.snapshot) from ?_)
  simp [ended, cleared, Txn.Trx.ended, hTxn, LibTxn.finished]

theorem Plain.rollback (h : Plain (some trx)) (all inTransaction : Bool) (a : Answers κ) :
    Plain (tidesdbRollback all inTransaction a trx).haData := by
  cases hTxn : trx.txn with
  | none =>
    rw [tidesdbRollback, hTxn]
    exact h
  | some t =>
    have hDone := tidesdbRollback_rolledBack all inTransaction a hTxn
    generalize tidesdbRollback all inTransaction a trx = d at hDone ⊢
    cases hDone with
    | full trx' hEnded => exact .of_start hEnded.txn
    | statement m count older hStmt hOk hActive hDrop =>
      refine h.of_less hTxn rfl rfl (fun hNil => ?_) rfl
      rw [hNil, take_nil]

theorem Plain.savepointRollback (h : Plain (some trx)) (slot : Nat) (a : Answers κ) :
    Plain (tidesdbSavepointRollback slot a trx).haData := by
  cases hTxn : trx.txn with
  | none =>
    rw [tidesdbSavepointRollback, hTxn]
    exact h
  | some t =>
    obtain hEq | ⟨m, count, older, sps, _, _, _, hEq⟩ := tidesdbSavepointRollback_cases slot a hTxn
    all_goals rw [hEq]
    · exact h
    · refine h.of_less hTxn rfl rfl (fun hNil => ?_) rfl
      rw [hNil, take_nil]

theorem Plain.map_txn (h : Plain (some trx)) {f : LibTxn σ ω → LibTxn σ ω}
    (hf : ∀ t, (f t).prepared = t.prepared ∧ (f t).ops = t.ops) (hTxn : trx'.txn = trx.txn.map f)
    (hDirty : trx'.dirty = trx.dirty) : Plain (some trx') := by
  cases hEq : trx.txn with
  | none =>
    rw [hEq, map_none] at hTxn
    exact .of_none hTxn
  | some t =>
    rw [hEq, map_some] at hTxn
    exact h.of_less hEq hTxn (hf t).1 (fun hNil => (hf t).2.trans hNil) hDirty

end Trx

section Calls

theorem Plain.onTrx {f : FtsTrx σ ω κ → Done σ ω κ} {haData : Option (FtsTrx σ ω κ)} (hPlain : Plain haData)
    (h : ∀ trx, haData = some trx → Plain (some trx) → Plain (f trx).haData) : Plain (onTrx f haData).haData := by
  cases haData with
  | none => exact plain_none
  | some trx => exact h trx rfl hPlain

theorem Plain.perform [DecidableEq κ] {haData : Option (FtsTrx σ ω κ)} (h : Plain haData) (metaPut : FtsMetaDelta κ → ω)
    (id : Nat)
    (snapshot : σ) (a : Answers κ) (c : Call ω κ)
      (hBulk : c = .bulkCommit → ∀ trx, haData = some trx → trx.dirty = true)
    (hPrepare : ∀ key all isExternal, c ≠ .prepare key all isExternal) :
    Plain (perform metaPut id snapshot a haData c).haData := by
  cases c with
  | lock isAutocommit isDdl => exact h.lock id snapshot isAutocommit isDdl a
  | openTrx => exact h.getOrCreate id snapshot a
  | ddl ws => exact h.ddl id snapshot a ws
  | row ws deltas =>
    refine h.onTrx fun trx hTrx hPlain => ?_
    have hRow := StmtSavepoint.toTrx_writeRow ws deltas trx
    cases hTxn : trx.txn with
    | none => exact .of_none (by rw [hRow, Txn.writeRow, hTxn]; rfl)
    | some t =>
      refine .of_some (t := t.write ws) ?_ (hPlain trx t rfl hTxn).1 fun _ => ?_
      · rw [hRow, Txn.writeRow, hTxn, map_some]
      · rw [hRow]
        rfl
  | bulkCommit => exact h.onTrx fun trx hTrx hPlain => hPlain.bulk metaPut id snapshot a (hBulk rfl trx hTrx)
  | savepointSet slot =>
    refine h.onTrx fun trx hTrx hPlain => ?_
    rw [tidesdbSavepointSet]
    split
    · exact hPlain.map_txn (f := (·.savepoint (.user slot))) (fun _ => ⟨rfl, rfl⟩) rfl rfl
    · exact hPlain
  | savepointRollback slot => exact h.onTrx fun trx hTrx hPlain => hPlain.savepointRollback slot a
  | savepointRelease slot =>
    refine h.onTrx fun trx hTrx hPlain => ?_
    rw [tidesdbSavepointRelease]
    split
    · exact hPlain.map_txn (f := (·.releaseSavepoint (.user slot))) (fun _ => ⟨rfl, rfl⟩) rfl rfl
    · exact hPlain
  | prepare key all isExternal => exact absurd rfl (hPrepare key all isExternal)
  | commit all inTransaction => exact h.onTrx fun trx hTrx hPlain => hPlain.commit metaPut all inTransaction a
  | rollback all inTransaction => exact h.onTrx fun trx hTrx hPlain => hPlain.rollback all inTransaction a
  | deleteAllRows =>
    refine h.onTrx fun trx hTrx hPlain => ?_
    rw [Connection.deleteAllRows]
    split
    · exact hPlain
    · exact .of_none rfl
  | releaseOwnTxn =>
    refine h.onTrx fun trx hTrx hPlain => ?_
    rw [tdbUdfReleaseOwnTxn]
    split
    · exact hPlain
    · exact .of_none rfl
  | close =>
    refine h.onTrx fun trx hTrx hPlain => ?_
    rw [tidesdbCloseConnection]
    split <;> exact plain_none

end Calls

section Votes

def At (s : Server σ ω κ) (batch : List ω) : Place → Prop
  | .attached c => ∃ trx t, (s.conns c).haData = some trx ∧ trx.txn = some t ∧ t.prepared = true ∧ t.ops = batch
  | .registered key => ∃ t, s.registry.get key = some t ∧ t.prepared = true ∧ t.ops = batch

def VoteOk (s : Server σ ω κ) (v : Vote ω) : Prop :=
  v.batch = [] ∨ v.committed = some true ∨
    v.committed = none ∧ (v.asked = true → ∀ c, v.place ≠ .attached c) ∧ At s v.batch v.place

variable {s s' : Server σ ω κ} {v : Vote ω}

theorem VoteOk.kept (h : VoteOk s v) : Kept s v := by
  obtain hNil | hDone | ⟨hOpen, hAsked, hAt⟩ := h
  · exact Or.inl hNil
  · exact Or.inr (Or.inl hDone)
  · refine Or.inr (Or.inr ⟨hOpen, fun hAsk => ?_⟩)
    cases hPlace : v.place with
    | attached c => exact absurd hPlace (hAsked hAsk c)
    | registered key =>
      rw [hPlace] at hAt
      obtain ⟨t, hGet, hPrepared, hOps⟩ := hAt
      exact ⟨key, t, rfl, hGet, hPrepared, hOps⟩

theorem VoteOk.mono (h : VoteOk s v) (hAt : v.batch ≠ [] → At s v.batch v.place → At s' v.batch v.place) :
    VoteOk s' v := by
  obtain hNil | hDone | ⟨hOpen, hAsked, hAt₀⟩ := h
  · exact Or.inl hNil
  · exact Or.inr (Or.inl hDone)
  · obtain hNil | hNe := eq_or_ne v.batch []
    · exact Or.inl hNil
    · exact Or.inr (Or.inr ⟨hOpen, hAsked, hAt hNe hAt₀⟩)

theorem isOpen_iff (place : Place) : v.isOpen place = true ↔ v.place = place ∧ v.committed = none := by
  simp [Vote.isOpen]

def Elsewhere (s s' : Server σ ω κ) (place : Place) : Prop :=
  ∀ p, p ≠ place → ∀ batch, batch ≠ [] → At s batch p → At s' batch p

theorem ask_ok {place : Place} {calls : List (LibCall σ ω)} (h : ∀ v ∈ s.votes, VoteOk s v)
    (hElse : Elsewhere s s' place)
    (hHere : ∀ batch, batch ≠ [] → At s batch place →
      outcome calls = some true ∨ outcome calls = none ∧ (∀ c, place ≠ .attached c) ∧ At s' batch place) :
    ∀ v ∈ askAt place calls s.votes, VoteOk s' v := by
  intro v' hv'
  obtain ⟨v, hv, rfl⟩ := mem_map.mp hv'
  have hOk := h v hv
  split
  · rename_i hOpen
    obtain ⟨rfl, hNone⟩ := (isOpen_iff _).mp hOpen
    obtain hNil | hDone | ⟨_, _, hAt⟩ := hOk
    · exact Or.inl hNil
    · exact absurd (hNone.symm.trans hDone) nofun
    · obtain hNil | hNe := eq_or_ne v.batch []
      · exact Or.inl hNil
      · obtain hDone | ⟨hStill, hNot, hAt'⟩ := hHere v.batch hNe hAt
        · exact Or.inr (Or.inl hDone)
        · exact Or.inr (Or.inr ⟨hStill, fun _ => hNot, hAt'⟩)
  · rename_i hClosed
    obtain hPlace | hPlace := eq_or_ne v.place place
    · obtain hNil | hDone | ⟨hNone, _, _⟩ := hOk
      · exact Or.inl hNil
      · exact Or.inr (Or.inl hDone)
      · exact absurd ((isOpen_iff place).mpr ⟨hPlace, hNone⟩) hClosed
    · exact hOk.mono (hElse v.place hPlace v.batch)

theorem release_ok {place : Place} {calls : List (LibCall σ ω)} (h : ∀ v ∈ s.votes, VoteOk s v)
    (hElse : Elsewhere s s' place)
    (hHere : calls.any rollsBack = false → ∀ batch, batch ≠ [] → At s batch place → At s' batch place) :
    ∀ v ∈ releaseAt place calls s.votes, VoteOk s' v := by
  intro v hv
  rw [releaseAt] at hv
  split at hv
  · obtain ⟨hv, hClosed⟩ := mem_filter.mp hv
    obtain hPlace | hPlace := eq_or_ne v.place place
    · obtain hNil | hDone | ⟨hNone, _, _⟩ := h v hv
      · exact Or.inl hNil
      · exact Or.inr (Or.inl hDone)
      · rw [(isOpen_iff place).mpr ⟨hPlace, hNone⟩] at hClosed
        cases hClosed
    · exact (h v hv).mono (hElse v.place hPlace v.batch)
  · rename_i hCalls
    obtain hPlace | hPlace := eq_or_ne v.place place
    · refine (h v hv).mono fun hNe hAt => ?_
      rw [hPlace] at hAt ⊢
      exact hHere (by simpa using hCalls) v.batch hNe hAt
    · exact (h v hv).mono (hElse v.place hPlace v.batch)

structure Sealed (s : Server σ ω κ) (c : Nat) (trx : FtsTrx σ ω κ) (t : LibTxn σ ω) : Prop where
  haData : (s.conns c).haData = some trx
  txn : trx.txn = some t
  prepared : t.prepared = true
  dirty : trx.dirty = true
  fts : trx.ftsMetaPending = []
  unarmed : trx.stmtSavepointActive = false
  vote : ∃ v ∈ s.votes, v.isOpen (.attached c) = true ∧ v.batch ≠ []

structure Inv (s : Server σ ω κ) : Prop where
  conns : ∀ c, Plain (s.conns c).haData ∨ ∃ trx t, Sealed s c trx t
  votes : ∀ v ∈ s.votes, VoteOk s v

theorem Inv.init : Inv (init : Server σ ω κ) := ⟨fun _ => Or.inl nofun, nofun⟩

variable {c : Nat}

theorem Plain.not_at {batch : List ω} (h : Plain (s.conns c).haData) : ¬ At s batch (.attached c) := by
  rintro ⟨trx, t, hTrx, hTxn, hPrepared, _⟩
  rw [(h trx t hTrx hTxn).1] at hPrepared
  cases hPrepared

variable {conn : Conn σ ω κ}

theorem Plain.unprepared (h : Plain conn.haData) : conn.prepared = false := by
  cases hTrx : conn.haData with
  | none => simp [Conn.prepared, Conn.txn, hTrx]
  | some trx =>
    cases hTxn : trx.txn with
    | none => simp [Conn.prepared, Conn.txn, hTrx, hTxn]
    | some t => simp [Conn.prepared, Conn.txn, hTrx, hTxn, (h trx t hTrx hTxn).1]

theorem elsewhere_update (hConns : s'.conns = update s.conns c conn) (hRegistry : s'.registry = s.registry) :
    Elsewhere s s' (.attached c) := by
  intro p hPlace batch _ hAt
  cases p with
  | attached c' =>
    have hNe : c' ≠ c := fun hEq => hPlace (by rw [hEq])
    rw [At, hConns, update_of_ne hNe]
    exact hAt
  | registered key =>
    rw [At, hRegistry]
    exact hAt

variable {votes : List (Vote ω)}

theorem mem_askAt_of_ne {place p : Place} (calls : List (LibCall σ ω)) (hv : v ∈ votes) (hOpen : v.isOpen p = true)
    (hNe : p ≠ place) : v ∈ askAt place calls votes := by
  refine mem_map.mpr ⟨v, hv, if_neg fun hHere => hNe ?_⟩
  exact ((isOpen_iff p).mp hOpen).1.symm.trans ((isOpen_iff place).mp hHere).1

theorem mem_releaseAt_of_ne {place p : Place} (calls : List (LibCall σ ω)) (hv : v ∈ votes)
    (hOpen : v.isOpen p = true) (hNe : p ≠ place) : v ∈ releaseAt place calls votes := by
  rw [releaseAt]
  split
  · refine mem_filter.mpr ⟨hv, ?_⟩
    cases hHere : v.isOpen place with
    | false => rfl
    | true => exact absurd (((isOpen_iff p).mp hOpen).1.symm.trans ((isOpen_iff place).mp hHere).1) hNe
  · exact hv

theorem mem_votesAfter {c c' : Nat} (conn : Conn σ ω κ) (ok : Bool) (calls : List (LibCall σ ω)) (call : Call ω κ)
    (hv : v ∈ votes) (hOpen : v.isOpen (.attached c') = true) (hNe : c' ≠ c) :
    v ∈ votesAfter c conn ok calls votes call := by
  have hPlace : Place.attached c' ≠ .attached c := fun hEq => hNe (Place.attached.inj hEq)
  cases call with
  | commit all inTransaction =>
    rw [votesAfter]
    split
    · exact mem_askAt_of_ne calls hv hOpen hPlace
    · exact hv
  | rollback all inTransaction | close => exact mem_releaseAt_of_ne calls hv hOpen hPlace
  | prepare key all isExternal =>
    rw [votesAfter]
    split
    · exact mem_cons_of_mem _ hv
    · exact hv
  | _ => exact hv

theorem Inv.conn_kept {c : Nat} (h : Inv s) (hSame : s'.conns c = s.conns c)
    (hVotes : ∀ v ∈ s.votes, v.isOpen (.attached c) = true → v ∈ s'.votes) :
    Plain (s'.conns c).haData ∨ ∃ trx t, Sealed s' c trx t := by
  obtain hPlain | ⟨trx, t, hSealed⟩ := h.conns c
  · exact Or.inl (hSame ▸ hPlain)
  · obtain ⟨v, hv, hOpen, hBatch⟩ := hSealed.vote
    exact Or.inr ⟨trx, t,
      { hSealed with haData := (by rw [hSame]; exact hSealed.haData), vote := ⟨v, hVotes v hv hOpen, hOpen, hBatch⟩ }⟩

theorem Inv.other {c c' : Nat} (h : Inv s) (hConns : s'.conns = update s.conns c conn)
    (hVotes : ∀ v ∈ s.votes, v.isOpen (.attached c') = true → v ∈ s'.votes) (hNe : c' ≠ c) :
    Plain (s'.conns c').haData ∨ ∃ trx t, Sealed s' c' trx t :=
  h.conn_kept (by rw [hConns, update_of_ne hNe]) hVotes

def afterCall (s : Server σ ω κ) (c : Nat) (conn : Conn σ ω κ) (votes : List (Vote ω)) : Server σ ω κ :=
  { s with conns := update s.conns c conn, nextId := s.nextId + 1, votes }

theorem elsewhere_afterCall (s : Server σ ω κ) (c : Nat) (conn : Conn σ ω κ) (votes : List (Vote ω)) :
    Elsewhere s (afterCall s c conn votes) (.attached c) := elsewhere_update rfl rfl

theorem Inv.afterCall (h : Inv s) (hKeep : ∀ c', c' ≠ c → ∀ v ∈ s.votes, v.isOpen (.attached c') = true → v ∈ votes)
    (hConn : Plain conn.haData ∨ ∃ trx t, Sealed (afterCall s c conn votes) c trx t)
    (hVotes : ∀ v ∈ votes, VoteOk (afterCall s c conn votes) v) : Inv (afterCall s c conn votes) := by
  refine ⟨fun c' => ?_, hVotes⟩
  obtain rfl | hNe := eq_or_ne c' c
  · have hSelf : ((PreparedVote.afterCall s c' conn votes).conns c').haData = conn.haData := by
      simp [PreparedVote.afterCall]
    rw [hSelf]
    exact hConn
  · exact h.other rfl (hKeep c' hNe) hNe

theorem Inv.call_plain (h : Inv s) (hPlain : Plain (s.conns c).haData) (hPlain' : Plain conn.haData) (ok : Bool)
    (calls : List (LibCall σ ω)) (call : Call ω κ)
    (hPrepare : ∀ key all isExternal, call ≠ .prepare key all isExternal) :
    Inv (PreparedVote.afterCall s c conn (votesAfter c (s.conns c) ok calls s.votes call)) := by
  have hNot : ∀ batch, batch ≠ [] → ¬ At s batch (.attached c) := fun _ _ => hPlain.not_at
  refine h.afterCall (fun c' hNe v hv hOpen => mem_votesAfter _ ok calls call hv hOpen hNe) (Or.inl hPlain') ?_
  have hElse :
    Elsewhere s (PreparedVote.afterCall s c conn (votesAfter c (s.conns c) ok calls s.votes call)) (.attached c) :=
    elsewhere_afterCall s c conn _
  have hSame : ∀ v ∈ s.votes,
      VoteOk (PreparedVote.afterCall s c conn (votesAfter c (s.conns c) ok calls s.votes call)) v := by
    intro v hv
    refine (h.votes v hv).mono fun hNe hAt => ?_
    obtain hPlace | hPlace := eq_or_ne v.place (.attached c)
    · rw [hPlace] at hAt
      exact absurd hAt (hNot v.batch hNe)
    · exact hElse v.place hPlace v.batch hNe hAt
  cases call with
  | commit all inTransaction =>
    rw [votesAfter] at hElse hSame ⊢
    split
    · rename_i hReal
      rw [if_pos hReal] at hElse
      exact ask_ok h.votes hElse fun batch hNe hAt => absurd hAt (hNot batch hNe)
    · rename_i hReal
      rw [if_neg hReal] at hSame
      exact hSame
  | rollback all inTransaction =>
    exact release_ok h.votes hElse fun _ batch hNe hAt => absurd hAt (hNot batch hNe)
  | close => exact release_ok h.votes hElse fun _ batch hNe hAt => absurd hAt (hNot batch hNe)
  | prepare key all isExternal => exact absurd rfl (hPrepare key all isExternal)
  | _ => exact hSame

theorem outcome_commitStateful (t : LibTxn σ ω) : outcome [tdbTxnCommitStateful true t] = some true := by
  rw [tdbTxnCommitStateful]
  split <;> rfl

theorem rollsBack_rollbackStateful (t : LibTxn σ ω) : rollsBack (tdbTxnRollbackStateful t) = true := by
  rw [tdbTxnRollbackStateful]
  split <;> rfl

variable {t : LibTxn σ ω} {trx : FtsTrx σ ω κ}

theorem Sealed.finalize (h : Sealed s c trx t) (metaPut : FtsMetaDelta κ → ω) (a : Answers κ) :
    (a.commitOk = true ∧ Plain (tdbFinalizeCommit metaPut a trx).haData ∧
        outcome (tdbFinalizeCommit metaPut a trx).calls = some true) ∨
      (a.commitOk = false ∧ outcome (tdbFinalizeCommit metaPut a trx).calls = some false) := by
  have hDone := tdbFinalizeCommit_finalized metaPut a h.txn
  generalize tdbFinalizeCommit metaPut a trx = d at hDone ⊢
  cases hDone with
  | flushFailed trx' t' hDirty hFts hFreed hSame => exact absurd h.fts hFts
  | committed trx' t' hDirty hOk hEnded hSame => exact Or.inl ⟨hOk, .of_start hEnded.txn, outcome_commitStateful t'⟩
  | refused trx' t' hDirty hOk hFreed hSame =>
    refine Or.inr ⟨hOk, ?_⟩
    have hPrepared := hSame.prepared.trans h.prepared
    simp [outcome, tdbTxnCommitStateful, tdbTxnRollbackStateful, hPrepared, commits, rollsBack]
  | readOnly trx' t' hDirty hEnded hSame hOps => exact absurd (hDirty.symm.trans h.dirty) false_ne_true

theorem Inv.call_sealed [DecidableEq κ] {metaPut : FtsMetaDelta κ → ω} {id : Nat} {snapshot : σ} {a : Answers κ}
    {call : Call ω κ} (h : Inv s) (hSealed : Sealed s c trx t) (hAllowed : allowed (s.conns c) call = true)
    (hHonoured : Honoured s (.call c snapshot a call)) (stage : Stage) :
    Inv (PreparedVote.afterCall s c ⟨(perform metaPut id snapshot a (s.conns c).haData call).haData, stage⟩
      (votesAfter c (s.conns c) (perform metaPut id snapshot a (s.conns c).haData call).ok
        (perform metaPut id snapshot a (s.conns c).haData call).calls s.votes call)) := by
  have hPrepared : (s.conns c).prepared = true := by
    simp [Conn.prepared, Conn.txn, hSealed.haData, hSealed.txn, hSealed.prepared]
  have hKeep : ∀ c', c' ≠ c → ∀ v ∈ s.votes, v.isOpen (.attached c') = true → v ∈ votesAfter c (s.conns c)
      (perform metaPut id snapshot a (s.conns c).haData call).ok
      (perform metaPut id snapshot a (s.conns c).haData call).calls s.votes call :=
    fun c' hNe v hv hOpen => mem_votesAfter _ _ _ call hv hOpen hNe
  cases call with
  | commit all inTransaction =>
    cases hReal : all || !inTransaction with
    | false =>
      have hSame :
        perform metaPut id snapshot a (s.conns c).haData (.commit all inTransaction) = ⟨some trx, [], true⟩ := by
        simp [perform, onTrx, hSealed.haData, tidesdbCommit, hSealed.txn, hReal, StmtSavepoint.stmtSavepointDisarm,
          hSealed.unarmed]
      rw [votesAfter, hReal, if_neg Bool.false_ne_true] at hKeep ⊢
      rw [hSame]
      have hData : ((PreparedVote.afterCall s c ⟨some trx, stage⟩ s.votes).conns c).haData = some trx := by
        simp [PreparedVote.afterCall]
      refine h.afterCall (fun _ _ _ hv _ => hv) (Or.inr ⟨trx, t, { hSealed with haData := hData }⟩) fun v hv => ?_
      refine (h.votes v hv).mono fun hNe hAt => ?_
      obtain hPlace | hPlace := eq_or_ne v.place (.attached c)
      · rw [hPlace] at hAt ⊢
        obtain ⟨trx₀, t₀, hTrx₀, hRest⟩ := hAt
        exact ⟨trx₀, t₀, hData.trans (hSealed.haData.symm.trans hTrx₀), hRest⟩
      · exact elsewhere_afterCall s c _ _ v.place hPlace v.batch hNe hAt
    | true =>
      have hEq : perform metaPut id snapshot a (s.conns c).haData (.commit all inTransaction) =
          tdbFinalizeCommit metaPut a trx := by
        simp [perform, onTrx, hSealed.haData, tidesdbCommit, hSealed.txn, hReal]
      rw [votesAfter, hReal, if_pos rfl, hEq] at hKeep ⊢
      obtain ⟨_, hPlain, hOutcome⟩ | ⟨hFail, _⟩ := hSealed.finalize metaPut a
      · refine h.afterCall hKeep (Or.inl hPlain) ?_
        exact ask_ok h.votes (elsewhere_afterCall s c _ _) fun _ _ _ => Or.inl hOutcome
      · exact absurd (hFail.symm.trans (hHonoured hReal hPrepared)) false_ne_true
  | rollback all inTransaction =>
    have hEq : perform metaPut id snapshot a (s.conns c).haData (.rollback all inTransaction) =
        ⟨some (ended { cleared trx with stmtFtsSnapshot := [] }), [tdbTxnRollbackStateful t], true⟩ := by
      cases hReal : all || !inTransaction <;>
        simp [perform, onTrx, hSealed.haData, tidesdbRollback, hSealed.txn, hReal, StmtSavepoint.stmtSavepointRollback,
          hSealed.unarmed]
    rw [votesAfter, hEq] at hKeep ⊢
    refine h.afterCall hKeep (Or.inl (.ended_cleared hSealed.txn)) ?_
    refine release_ok h.votes (elsewhere_afterCall s c _ _) fun hNone => ?_
    rw [any_cons, rollsBack_rollbackStateful] at hNone
    cases hNone
  | close =>
    have hEq : perform metaPut id snapshot a (s.conns c).haData .close = ⟨none, [.rollback t, .free t], true⟩ := by
      simp [perform, onTrx, hSealed.haData, tidesdbCloseConnection, hSealed.txn]
    rw [votesAfter, hEq] at hKeep ⊢
    refine h.afterCall hKeep (Or.inl plain_none) ?_
    exact release_ok h.votes (elsewhere_afterCall s c _ _) fun hNone => absurd hNone.symm false_ne_true
  | _ => simp [allowed, hPrepared] at hAllowed

section

variable (h : Inv s) (hPlain : Plain (s.conns c).haData)
include h hPlain

theorem Inv.call_unvoted (hPlain' : Plain conn.haData) (vote : List (Vote ω)) (hVote : ∀ v ∈ vote, v.batch = []) :
    Inv (PreparedVote.afterCall s c conn (vote ++ s.votes)) := by
  refine h.afterCall (fun _ _ v hv _ => mem_append_right _ hv) (Or.inl hPlain') fun v hv => ?_
  obtain hNew | hOld := mem_append.mp hv
  · exact Or.inl (hVote v hNew)
  · refine (h.votes v hOld).mono fun hNe hAt => ?_
    obtain hPlace | hPlace := eq_or_ne v.place (.attached c)
    · rw [hPlace] at hAt
      exact absurd hAt hPlain.not_at
    · exact elsewhere_afterCall s c _ _ v.place hPlace v.batch hNe hAt

theorem Inv.call_voted {stage : Stage} (hTxn : trx.txn = some { t with prepared := !t.ops.isEmpty })
    (hDirty : trx.dirty = true) (hFts : trx.ftsMetaPending = []) (hUnarmed : trx.stmtSavepointActive = false) :
    Inv (PreparedVote.afterCall s c ⟨some trx, stage⟩ (⟨.attached c, t.ops, false, none⟩ :: s.votes)) := by
  obtain hNil | hNe := eq_or_ne t.ops []
  · refine h.call_unvoted hPlain (.of_some hTxn (by simp [hNil]) fun _ => hDirty) [⟨.attached c, t.ops, false, none⟩] ?_
    intro v hv
    cases mem_singleton.mp hv
    exact hNil
  · have hData : ((PreparedVote.afterCall s c ⟨some trx, stage⟩ (⟨.attached c, t.ops, false, none⟩ :: s.votes)).conns
        c).haData = some trx := by simp [PreparedVote.afterCall]
    have hPrepared : (!t.ops.isEmpty) = true := by simp [hNe]
    refine h.afterCall (fun _ _ v hv _ => mem_cons_of_mem _ hv)
      (Or.inr ⟨trx, { t with prepared := !t.ops.isEmpty }, ?_⟩)
      fun v hv => ?_
    · refine ⟨hData, hTxn, hPrepared, hDirty, hFts, hUnarmed, ⟨.attached c, t.ops, false, none⟩, ?_, ?_, hNe⟩
      · exact mem_cons_self
      · simp [Vote.isOpen]
    · obtain rfl | hOld := mem_cons.mp hv
      · exact Or.inr (Or.inr ⟨rfl, nofun, trx, _, hData, hTxn, hPrepared, rfl⟩)
      · refine (h.votes v hOld).mono fun hNe' hAt => ?_
        obtain hPlace | hPlace := eq_or_ne v.place (.attached c)
        · rw [hPlace] at hAt
          exact absurd hAt hPlain.not_at
        · exact elsewhere_afterCall s c _ _ v.place hPlace v.batch hNe' hAt

theorem Inv.call_published {key : Key} (hPlain' : Plain conn.haData) (hFresh : s.registry.get key = none) :
    Inv { PreparedVote.afterCall s c conn (⟨.registered key, t.ops, false, none⟩ :: s.votes) with
      registry := s.registry.put key { t with prepared := !t.ops.isEmpty } } := by
  refine ⟨fun c' => ?_, fun v hv => ?_⟩
  · obtain rfl | hNe := eq_or_ne c' c
    · refine Or.inl ?_
      have hSelf : update s.conns c' conn c' = conn := update_self ..
      simpa [PreparedVote.afterCall, hSelf] using hPlain'
    · exact h.other rfl (fun v hv _ => mem_cons_of_mem _ hv) hNe
  · obtain rfl | hOld := mem_cons.mp hv
    · obtain hNil | hNe := eq_or_ne t.ops []
      · exact Or.inl hNil
      · refine Or.inr (Or.inr ⟨rfl, nofun, { t with prepared := !t.ops.isEmpty }, ?_, by simp [hNe], rfl⟩)
        rw [Store.get_put, if_pos rfl]
    · refine (h.votes v hOld).mono fun hNe hAt => ?_
      cases hPlace : v.place with
      | attached c' =>
        rw [hPlace] at hAt
        obtain rfl | hOther := eq_or_ne c' c
        · exact absurd hAt hPlain.not_at
        · obtain ⟨trx₀, t₀, hTrx₀, hRest⟩ := hAt
          exact ⟨trx₀, t₀, by simpa [PreparedVote.afterCall, update_of_ne hOther] using hTrx₀, hRest⟩
      | registered key' =>
        rw [hPlace] at hAt
        obtain ⟨t', hGet, hRest⟩ := hAt
        have hKey : key' ≠ key := by
          rintro rfl
          rw [hFresh] at hGet
          cases hGet
        exact ⟨t', by rw [Store.get_put, if_neg hKey]; exact hGet, hRest⟩

end

theorem elsewhere_registry {key : Key} (hConns : s'.conns = s.conns)
    (hGet : ∀ key', key' ≠ key → s'.registry.get key' = s.registry.get key') : Elsewhere s s' (.registered key) := by
  intro p hNe batch _ hAt
  cases p with
  | attached c =>
    rw [At, hConns]
    exact hAt
  | registered key' =>
    obtain ⟨t, hSome, hRest⟩ := hAt
    exact ⟨t, (hGet key' fun hEq => hNe (by rw [hEq])).trans hSome, hRest⟩

theorem Inv.of_registry (h : Inv s) (hConns : s'.conns = s.conns)
    (hKeep : ∀ c, ∀ v ∈ s.votes, v.isOpen (.attached c) = true → v ∈ s'.votes) (hVotes : ∀ v ∈ s'.votes, VoteOk s' v) :
    Inv s' :=
  ⟨fun c => h.conn_kept (by rw [hConns]) (hKeep c), hVotes⟩

variable {key key' : Key}

theorem get_drop_put {registry : Store Key (LibTxn σ ω)} (t : LibTxn σ ω) (hNe : key' ≠ key) :
    ((registry.drop key).put key t).get key' = registry.get key' := by
  rw [Store.get_put, if_neg hNe, Store.get_drop, if_neg hNe]

section

variable (ok : Bool) (registry : Store Key (LibTxn σ ω)) (hNe : key' ≠ key)
include hNe

theorem get_commitByXid_of_ne : (tidesdbCommitByXid key ok registry).1.get key' = registry.get key' := by
  rw [tidesdbCommitByXid]
  cases registry.get key with
  | none => rfl
  | some t =>
    cases ok with
    | false => exact get_drop_put t hNe
    | true => exact (Store.get_drop ..).trans (if_neg hNe)

theorem get_rollbackByXid_of_ne : (tidesdbRollbackByXid key ok registry).1.get key' = registry.get key' := by
  rw [tidesdbRollbackByXid]
  cases registry.get key with
  | none => rfl
  | some t =>
    cases ok with
    | false => exact get_drop_put t hNe
    | true => exact (Store.get_drop ..).trans (if_neg hNe)

end

theorem Inv.commitByXid (h : Inv s) (key : Key) (ok : Bool) :
    Inv { s with registry := (tidesdbCommitByXid key ok s.registry).1,
                 votes := askAt (.registered key) (tidesdbCommitByXid key ok s.registry).2 s.votes } := by
  refine h.of_registry rfl (fun c v hv hOpen => mem_askAt_of_ne _ hv hOpen nofun) ?_
  refine ask_ok h.votes (elsewhere_registry rfl fun _ => get_commitByXid_of_ne ok s.registry) ?_
  rintro batch hNe ⟨t, hGet, hPrepared, hOps⟩
  rw [tidesdbCommitByXid, hGet]
  cases ok with
  | true => exact Or.inl rfl
  | false => exact Or.inr ⟨rfl, nofun, t, (Store.get_put ..).trans (if_pos rfl), hPrepared, hOps⟩

theorem Inv.rollbackByXid (h : Inv s) (key : Key) (ok : Bool) :
    Inv { s with registry := (tidesdbRollbackByXid key ok s.registry).1,
                 votes := releaseAt (.registered key) (tidesdbRollbackByXid key ok s.registry).2 s.votes } := by
  refine h.of_registry rfl (fun c v hv hOpen => mem_releaseAt_of_ne _ hv hOpen nofun) ?_
  refine release_ok h.votes (elsewhere_registry rfl fun _ => get_rollbackByXid_of_ne ok s.registry) ?_
  rintro hKept batch hNe ⟨t, hGet, hPrepared, hOps⟩
  rw [tidesdbRollbackByXid, hGet] at hKept
  rw [At]
  dsimp only
  rw [tidesdbRollbackByXid, hGet]
  cases ok with
  | true => cases hKept
  | false => exact ⟨t, (Store.get_put ..).trans (if_pos rfl), hPrepared, hOps⟩

section Step

variable [DecidableEq κ] {metaPut : FtsMetaDelta κ → ω}

variable {a : Answers κ} {snapshot : σ}

theorem step_call_eq_some {c : Nat} {call : Call ω κ} (h : step metaPut s (.call c snapshot a call) = some s') :
    ∃ d, d = perform metaPut s.nextId snapshot a (s.conns c).haData call ∧ fresh s.registry call = true ∧
      allowed (s.conns c) call = true ∧
      s' = { PreparedVote.afterCall s c ⟨d.haData, nextStage (s.conns c).stage d.ok call⟩
          (votesAfter c (s.conns c) d.ok d.calls s.votes call) with
        registry := match published metaPut a (s.conns c) call with
          | some entry => s.registry.put entry.1 entry.2
          | none => s.registry } := by
  rw [step] at h
  split at h
  · rename_i hFresh
    obtain ⟨⟨conn, calls⟩, hConn, rfl⟩ := Option.map_eq_some_iff.mp h
    obtain ⟨hAllowed, rfl, rfl⟩ := Conn.step_eq_some hConn
    exact ⟨_, rfl, hFresh, hAllowed, rfl⟩
  · cases h

theorem Inv.prepare {c : Nat} {key : Key} {all isExternal : Bool} (h : Inv s) (hPlain : Plain (s.conns c).haData)
    (hStep : step metaPut s (.call c snapshot a (.prepare key all isExternal)) = some s') : Inv s' := by
  obtain ⟨d, hd, hFresh, _, rfl⟩ := step_call_eq_some hStep
  rw [published, votesAfter]
  rw [perform] at hd
  cases hTrx : (s.conns c).haData with
  | none =>
    have hNone : (s.conns c).txn = none := by simp [Conn.txn, hTrx]
    rw [hTrx, onTrx] at hd
    subst hd
    simp only [hNone, isSome_none, Bool.and_false, Bool.false_eq_true, if_false]
    exact h.call_unvoted hPlain plain_none [] nofun
  | some trx =>
    rw [hTrx, onTrx] at hd
    cases hTxn : trx.txn with
    | none =>
      have hNone : (s.conns c).txn = none := by simp [Conn.txn, hTrx, hTxn]
      have hEq : tidesdbPrepare metaPut key all isExternal a trx = (⟨some trx, [], true⟩, none) := by
        simp [tidesdbPrepare, hTxn]
      rw [bind_some, hEq, hNone]
      rw [hEq] at hd
      subst hd
      simp only [isSome_none, Bool.and_false, Bool.false_eq_true, if_false]
      exact h.call_unvoted hPlain (.of_none hTxn) [] nofun
    | some t =>
      have hPlain₀ : Plain (some trx) := hTrx ▸ hPlain
      have hMarked := (hPlain trx t hTrx hTxn).2
      have hActive : (s.conns c).txn = some t := by simp [Conn.txn, hTrx, hTxn]
      have hDone := tidesdbPrepare_afterPrepare metaPut key all isExternal a hTxn
      rw [bind_some, hActive]
      generalize tidesdbPrepare metaPut key all isExternal a trx = r at hDone hd ⊢
      subst hd
      cases hDone with
      | deferred hAll =>
        rw [hAll]
        exact h.call_unvoted hPlain hPlain₀ [] nofun
      | readOnly sps fts hDirty hInternal hAll =>
        have hNil : t.ops = [] := by
          apply Classical.byContradiction
          intro hNe
          exact absurd (hDirty.symm.trans (hMarked hNe)) Bool.false_ne_true
        rw [hAll, hInternal]
        refine h.call_unvoted hPlain ?_ [⟨.attached c, t.ops, false, none⟩] fun v hv => ?_
        · exact hPlain₀.of_less hTxn rfl rfl (fun hNil => hNil) rfl
        · cases mem_singleton.mp hv
          exact hNil
      | flushFailed trx' t' hDirty hFreed hSame | refused trx' t' hFreed hSame hAll hVote hPuts =>
        simp only [Bool.and_false, Bool.false_and, Bool.false_eq_true, if_false]
        exact h.call_unvoted hPlain (.of_none hFreed.txn) [] nofun
      | detached trx' t' hFreed hSame hAll hExternal hFts hPuts =>
        rw [hAll, hExternal]
        refine h.call_published hPlain (.of_none hFreed.txn) ?_
        rw [fresh, hExternal] at hFresh
        simpa using hFresh
      | prepared trx' t' hDirty hDirty' hTxn' hNeeds hUnarmed hFts hSame hInternal hPuts hAll =>
        rw [hAll, hInternal]
        exact h.call_voted hPlain hTxn' hDirty' hFts hUnarmed

theorem step_inv {e : Event σ ω κ} (h : Inv s) (hHonoured : Honoured s e) (hStep : step metaPut s e = some s') :
    Inv s' := by
  cases e with
  | call c snapshot a call =>
    by_cases hPrepare : ∃ key all isExternal, call = .prepare key all isExternal
    · obtain ⟨key, all, isExternal, rfl⟩ := hPrepare
      obtain hPlain | ⟨trx, t, hSealed⟩ := h.conns c
      · exact h.prepare hPlain hStep
      · obtain ⟨d, _, _, hAllowed, _⟩ := step_call_eq_some hStep
        have hPrepared : (s.conns c).prepared = true := by
          simp [Conn.prepared, Conn.txn, hSealed.haData, hSealed.txn, hSealed.prepared]
        simp [allowed, hPrepared] at hAllowed
    · obtain ⟨d, rfl, _, hAllowed, rfl⟩ := step_call_eq_some hStep
      have hNot : ∀ key all isExternal, call ≠ .prepare key all isExternal :=
        fun key all isExternal hEq => hPrepare ⟨key, all, isExternal, hEq⟩
      have hPublished : published metaPut a (s.conns c) call = none := by
        cases call <;> first | rfl | exact absurd rfl (hNot _ _ _)
      rw [hPublished]
      obtain hPlain | ⟨trx, t, hSealed⟩ := h.conns c
      · refine h.call_plain hPlain
          (hPlain.perform metaPut s.nextId snapshot a call (fun hBulk trx hTrx => ?_) hNot) _ _ call hNot
        subst hBulk
        simpa [allowed, hTrx] using (and_eq_true_iff.mp hAllowed).2
      · exact h.call_sealed hSealed hAllowed hHonoured _
  | commitByXid key ok =>
    cases hStep
    exact h.commitByXid key ok
  | rollbackByXid key ok =>
    cases hStep
    exact h.rollbackByXid key ok

theorem not_kept_of_refused {c : Nat} {all inTransaction : Bool} (h : Inv s) (hReal : (all || !inTransaction) = true)
    (hPrepared : (s.conns c).prepared = true) (hFail : a.commitOk = false)
    (hStep : step metaPut s (.call c snapshot a (.commit all inTransaction)) = some s') :
    ∃ v ∈ s'.votes, ¬ Kept s' v := by
  obtain hPlain | ⟨trx, t, hSealed⟩ := h.conns c
  · rw [hPlain.unprepared] at hPrepared
    cases hPrepared
  · obtain ⟨d, hd, _, _, rfl⟩ := step_call_eq_some hStep
    have hEq : d = tdbFinalizeCommit metaPut a trx := by
      simp [hd, perform, onTrx, hSealed.haData, tidesdbCommit, hSealed.txn, hReal]
    obtain ⟨hOk, _⟩ | ⟨_, hOutcome⟩ := hSealed.finalize metaPut a
    · exact absurd (hFail.symm.trans hOk) false_ne_true
    · obtain ⟨v, hv, hOpen, hNe⟩ := hSealed.vote
      refine ⟨{ v with asked := true, committed := outcome d.calls }, ?_, ?_⟩
      · rw [votesAfter, if_pos hReal]
        exact mem_map.mpr ⟨v, hv, if_pos hOpen⟩
      · rw [Kept, hEq, hOutcome]
        simp [hNe]

end Step

end Votes

/-- In every run whose steps all meet the condition the votes are kept, and the first step that does not
meet it breaks one. -/
theorem votes_kept_iff_honoured [DecidableEq κ] (metaPut : FtsMetaDelta κ → ω) {s : Server σ ω κ}
    (hReach : Reach (step metaPut) Honoured init s) :
    (∀ v ∈ s.votes, Kept s v) ∧ ∀ e s', step metaPut s e = some s' → ((∀ v ∈ s'.votes, Kept s' v) ↔ Honoured s e) := by
  have hInv : Inv s := hReach.invariant Inv .init fun _ _ _ => step_inv
  refine ⟨fun v hv => (hInv.votes v hv).kept, fun e s' hStep => ⟨fun hKept => ?_, fun hHonoured v hv => ?_⟩⟩
  · cases e with
    | commitByXid key ok | rollbackByXid key ok => trivial
    | call c snapshot a call =>
      cases call with
      | commit all inTransaction =>
        intro hReal hPrepared
        cases hOk : a.commitOk with
        | true => rfl
        | false =>
          obtain ⟨v, hv, hNot⟩ := not_kept_of_refused hInv hReal hPrepared hOk hStep
          exact absurd (hKept v hv) hNot
      | _ => trivial
  · exact ((step_inv hInv hHonoured hStep).votes v hv).kept

def begun : Event Unit Nat Unit := .call 0 () .fine (.lock false false)

def written : Event Unit Nat Unit := .call 0 () .fine (.row [7] [])

def stmtEnd : Event Unit Nat Unit := .call 0 () .fine (.commit false true)

def voting : Event Unit Nat Unit := .call 0 () .fine (.prepare [] true false)

def deciding (commitOk : Bool) : Event Unit Nat Unit :=
  .call 0 () { (.fine : Answers Unit) with commitOk } (.commit true true)

theorem votes_kept_after_voting :
    ∃ s : Server Unit Nat Unit, s.votes = [⟨.attached 0, [7], false, none⟩] ∧ (∀ v ∈ s.votes, Kept s v) ∧
      ∀ e s', step (fun _ => 0) s e = some s' → ((∀ v ∈ s'.votes, Kept s' v) ↔ Honoured s e) :=
  ⟨_, rfl, votes_kept_iff_honoured (fun _ => 0)
    (.step voting (.step stmtEnd (.step written (.step begun .init trivial rfl) trivial rfl) nofun rfl) trivial rfl)⟩

/-- One row written and prepared under the binary log, and a phase-two commit the library refuses. -/
theorem vote_broken_by_refused_commit :
    ¬ ∀ s : Server Unit Nat Unit, Reach (step fun _ => 0) (fun _ _ => True) init s → ∀ v ∈ s.votes, Kept s v := by
  intro hAll
  have hKept := hAll _
    (.step (deciding false) (.step voting (.step stmtEnd (.step written (.step begun .init trivial rfl) trivial rfl)
      trivial rfl) trivial rfl) trivial rfl)
    ⟨.attached 0, [7], true, some false⟩ (mem_singleton.mpr rfl)
  simp [Kept] at hKept

end TideSql.PreparedVote
