import TideSql.Handler.Connection

/-!
# Reusing the library transaction

A commit or rollback keeps the library transaction and leaves `needs_reset` behind, so that
`get_or_create_trx` resets it for the next one.
-/

namespace TideSql.TrxReuse
open XidKey Connection Lib.Run Option Bool
open Txn (LibTxn SavepointName)
open StmtSavepoint (FtsTrx FtsMetaDelta)

variable {ω κ : Type}

structure Timed (ω κ : Type) where
  conn : Conn Nat ω κ
  now : Nat
  lastEnd : Nat

structure Action (ω κ : Type) where
  id : Nat
  answers : Answers κ
  call : Call ω κ

def ends : LibCall Nat ω → Bool
  | .commit _ ok | .commitPrepared _ ok => ok
  | .rollback _ | .rollbackPrepared _ => true
  | _ => false

def step [DecidableEq κ] (metaPut : FtsMetaDelta κ → ω) (s : Timed ω κ) (x : Action ω κ) : Option (Timed ω κ) :=
  (s.conn.step metaPut x.id s.now x.answers x.call).map fun r =>
    ⟨r.1, s.now + 1, if r.2.any ends then s.now else s.lastEnd⟩

def init : Timed ω κ := ⟨Conn.init, 0, 0⟩

/-- Whatever `get_or_create_trx` is answered, it resets and frees no write, and what it hands out has
been begun after the last end. -/
structure Safe (s : Timed ω κ) : Prop where
  writes : ∀ id a t, LibCall.reset t ∈ (getOrCreateTrx id s.now a s.conn.haData).calls ∨
      LibCall.free t ∈ (getOrCreateTrx id s.now a s.conn.haData).calls → t.ops = []
  snapshot : ∀ id a trx t, (getOrCreateTrx id s.now a s.conn.haData).ok = true →
    (getOrCreateTrx id s.now a s.conn.haData).haData = some trx → trx.txn = some t → s.lastEnd ≤ t.snapshot

/-- The condition on a step: no call gives a transaction back while a reset of it is due. -/
def Clear (s : Timed ω κ) (x : Action ω κ) : Prop :=
  match x.call with
  | .lock _ _ | .openTrx | .ddl _ =>
    (x.answers.resetOk || x.answers.beginOk) = false → ∀ trx, s.conn.haData = some trx → trx.txn.isSome = true →
      trx.needsReset = false
  | .deleteAllRows | .releaseOwnTxn =>
    ∀ trx, s.conn.haData = some trx → trx.txn.isSome = true → trx.needsReset = false
  | .prepare _ all isExternal =>
    (all && isExternal) = true → ∀ trx, s.conn.haData = some trx → trx.txn.isSome = true → trx.needsReset = false
  | _ => True

structure Ready (lastEnd : Nat) (trx : FtsTrx Nat ω κ) : Prop where
  gone : trx.txn = none → trx.needsReset = false
  spent : ∀ t, trx.txn = some t → trx.needsReset = true → t.ops = [] ∧ trx.dirty = false
  fresh : ∀ t, trx.txn = some t → trx.needsReset = false → lastEnd ≤ t.snapshot

section Trx

variable {trx trx' : FtsTrx Nat ω κ} {t t' : LibTxn Nat ω} {lastEnd now : Nat}

theorem Ready.of_none (hTxn : trx.txn = none) (hNeeds : trx.needsReset = false) : Ready lastEnd trx := by
  refine ⟨fun _ => hNeeds, fun t ht => ?_, fun t ht => ?_⟩
  all_goals
    rw [hTxn] at ht
    cases ht

theorem Ready.of_freed (hNeeds : trx.needsReset = false) (h : Freed trx trx') : Ready lastEnd trx' :=
  .of_none h.txn (h.needsReset.trans hNeeds)

theorem Ready.of_ended (h : Ended t trx') : Ready lastEnd trx' := by
  refine ⟨fun hNone => ?_, fun t' ht' _ => ?_, fun t' _ hNeeds => ?_⟩
  · rw [h.txn] at hNone
    cases hNone
  · rw [h.txn] at ht'
    cases ht'
    exact ⟨rfl, h.dirty⟩
  · rw [h.needsReset] at hNeeds
    cases hNeeds

theorem Ready.of_start {id : Nat} (hTxn : trx.txn = some (.start id now)) (hNeeds : trx.needsReset = false)
    (hEnd : lastEnd ≤ now) : Ready lastEnd trx := by
  refine ⟨fun _ => hNeeds, fun t _ hDue => ?_, fun t ht _ => ?_⟩
  · rw [hNeeds] at hDue
    cases hDue
  · rw [hTxn] at ht
    cases ht
    exact hEnd

section

variable (h : Ready lastEnd trx) (hTxn : trx.txn = some t) (hTxn' : trx'.txn = some t')
    (hSnapshot : t'.snapshot = t.snapshot)
include h hTxn hTxn' hSnapshot

theorem Ready.of_live (hNeeds : trx.needsReset = false) (hNeeds' : trx'.needsReset = false) : Ready lastEnd trx' := by
  refine ⟨fun _ => hNeeds', fun _ _ hDue => ?_, fun t₀ ht₀ _ => ?_⟩
  · rw [hNeeds'] at hDue
    cases hDue
  · rw [hTxn'] at ht₀
    cases ht₀
    rw [hSnapshot]
    exact h.fresh t hTxn hNeeds

theorem Ready.of_resaved (hOps : t.ops = [] → t'.ops = []) (hNeeds : trx'.needsReset = trx.needsReset)
    (hDirty : trx'.dirty = trx.dirty) : Ready lastEnd trx' := by
  refine ⟨fun hNone => ?_, fun t₀ ht₀ hDue => ?_, fun t₀ ht₀ hLive => ?_⟩
  · rw [hTxn'] at hNone
    cases hNone
  · rw [hTxn'] at ht₀
    cases ht₀
    obtain ⟨hNil, hClean⟩ := h.spent t hTxn (hNeeds.symm.trans hDue)
    exact ⟨hOps hNil, hDirty.trans hClean⟩
  · rw [hTxn'] at ht₀
    cases ht₀
    rw [hSnapshot]
    exact h.fresh t hTxn (hNeeds.symm.trans hLive)

end

theorem Ready.needsReset_eq_false (h : Ready lastEnd trx) (hTxn : trx.txn = some t) (hDirty : trx.dirty = true) :
    trx.needsReset = false := by
  cases hDue : trx.needsReset with
  | false => rfl
  | true =>
    rw [(h.spent t hTxn hDue).2] at hDirty
    cases hDirty

def Leaves (lastEnd now : Nat) (d : Done Nat ω κ) : Prop :=
  ∀ trx, d.haData = some trx → Ready (if d.calls.any ends then now else lastEnd) trx

theorem Leaves.of_kept {ok : Bool} (h : Ready lastEnd trx) : Leaves lastEnd now ⟨some trx, [], ok⟩ := by
  intro trx' hTrx'
  cases hTrx'
  exact h

theorem Leaves.of_renewed {calls : List (LibCall Nat ω)} {ok : Bool} (hNow : lastEnd ≤ now)
    (h : ∀ n ≤ now, Ready n trx) : Leaves lastEnd now ⟨some trx, calls, ok⟩ := by
  intro trx' hTrx'
  cases hTrx'
  refine h _ ?_
  split
  · exact le_rfl
  · exact hNow

/-- What `Clear` asks of a call that opens a transaction. -/
def Renews (a : Answers κ) (haData : Option (FtsTrx Nat ω κ)) : Prop :=
  (a.resetOk || a.beginOk) = false → ∀ trx, haData = some trx → trx.txn.isSome = true → trx.needsReset = false

theorem getOrCreate_leaves {haData : Option (FtsTrx Nat ω κ)} (id : Nat) (a : Answers κ) (hNow : lastEnd ≤ now)
    (h : ∀ trx, haData = some trx → Ready lastEnd trx)
    (hClear : Renews a haData) : Leaves lastEnd now (getOrCreateTrx id now a haData) := by
  have hDone := getOrCreateTrx_opened id now a haData
  generalize getOrCreateTrx id now a haData = d at hDone ⊢
  cases hDone with
  | created => exact .of_renewed hNow fun n hn => .of_start rfl rfl hn
  | absent => exact nofun
  | begun trx hTxn => exact .of_renewed hNow fun n hn => .of_start rfl ((h trx rfl).gone hTxn) hn
  | refused trx hTxn | kept trx t hTxn hNeeds => exact .of_kept (h trx rfl)
  | renewed trx t id' call hTxn hNeeds hCall => exact .of_renewed hNow fun n hn => .of_start rfl rfl hn
  | lost trx t hTxn hNeeds hFail =>
    have hLive := hClear hFail trx rfl (by rw [hTxn]; rfl)
    rw [hNeeds] at hLive
    cases hLive

theorem needsReset_getOrCreate {haData : Option (FtsTrx Nat ω κ)} {id : Nat} {a : Answers κ}
    (h : ∀ trx, haData = some trx → Ready lastEnd trx) (hOk : (getOrCreateTrx id now a haData).ok = true)
    (hTrx : (getOrCreateTrx id now a haData).haData = some trx) : trx.needsReset = false := by
  have hDone := getOrCreateTrx_opened id now a haData
  generalize getOrCreateTrx id now a haData = d at hOk hTrx hDone
  cases hDone with
  | created | renewed trx₀ t id' call hTxn hNeeds hCall =>
    cases hTrx
    rfl
  | begun trx₀ hTxn =>
    cases hTrx
    exact (h trx₀ rfl).gone hTxn
  | kept trx₀ t hTxn hNeeds =>
    cases hTrx
    exact hNeeds
  | absent | refused trx₀ hTxn | lost trx₀ t hTxn hNeeds hFail => cases hOk

theorem commit_leaves (metaPut : FtsMetaDelta κ → ω) (all inTransaction : Bool) (a : Answers κ) (hNow : lastEnd ≤ now)
    (h : Ready lastEnd trx) : Leaves lastEnd now (tidesdbCommit metaPut all inTransaction a trx) := by
  rw [tidesdbCommit]
  cases hTxn : trx.txn with
  | none => exact .of_kept h
  | some t =>
    rw [if_neg (by simp)]
    split
    · have hDone := tdbFinalizeCommit_finalized metaPut a hTxn
      generalize tdbFinalizeCommit metaPut a trx = d at hDone ⊢
      cases hDone with
      | flushFailed trx₁ t' hDirty hFts hFreed hSame | refused trx₁ t' hDirty hOk hFreed hSame =>
        exact .of_renewed hNow fun _ _ => .of_freed (h.needsReset_eq_false hTxn hDirty) hFreed
      | committed trx₁ t' hDirty hOk hEnded hSame => exact .of_renewed hNow fun _ _ => .of_ended hEnded
      | readOnly trx₁ t' hDirty hEnded hSame hOps => exact .of_renewed hNow fun _ _ => .of_ended hEnded
    · obtain ⟨sps, fts, hEq⟩ := stmtSavepointDisarm_eq a.releaseOk hTxn
      rw [hEq]
      exact .of_kept (h.of_resaved hTxn rfl rfl id rfl rfl)

theorem prepare_leaves (metaPut : FtsMetaDelta κ → ω) (key : Key) (all isExternal : Bool) (a : Answers κ)
    (hNow : lastEnd ≤ now) (h : Ready lastEnd trx)
    (hClear : (all && isExternal) = true → trx.txn.isSome = true → trx.needsReset = false) :
    Leaves lastEnd now (tidesdbPrepare metaPut key all isExternal a trx).1 := by
  cases hTxn : trx.txn with
  | none =>
    rw [tidesdbPrepare, hTxn]
    exact .of_kept h
  | some t =>
    rw [hTxn] at hClear
    have hDone := tidesdbPrepare_afterPrepare metaPut key all isExternal a hTxn
    generalize tidesdbPrepare metaPut key all isExternal a trx = d at hDone ⊢
    cases hDone with
    | deferred hAll => exact .of_kept h
    | readOnly sps fts hDirty hInternal => exact .of_kept (h.of_resaved hTxn rfl rfl id rfl rfl)
    | flushFailed trx₁ t' hDirty hFreed hSame =>
      exact .of_renewed hNow fun _ _ => .of_freed (h.needsReset_eq_false hTxn hDirty) hFreed
    | refused trx₁ t' hFreed hSame hAll hVote hPuts =>
      refine .of_renewed hNow fun _ _ => .of_freed ?_ hFreed
      obtain hDirty | hExternal := or_eq_true_iff.mp hVote
      · exact h.needsReset_eq_false hTxn hDirty
      · exact hClear (by rw [hAll, hExternal]; rfl) rfl
    | detached trx₁ t' hFreed hSame hAll hExternal hFts hPuts =>
      exact .of_renewed hNow fun _ _ => .of_freed (hClear (by rw [hAll, hExternal]; rfl) rfl) hFreed
    | prepared trx₁ t' hDirty hDirty' hTxn' hNeeds hUnarmed hFts hSame hInternal hPuts =>
      have hLive := h.needsReset_eq_false hTxn hDirty
      intro trx' hTrx'
      cases hTrx'
      exact h.of_live hTxn hTxn' hSame.snapshot hLive (hNeeds.trans hLive)

theorem rollback_leaves (all inTransaction : Bool) (a : Answers κ) (hNow : lastEnd ≤ now) (h : Ready lastEnd trx) :
    Leaves lastEnd now (tidesdbRollback all inTransaction a trx) := by
  cases hTxn : trx.txn with
  | none =>
    rw [tidesdbRollback, hTxn]
    exact .of_kept h
  | some t =>
    have hDone := tidesdbRollback_rolledBack all inTransaction a hTxn
    generalize tidesdbRollback all inTransaction a trx = d at hDone ⊢
    cases hDone with
    | full trx₁ hEnded => exact .of_renewed hNow fun _ _ => .of_ended hEnded
    | statement m count older hStmt hOk hActive hDrop =>
      refine .of_kept (h.of_resaved hTxn rfl rfl (fun hNil => ?_) rfl rfl)
      rw [hNil, List.take_nil]

theorem bulk_leaves (metaPut : FtsMetaDelta κ → ω) (id : Nat) (a : Answers κ) (hNow : lastEnd ≤ now)
    (h : Ready lastEnd trx) (hTxn : trx.txn = some t) (hNeeds : trx.needsReset = false) :
    Leaves lastEnd now (maybeBulkCommit metaPut id now a trx) ∧
      ((maybeBulkCommit metaPut id now a trx).ok = true → ∃ trx' t', (maybeBulkCommit metaPut id now a trx).haData =
        some trx' ∧ trx'.txn = some t' ∧ trx'.needsReset = false) := by
  have hDone := maybeBulkCommit_afterBulk metaPut id now a hTxn
  generalize maybeBulkCommit metaPut id now a trx = d at hDone ⊢
  cases hDone with
  | flushFailed ws hFts => exact ⟨.of_kept (h.of_live hTxn rfl rfl hNeeds hNeeds), nofun⟩
  | refused trx₁ t' hSame hTxn' hDirty hNeeds' hFts =>
    refine ⟨.of_renewed hNow fun n hn => ?_, nofun⟩
    obtain hNone | ⟨hStart, _⟩ := hTxn'
    · exact .of_none hNone (hNeeds'.trans hNeeds)
    · exact .of_start hStart (hNeeds'.trans hNeeds) hn
  | lost trx₁ t' hSame hTxn' hNeeds' hFts =>
    exact ⟨.of_renewed hNow fun _ _ => .of_none hTxn' (hNeeds'.trans hNeeds), nofun⟩
  | batch trx₁ t' id' call hSame hTxn' hId hCall hDirty hNeeds' hFts =>
    have hLive := hNeeds'.trans hNeeds
    exact ⟨.of_renewed hNow fun n hn => .of_start hTxn' hLive hn, fun _ => ⟨trx₁, _, rfl, hTxn', hLive⟩⟩

theorem savepointRollback_leaves (slot : Nat) (a : Answers κ) (h : Ready lastEnd trx) :
    Leaves lastEnd now (tidesdbSavepointRollback slot a trx) := by
  cases hTxn : trx.txn with
  | none =>
    rw [tidesdbSavepointRollback, hTxn]
    exact .of_kept h
  | some t =>
    obtain hEq | ⟨m, count, older, sps, _, _, _, hEq⟩ := tidesdbSavepointRollback_cases slot a hTxn
    all_goals rw [hEq]
    · exact .of_kept h
    · refine .of_kept (h.of_resaved hTxn rfl rfl (fun hNil => ?_) rfl rfl)
      rw [hNil, List.take_nil]

theorem Ready.map_txn (h : Ready lastEnd trx) {f : LibTxn Nat ω → LibTxn Nat ω}
    (hf : ∀ t, (f t).snapshot = t.snapshot ∧ (f t).ops = t.ops) (hTxn : trx'.txn = trx.txn.map f)
    (hNeeds : trx'.needsReset = trx.needsReset) (hDirty : trx'.dirty = trx.dirty) : Ready lastEnd trx' := by
  cases hEq : trx.txn with
  | none =>
    rw [hEq, map_none] at hTxn
    exact .of_none hTxn (hNeeds.trans (h.gone hEq))
  | some t =>
    rw [hEq, map_some] at hTxn
    exact h.of_resaved hEq hTxn (hf t).1 (fun hNil => (hf t).2.trans hNil) hNeeds hDirty

theorem savepointSet_leaves (slot : Nat) (a : Answers κ) (h : Ready lastEnd trx) :
    Leaves lastEnd now (Connection.tidesdbSavepointSet slot a trx) := by
  rw [tidesdbSavepointSet]
  split
  · exact .of_kept (h.map_txn (f := (·.savepoint (.user slot))) (fun _ => ⟨rfl, rfl⟩) rfl rfl rfl)
  · exact .of_kept h

theorem savepointRelease_leaves (slot : Nat) (a : Answers κ) (h : Ready lastEnd trx) :
    Leaves lastEnd now (Connection.tidesdbSavepointRelease slot a trx) := by
  rw [tidesdbSavepointRelease]
  split
  · exact .of_kept (h.map_txn (f := (·.releaseSavepoint (.user slot))) (fun _ => ⟨rfl, rfl⟩) rfl rfl rfl)
  · exact .of_kept h

theorem deleteAllRows_leaves (hNow : lastEnd ≤ now) (h : Ready lastEnd trx)
    (hClear : trx.txn.isSome = true → trx.needsReset = false) : Leaves lastEnd now (deleteAllRows trx) := by
  rw [deleteAllRows]
  cases hTxn : trx.txn with
  | none => exact .of_kept h
  | some t => exact .of_renewed hNow fun _ _ => .of_none rfl (hClear (by rw [hTxn]; rfl))

theorem releaseOwnTxn_leaves (hNow : lastEnd ≤ now) (h : Ready lastEnd trx)
    (hClear : trx.txn.isSome = true → trx.needsReset = false) : Leaves lastEnd now (tdbUdfReleaseOwnTxn trx) := by
  rw [tdbUdfReleaseOwnTxn]
  cases hTxn : trx.txn with
  | none => exact .of_kept h
  | some t => exact .of_renewed hNow fun _ _ => .of_none rfl (hClear (by rw [hTxn]; rfl))

theorem close_leaves (trx : FtsTrx Nat ω κ) : Leaves lastEnd now (tidesdbCloseConnection trx) := by
  intro trx' hTrx'
  rw [tidesdbCloseConnection] at hTrx'
  split at hTrx' <;> cases hTrx'

end Trx

structure Inv (s : Timed ω κ) : Prop where
  ready : ∀ trx, s.conn.haData = some trx → Ready s.lastEnd trx
  running : s.conn.stage = .running → ∃ trx t, s.conn.haData = some trx ∧ trx.txn = some t ∧ trx.needsReset = false
  clock : s.lastEnd ≤ s.now

theorem Inv.init : Inv (init : Timed ω κ) := ⟨nofun, nofun, le_rfl⟩

theorem Inv.safe {s : Timed ω κ} (h : Inv s) : Safe s := by
  refine ⟨fun id a t hMem => ?_, fun id a trx t hOk hTrx hTxn => ?_⟩
  · have hDone := getOrCreateTrx_opened id s.now a s.conn.haData
    generalize hData : s.conn.haData = haData at hMem hDone
    generalize getOrCreateTrx id s.now a haData = d at hMem hDone
    cases hDone with
    | created | absent | begun trx hTxn | refused trx hTxn | kept trx t hTxn hNeeds => simp at hMem
    | renewed trx t₀ id' call hTxn hNeeds hCall =>
      have hEq : t = t₀ := by obtain rfl | rfl := hCall <;> simpa using hMem
      rw [hEq]
      exact ((h.ready trx hData).spent t₀ hTxn hNeeds).1
    | lost trx t₀ hTxn hNeeds hFail =>
      have hEq : t = t₀ := by simpa using hMem
      rw [hEq]
      exact ((h.ready trx hData).spent t₀ hTxn hNeeds).1
  · have hClear : Renews a s.conn.haData := by
      intro hFail trx₀ hTrx₀ hSome
      obtain ⟨t₀, hTxn₀⟩ := isSome_iff_exists.mp hSome
      obtain ⟨hReset, hBegin⟩ := or_eq_false_iff.mp hFail
      cases hNeeds : trx₀.needsReset with
      | false => rfl
      | true => simp [hTrx₀, getOrCreateTrx, hTxn₀, hNeeds, hReset, hBegin] at hOk
    have hReady := getOrCreate_leaves id a h.clock h.ready hClear trx hTrx
    have hFresh := hReady.fresh t hTxn (needsReset_getOrCreate h.ready hOk hTrx)
    refine le_trans ?_ hFresh
    split
    · exact h.clock
    · exact le_rfl

section Step

variable {s s' : Timed ω κ}

theorem Leaves.onTrx {f : FtsTrx Nat ω κ → Done Nat ω κ} {haData : Option (FtsTrx Nat ω κ)} {lastEnd now : Nat}
    (h : ∀ trx, haData = some trx → Leaves lastEnd now (f trx)) : Leaves lastEnd now (onTrx f haData) := by
  cases haData with
  | none => exact nofun
  | some trx => exact h trx rfl

theorem Leaves.lock (h : Inv s) (id : Nat) (isAutocommit isDdl : Bool) (a : Answers κ)
    (hClear : Renews a s.conn.haData) :
    Leaves s.lastEnd s.now (externalLockAcquire id s.now isAutocommit isDdl a s.conn.haData) := by
  have hOpen := getOrCreate_leaves id a h.clock h.ready hClear
  obtain hEq | ⟨trx, t, hTrx, hTxn, _, hEq⟩ := externalLockAcquire_cases id s.now isAutocommit isDdl a s.conn.haData
  · rw [hEq]
    exact hOpen
  · obtain ⟨sps, active, fts, ftsDirty, hArm⟩ := stmtSavepointArm_eq a.releaseOk a.savepointOk hTxn
    rw [hEq, hArm]
    intro trx' hTrx'
    cases hTrx'
    exact (hOpen trx hTrx).of_resaved hTxn rfl rfl (fun hNil => hNil) rfl rfl

theorem lock_live (h : Inv s) {id : Nat} {isAutocommit isDdl : Bool} {a : Answers κ}
    (hOk : (externalLockAcquire id s.now isAutocommit isDdl a s.conn.haData).ok = true) :
    ∃ trx t, (externalLockAcquire id s.now isAutocommit isDdl a s.conn.haData).haData = some trx ∧
      trx.txn = some t ∧ trx.needsReset = false := by
  obtain hEq | ⟨trx, t, hTrx, hTxn, _, hEq⟩ := externalLockAcquire_cases id s.now isAutocommit isDdl a s.conn.haData
  · rw [hEq] at hOk ⊢
    obtain ⟨trx, t, hTrx, hTxn⟩ := getOrCreateTrx_ok hOk
    exact ⟨trx, t, hTrx, hTxn, needsReset_getOrCreate h.ready hOk hTrx⟩
  · obtain ⟨sps, active, fts, ftsDirty, hArm⟩ := stmtSavepointArm_eq a.releaseOk a.savepointOk hTxn
    rw [hEq] at hOk ⊢
    have hLive := needsReset_getOrCreate h.ready hOk hTrx
    rw [hArm]
    exact ⟨_, _, rfl, rfl, hLive⟩

theorem Leaves.ddl (h : Inv s) (id : Nat) (a : Answers κ) (ws : List ω)
    (hClear : Renews a s.conn.haData) :
    Leaves s.lastEnd s.now (tdbStmtTxnForDdl id s.now a ws s.conn.haData) ∧
      ((tdbStmtTxnForDdl id s.now a ws s.conn.haData).ok = true → ∃ trx t,
        (tdbStmtTxnForDdl id s.now a ws s.conn.haData).haData = some trx ∧ trx.txn = some t ∧
          trx.needsReset = false) := by
  have hOpen := getOrCreate_leaves id a h.clock h.ready hClear
  rw [tdbStmtTxnForDdl]
  split
  · rename_i hOk
    obtain ⟨trx, t, hTrx, hTxn⟩ := getOrCreateTrx_ok hOk
    have hLive := needsReset_getOrCreate h.ready hOk hTrx
    have hTxn' : (Txn.writeRow ws trx.toTrx).txn = some (t.write ws) := by rw [Txn.writeRow, hTxn, map_some]
    have hReady := (hOpen trx hTrx).of_live hTxn
      (show ({ trx with toTrx := Txn.writeRow ws trx.toTrx } : FtsTrx Nat ω κ).txn = _ from hTxn') rfl hLive hLive
    rw [hTrx]
    refine ⟨fun trx' hTrx' => ?_, fun _ => ⟨_, t.write ws, rfl, hTxn', hLive⟩⟩
    cases hTrx'
    exact hReady
  · rename_i hOk
    exact ⟨hOpen, fun hOk' => absurd hOk' hOk⟩

theorem Inv.of_leaves {d : Done Nat ω κ} {stage : Stage} (h : Inv s) (hLeaves : Leaves s.lastEnd s.now d)
    (hRunning : stage = .running → ∃ trx t, d.haData = some trx ∧ trx.txn = some t ∧ trx.needsReset = false) :
    Inv ⟨⟨d.haData, stage⟩, s.now + 1, if d.calls.any ends then s.now else s.lastEnd⟩ := by
  refine ⟨hLeaves, hRunning, ?_⟩
  dsimp only
  split
  · exact Nat.le_succ _
  · exact Nat.le_succ_of_le h.clock

theorem Inv.of_between {f : FtsTrx Nat ω κ → Done Nat ω κ} (h : Inv s)
    (hf : ∀ trx, s.conn.haData = some trx → Leaves s.lastEnd s.now (f trx)) :
    Inv ⟨⟨(onTrx f s.conn.haData).haData, .between⟩, s.now + 1,
      if (onTrx f s.conn.haData).calls.any ends then s.now else s.lastEnd⟩ :=
  h.of_leaves (.onTrx hf) fun hRun => absurd hRun between_ne_running

theorem running_of_open {ok : Bool} {stage : Stage}
    (h : (if ok then Stage.running else if stage = .between then .between else .failed) = .running) : ok = true := by
  cases ok with
  | true => rfl
  | false =>
    simp only [false_eq_true, if_false] at h
    split at h <;> cases h

variable [DecidableEq κ] {metaPut : FtsMetaDelta κ → ω}

theorem row_leaves {trx : FtsTrx Nat ω κ} {t : LibTxn Nat ω} {lastEnd : Nat} (h : Ready lastEnd trx)
    (hTxn : trx.txn = some t) (hLive : trx.needsReset = false) (ws : List ω) (deltas : List (FtsMetaDelta κ)) :
    Ready lastEnd (StmtSavepoint.writeRow ws deltas trx) ∧
      (StmtSavepoint.writeRow ws deltas trx).txn = some (t.write ws) ∧
      (StmtSavepoint.writeRow ws deltas trx).needsReset = false := by
  have hTrx := StmtSavepoint.toTrx_writeRow ws deltas trx
  have hTxn' : (StmtSavepoint.writeRow ws deltas trx).txn = some (t.write ws) := by
    rw [hTrx, Txn.writeRow, hTxn, map_some]
  have hLive' : (StmtSavepoint.writeRow ws deltas trx).needsReset = false := by
    rw [hTrx]
    exact hLive
  exact ⟨h.of_live hTxn hTxn' rfl hLive hLive', hTxn', hLive'⟩

def after (metaPut : FtsMetaDelta κ → ω) (s : Timed ω κ) (x : Action ω κ) : Timed ω κ :=
  let d := perform metaPut x.id s.now x.answers s.conn.haData x.call
  ⟨⟨d.haData, nextStage s.conn.stage d.ok x.call⟩, s.now + 1, if d.calls.any ends then s.now else s.lastEnd⟩

theorem step_eq_some {x : Action ω κ} (h : step metaPut s x = some s') :
    allowed s.conn x.call = true ∧ s' = after metaPut s x := by
  obtain ⟨⟨conn, calls⟩, hConn, rfl⟩ := map_eq_some_iff.mp h
  obtain ⟨hAllowed, rfl, rfl⟩ := Conn.step_eq_some hConn
  exact ⟨hAllowed, rfl⟩

section

variable {id : Nat} {a : Answers κ} (h : Inv s)
include h

theorem Inv.openTrx (hClear : Clear s ⟨id, a, .openTrx⟩) : Inv (after metaPut s ⟨id, a, .openTrx⟩) := by
  refine h.of_leaves (getOrCreate_leaves id a h.clock h.ready hClear) fun hRun => ?_
  obtain ⟨trx, t, hTrx, hTxn⟩ := getOrCreateTrx_ok (running_of_open hRun)
  exact ⟨trx, t, hTrx, hTxn, needsReset_getOrCreate h.ready (running_of_open hRun) hTrx⟩

theorem Inv.row {ws : List ω} {deltas : List (FtsMetaDelta κ)} (hAllowed : allowed s.conn (.row ws deltas) = true) :
    Inv (after metaPut s ⟨id, a, .row ws deltas⟩) := by
  simp only [allowed, and_eq_true, decide_eq_true_eq] at hAllowed
  obtain ⟨trx, t, hTrx, hTxn, hLive⟩ := h.running hAllowed.1
  obtain ⟨hReady, hTxn', hLive'⟩ := row_leaves (h.ready trx hTrx) hTxn hLive ws deltas
  rw [after, hTrx]
  exact h.of_leaves (.of_kept hReady) fun _ => ⟨_, _, rfl, hTxn', hLive'⟩

theorem Inv.bulkCommit (hAllowed : allowed s.conn (Call.bulkCommit : Call ω κ) = true) :
    Inv (after metaPut s ⟨id, a, .bulkCommit⟩) := by
  simp only [allowed, and_eq_true, decide_eq_true_eq] at hAllowed
  obtain ⟨trx, t, hTrx, hTxn, hLive⟩ := h.running hAllowed.1.1
  obtain ⟨hLeaves, hOk⟩ := bulk_leaves metaPut id a h.clock (h.ready trx hTrx) hTxn hLive
  rw [after, hTrx]
  refine h.of_leaves hLeaves fun hRun => hOk ?_
  cases hDone : (maybeBulkCommit metaPut id s.now a trx).ok with
  | true => rfl
  | false => simp [nextStage, perform, onTrx, hDone] at hRun

theorem Inv.prepare {key : Key} {all isExternal : Bool} (hClear : Clear s ⟨id, a, .prepare key all isExternal⟩)
    (hAllowed : allowed s.conn (.prepare key all isExternal : Call ω κ) = true) :
    Inv (after metaPut s ⟨id, a, .prepare key all isExternal⟩) := by
  refine h.of_leaves (.onTrx fun trx hTrx => ?_) fun hRun => ?_
  · exact prepare_leaves metaPut key all isExternal a h.clock (h.ready trx hTrx) fun hVote => hClear hVote trx hTrx
  · cases all with
    | true =>
      simp only [allowed, if_true, and_eq_true, decide_eq_true_eq] at hAllowed
      exact absurd (hAllowed.1.symm.trans hRun) between_ne_running
    | false =>
      obtain ⟨trx, t, hTrx, hTxn, hLive⟩ := h.running hRun
      exact ⟨trx, t, by simp [perform, onTrx, tidesdbPrepare, hTrx], hTxn, hLive⟩

end

theorem step_inv {x : Action ω κ} (h : Inv s) (hClear : Clear s x) (hStep : step metaPut s x = some s') : Inv s' := by
  obtain ⟨hAllowed, rfl⟩ := step_eq_some hStep
  obtain ⟨id, a, c⟩ := x
  cases c with
  | lock isAutocommit isDdl =>
    exact h.of_leaves (.lock h id isAutocommit isDdl a hClear) fun hRun => lock_live h (running_of_open hRun)
  | openTrx => exact h.openTrx hClear
  | ddl ws =>
    obtain ⟨hLeaves, hLive⟩ := Leaves.ddl h id a ws hClear
    exact h.of_leaves hLeaves fun hRun => hLive (running_of_open hRun)
  | row ws deltas => exact h.row hAllowed
  | bulkCommit => exact h.bulkCommit hAllowed
  | savepointSet slot => exact h.of_between fun trx hTrx => savepointSet_leaves slot a (h.ready trx hTrx)
  | savepointRollback slot => exact h.of_between fun trx hTrx => savepointRollback_leaves slot a (h.ready trx hTrx)
  | savepointRelease slot => exact h.of_between fun trx hTrx => savepointRelease_leaves slot a (h.ready trx hTrx)
  | prepare key all isExternal => exact h.prepare hClear hAllowed
  | commit all inTransaction =>
    exact h.of_between fun trx hTrx => commit_leaves metaPut all inTransaction a h.clock (h.ready trx hTrx)
  | rollback all inTransaction =>
    exact h.of_between fun trx hTrx => rollback_leaves all inTransaction a h.clock (h.ready trx hTrx)
  | deleteAllRows =>
    exact h.of_between fun trx hTrx => deleteAllRows_leaves h.clock (h.ready trx hTrx) (hClear trx hTrx)
  | releaseOwnTxn =>
    exact h.of_between fun trx hTrx => releaseOwnTxn_leaves h.clock (h.ready trx hTrx) (hClear trx hTrx)
  | close => exact h.of_between fun trx _ => close_leaves trx

structure Stale (conn : Conn Nat ω κ) (trx : FtsTrx Nat ω κ) : Prop where
  conn : conn = ⟨some trx, .between⟩
  txn : trx.txn = none
  needsReset : trx.needsReset = true

omit [DecidableEq κ] in
theorem stale_of_open (h : Inv s) (hStage : s.conn.stage ≠ .failed) (id : Nat) (a : Answers κ)
    (hNot : ¬ Renews a s.conn.haData) :
    ∃ trx, (getOrCreateTrx id s.now a s.conn.haData).haData = some trx ∧
      (getOrCreateTrx id s.now a s.conn.haData).ok = false ∧ s.conn.stage = .between ∧ trx.txn = none ∧
      trx.needsReset = true := by
  simp only [Renews, Classical.not_imp, not_forall, not_eq_false] at hNot
  obtain ⟨hFail, trx, hTrx, hSome, hNeeds⟩ := hNot
  obtain ⟨t, hTxn⟩ := isSome_iff_exists.mp hSome
  obtain ⟨hReset, hBegin⟩ := or_eq_false_iff.mp hFail
  have hBetween : s.conn.stage = .between := by
    cases hAt : s.conn.stage with
    | between => rfl
    | failed => exact absurd hAt hStage
    | running =>
      obtain ⟨trx₀, _, hTrx₀, _, hLive⟩ := h.running hAt
      cases hTrx.symm.trans hTrx₀
      exact absurd (hLive.symm.trans hNeeds) false_ne_true
  refine ⟨{ trx with txn := none }, ?_, ?_, hBetween, rfl, hNeeds⟩
  · simp [hTrx, getOrCreateTrx, hTxn, hNeeds, hReset, hBegin]
  · simp [hTrx, getOrCreateTrx, hTxn, hNeeds, hReset, hBegin]

theorem stale_of_not_clear {x : Action ω κ} (h : Inv s) (hNot : ¬ Clear s x) (hStep : step metaPut s x = some s') :
    ∃ trx, Stale s'.conn trx := by
  obtain ⟨⟨conn, calls⟩, hConn, rfl⟩ := map_eq_some_iff.mp hStep
  obtain ⟨hAllowed, hEq, _⟩ := Conn.step_eq_some hConn
  obtain ⟨id, a, c⟩ := x
  dsimp only at hAllowed hEq ⊢
  rw [hEq]
  cases c with
  | lock isAutocommit isDdl =>
    simp only [allowed, and_eq_true, decide_eq_true_eq] at hAllowed
    obtain ⟨trx, hTrx, hOk, hBetween, hTxn, hNeeds⟩ := stale_of_open h hAllowed.1 id a hNot
    exact ⟨trx, by simp [perform, externalLockAcquire, nextStage, hOk, hTrx, hBetween], hTxn, hNeeds⟩
  | openTrx =>
    simp only [allowed, and_eq_true, decide_eq_true_eq] at hAllowed
    obtain ⟨trx, hTrx, hOk, hBetween, hTxn, hNeeds⟩ := stale_of_open h hAllowed.1 id a hNot
    exact ⟨trx, by simp [perform, nextStage, hOk, hTrx, hBetween], hTxn, hNeeds⟩
  | ddl ws =>
    simp only [allowed, and_eq_true, decide_eq_true_eq] at hAllowed
    obtain ⟨trx, hTrx, hOk, hBetween, hTxn, hNeeds⟩ := stale_of_open h hAllowed.1 id a hNot
    exact ⟨trx, by simp [perform, tdbStmtTxnForDdl, nextStage, hOk, hTrx, hBetween], hTxn, hNeeds⟩
  | deleteAllRows =>
    simp only [Clear, Classical.not_imp, not_forall, not_eq_false] at hNot
    obtain ⟨trx, hTrx, hSome, hNeeds⟩ := hNot
    obtain ⟨t, hTxn⟩ := isSome_iff_exists.mp hSome
    refine ⟨cleared { trx with txn := none, dirty := false }, ?_, rfl, hNeeds⟩
    simp [perform, onTrx, hTrx, Connection.deleteAllRows, hTxn, nextStage]
  | releaseOwnTxn =>
    simp only [Clear, Classical.not_imp, not_forall, not_eq_false] at hNot
    obtain ⟨trx, hTrx, hSome, hNeeds⟩ := hNot
    obtain ⟨t, hTxn⟩ := isSome_iff_exists.mp hSome
    refine ⟨cleared { trx with txn := none, dirty := false, txnGeneration := trx.txnGeneration + 1 }, ?_, rfl, hNeeds⟩
    simp [perform, onTrx, hTrx, tdbUdfReleaseOwnTxn, hTxn, nextStage]
  | prepare key all isExternal =>
    simp only [Clear, Classical.not_imp, not_forall, not_eq_false] at hNot
    obtain ⟨hVote, trx, hTrx, hSome, hNeeds⟩ := hNot
    obtain ⟨t, hTxn⟩ := isSome_iff_exists.mp hSome
    obtain ⟨rfl, rfl⟩ := and_eq_true_iff.mp hVote
    simp only [allowed, if_true, and_eq_true, decide_eq_true_eq] at hAllowed
    have hClean := ((h.ready trx hTrx).spent t hTxn hNeeds).2
    have hDone := tidesdbPrepare_afterPrepare metaPut key true true a hTxn
    rw [nextStage, hAllowed.1, perform, hTrx, onTrx]
    generalize tidesdbPrepare metaPut key true true a trx = d at hDone ⊢
    cases hDone with
    | deferred hAll => cases hAll
    | readOnly sps fts hDirty hInternal => cases hInternal
    | flushFailed trx' t' hDirty hFreed hSame => exact absurd (hClean.symm.trans hDirty) false_ne_true
    | refused trx' t' hFreed hSame hAll hVote hPuts => exact ⟨trx', rfl, hFreed.txn, hFreed.needsReset.trans hNeeds⟩
    | detached trx' t' hFreed hSame hAll hExternal hFts hPuts =>
      exact ⟨trx', rfl, hFreed.txn, hFreed.needsReset.trans hNeeds⟩
    | prepared trx' t' hDirty => exact absurd (hClean.symm.trans hDirty) false_ne_true
  | _ => exact absurd trivial hNot

variable (metaPut) in
theorem not_safe_of_stale (w : ω) {trx : FtsTrx Nat ω κ} (h : Stale s.conn trx) :
    ∃ s'', Reach (step metaPut) Clear s s'' ∧ ¬ Safe s'' := by
  obtain ⟨conn, now, lastEnd⟩ := s
  obtain ⟨⟨txn, dirty, active, needsReset, gen⟩, pending, ftsDirty, fts, dirtySnapshot⟩ := trx
  obtain ⟨rfl, hTxn, hNeeds⟩ := h
  cases hTxn
  cases hNeeds
  have hBegun : Reach (step metaPut) Clear
      ⟨⟨some ⟨⟨none, dirty, active, true, gen⟩, pending, ftsDirty, fts, dirtySnapshot⟩, .between⟩, now, lastEnd⟩
      ⟨⟨some ⟨⟨some (.start 0 now), false, active, true, gen + 1⟩, pending, ftsDirty, fts, dirtySnapshot⟩, .running⟩,
        now + 1, lastEnd⟩ := .step ⟨0, .fine, .openTrx⟩ .init nofun rfl
  refine ⟨_, hBegun.step ⟨0, .fine, .row [w] []⟩ trivial rfl, fun hSafe => ?_⟩
  exact absurd (hSafe.writes 0 .fine _ (Or.inl (List.mem_singleton.mpr rfl))) (List.cons_ne_nil _ _)

end Step

/-- In every run whose steps all meet the condition `get_or_create_trx` is safe, and a step that does
not meet it leads to a state where it is not. -/
theorem safe_iff_clear [DecidableEq κ] (metaPut : FtsMetaDelta κ → ω) (w : ω) {s : Timed ω κ}
    (hReach : Reach (step metaPut) Clear init s) :
    Safe s ∧ ∀ x s', step metaPut s x = some s' →
      (Clear s x ↔ ∀ s'', Reach (step metaPut) Clear s' s'' → Safe s'') := by
  have hInv : Inv s := hReach.invariant Inv .init fun _ _ _ => step_inv
  refine ⟨hInv.safe, fun x s' hStep => ⟨fun hClear s'' hLater => ?_, fun hSafe => ?_⟩⟩
  · have hInv' := step_inv hInv hClear hStep
    exact (hLater.invariant Inv hInv' fun _ _ _ => step_inv).safe
  · apply Classical.byContradiction
    intro hNot
    obtain ⟨trx, hStale⟩ := stale_of_not_clear hInv hNot hStep
    obtain ⟨s'', hLater, hUnsafe⟩ := not_safe_of_stale metaPut w hStale
    exact hUnsafe (hSafe s'' hLater)

def locking : Action Nat Unit := ⟨1, .fine, .lock false false⟩

def writing (w : Nat) : Action Nat Unit := ⟨1, .fine, .row [w] []⟩

def committing : Action Nat Unit := ⟨1, .fine, .commit true true⟩

def lockingUnderFailure : Action Nat Unit :=
    ⟨1, { (.fine : Answers Unit) with resetOk := false, beginOk := false }, .lock false false⟩

def afterCommit : Timed Nat Unit :=
  ⟨⟨some { (newTrx 1 0 : FtsTrx Nat Nat Unit) with needsReset := true, txnGeneration := 2 }, .between⟩, 3, 2⟩

theorem safe_afterCommit : Safe afterCommit ∧ ∀ x s', step (fun _ => 0) afterCommit x = some s' →
      (Clear afterCommit x ↔ ∀ s'', Reach (step fun _ => 0) Clear s' s'' → Safe s'') :=
  safe_iff_clear (fun _ => 0) 0
    (.step committing (.step (writing 7) (.step locking .init nofun rfl) trivial rfl) trivial rfl)

/-- The first statement after a commit fails for want of a transaction, the next one writes, and the
one after that resets what it wrote. -/
theorem not_safe_after_failed_reset :
    ¬ ∀ s : Timed Nat Unit, Reach (step fun _ => 0) (fun _ _ => True) init s → Safe s := by
  intro hAll
  have hCommitted : Reach (step fun _ => 0) (fun _ _ => True) init afterCommit :=
    .step committing (.step (writing 7) (.step locking .init trivial rfl) trivial rfl) trivial rfl
  have hSafe := hAll _ (.step (writing 8)
    (.step locking (hCommitted.step lockingUnderFailure trivial rfl) trivial rfl) trivial rfl)
  exact absurd (hSafe.writes 1 .fine _ (Or.inl (List.mem_singleton.mpr rfl))) (List.cons_ne_nil _ _)

end TideSql.TrxReuse
