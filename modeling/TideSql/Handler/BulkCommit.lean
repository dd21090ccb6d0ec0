import TideSql.Handler.StmtSavepoint

/-!
# Commits in the middle of a statement

A large INSERT or DELETE commits the connection's transaction each time its handler has counted enough
operations.
-/

namespace TideSql.BulkCommit
open StmtSavepoint List Option
open Txn (Storage LibTxn Trx getOrCreateTrx)

def bulkInsertBatchOps : Nat := 500
def bulkDeleteDeferCap : Nat := 262144
def bulkDeleteMinRange : Nat := 64

/-- What a handler keeps while it is in bulk mode. A table with a user primary key and without
triggers may defer the tombstones of its rows. -/
structure Handler (ω : Type) where
  numSecondaryIndexes : Nat
  mayDefer : Bool
  inBulkInsert : Bool
  inBulkDelete : Bool
  bulkDeleteDefer : Bool
  bulkInsertOps : Nat
  bulkDeleteKeys : List ω

inductive Call (ω κ : Type) where
  | startBulkInsert
  | endBulkInsert
  | startBulkDelete
  | endBulkDelete (ranged : Option ω)
  | writeRow (ws : List ω) (deltas : List (FtsMetaDelta κ))
  | updateRow (ws : List ω) (deltas : List (FtsMetaDelta κ))
  | deleteRow (dk : ω) (idx : List ω) (deltas : List (FtsMetaDelta κ))

inductive Effect (ω κ : Type) where
  | write (ws : List ω) (deltas : List (FtsMetaDelta κ))
  | maybeBulkCommit

section Handlers

variable {ω κ : Type}

def Handler.weight (h : Handler ω) : Nat := 1 + h.numSecondaryIndexes

def bulkFlushIfThreshold (h : Handler ω) : Handler ω × List (Effect ω κ) :=
  if h.bulkInsertOps + h.weight ≥ bulkInsertBatchOps then ({ h with bulkInsertOps := 0 }, [.maybeBulkCommit])
  else ({ h with bulkInsertOps := h.bulkInsertOps + h.weight }, [])

def deletePrimary (h : Handler ω) (dk : ω) : Handler ω × List (Effect ω κ) :=
  if h.bulkDeleteDefer then
    let keys := h.bulkDeleteKeys ++ [dk]
    if keys.length ≥ bulkDeleteDeferCap then
      ({ h with bulkDeleteKeys := [], bulkDeleteDefer := false }, [.write keys []])
    else ({ h with bulkDeleteKeys := keys }, [])
  else (h, [.write [dk] []])

def Handler.call (h : Handler ω) : Call ω κ → Handler ω × List (Effect ω κ)
  | .startBulkInsert => ({ h with inBulkInsert := true, bulkInsertOps := 0 }, [])
  | .endBulkInsert => ({ h with inBulkInsert := false }, [])
  | .startBulkDelete =>
    ({ h with inBulkDelete := true, bulkInsertOps := 0, bulkDeleteKeys := [], bulkDeleteDefer := h.mayDefer }, [])
  | .endBulkDelete ranged =>
    let keys := if h.bulkDeleteDefer then h.bulkDeleteKeys else []
    let ws := match if keys.length ≥ bulkDeleteMinRange then ranged else none with
      | some r => [r]
      | none => keys
    ({ h with inBulkDelete := false, bulkDeleteKeys := [], bulkDeleteDefer := false },
      if keys.isEmpty then [] else [.write ws []])
  | .writeRow ws deltas =>
    let r := if h.inBulkInsert then bulkFlushIfThreshold h else (h, [])
    (r.1, .write ws deltas :: r.2)
  | .updateRow ws deltas => (h, [.write ws deltas])
  | .deleteRow dk idx deltas =>
    let p : Handler ω × List (Effect ω κ) := deletePrimary h dk
    -- the buffered tombstones must not be parted from the index deletes, so there is no commit
    let r := if p.1.inBulkDelete && !p.1.bulkDeleteDefer then bulkFlushIfThreshold p.1 else (p.1, [])
    (r.1, p.2 ++ .write idx deltas :: r.2)

def Handler.Below (h : Handler ω) : Call ω κ → Prop
  | .writeRow _ _ => h.inBulkInsert = true → h.bulkInsertOps + h.weight < bulkInsertBatchOps
  | .deleteRow _ _ _ => h.inBulkDelete = true →
      (h.bulkDeleteDefer = true ∧ h.bulkDeleteKeys.length + 1 < bulkDeleteDeferCap) ∨
        h.bulkInsertOps + h.weight < bulkInsertBatchOps
  | _ => True

variable {h : Handler ω}

theorem bulkFlush_of_below (hBelow : h.bulkInsertOps + h.weight < bulkInsertBatchOps) :
    (bulkFlushIfThreshold h : Handler ω × List (Effect ω κ)).2 = [] := by
  rw [bulkFlushIfThreshold, if_neg (Nat.not_le.mpr hBelow)]

theorem no_commit_of_deletePrimary {dk : ω} : (.maybeBulkCommit : Effect ω κ) ∉ (deletePrimary h dk).2 := by
  rw [deletePrimary]
  split
  · dsimp only
    split <;> simp
  · simp

theorem deletePrimary_deferred {dk : ω} (hDefer : h.bulkDeleteDefer = true)
    (hCap : h.bulkDeleteKeys.length + 1 < bulkDeleteDeferCap) :
    (deletePrimary h dk : Handler ω × List (Effect ω κ)).1.bulkDeleteDefer = true := by
  rw [deletePrimary, if_pos hDefer]
  dsimp only
  rw [if_neg (by simpa using hCap)]
  exact hDefer

theorem deletePrimary_ops (h : Handler ω) (dk : ω) :
    (deletePrimary h dk : Handler ω × List (Effect ω κ)).1.bulkInsertOps = h.bulkInsertOps ∧
      (deletePrimary h dk : Handler ω × List (Effect ω κ)).1.weight = h.weight ∧
      (deletePrimary h dk : Handler ω × List (Effect ω κ)).1.inBulkDelete = h.inBulkDelete := by
  rw [deletePrimary]
  split
  · dsimp only
    split <;> exact ⟨rfl, rfl, rfl⟩
  · exact ⟨rfl, rfl, rfl⟩

theorem no_commit_of_below {c : Call ω κ} (hBelow : h.Below c) : .maybeBulkCommit ∉ (h.call c).2 := by
  cases c with
  | startBulkInsert | endBulkInsert | startBulkDelete => simp [Handler.call]
  | endBulkDelete ranged =>
    simp only [Handler.call]
    split <;> simp
  | writeRow ws deltas =>
    simp only [Handler.call]
    split
    · rename_i hBulk
      simp [bulkFlush_of_below (hBelow hBulk)]
    · simp
  | updateRow ws deltas => simp [Handler.call]
  | deleteRow dk idx deltas =>
    obtain ⟨hOps, hWeight, hMode⟩ := deletePrimary_ops (κ := κ) h dk
    simp only [Handler.call]
    rw [mem_append, not_or]
    refine ⟨no_commit_of_deletePrimary, ?_⟩
    split
    · rename_i hCommits
      rw [Bool.and_eq_true, Bool.not_eq_true', hMode] at hCommits
      obtain ⟨hDefer, hCap⟩ | hSmall := hBelow hCommits.1
      · rw [deletePrimary_deferred hDefer hCap] at hCommits
        cases hCommits.2
      · rw [← hOps, ← hWeight] at hSmall
        simp [bulkFlush_of_below hSmall]
    · simp

end Handlers

section System

variable {σ ω κ τ : Type} [DecidableEq κ]

def flushOps (metaOps : List (FtsMetaDelta κ) → List ω) (p : Pending ω κ) : List ω :=
  if p.ftsDirty && !p.fts.isEmpty then metaOps p.fts else []

def maybeBulkCommit (metaOps : List (FtsMetaDelta κ) → List ω) (key : XidKey.Key) (id : Nat) (snapshot : σ)
    (st : Storage ω) (trx : FtsTrx σ ω κ) : Storage ω × FtsTrx σ ω κ :=
  let o := Txn.maybeBulkCommit key true id snapshot st
    { trx.toTrx with txn := trx.txn.map (·.write (flushOps metaOps trx.pending)) }
  (o.storage, { trx with toTrx := o.trx, ftsMetaPending := [], ftsMetaDirty := false, stmtFtsSnapshot := [] })

def Effect.run (metaOps : List (FtsMetaDelta κ) → List ω) (key : XidKey.Key) (id : Nat) (snapshot : σ)
    (c : Storage ω × FtsTrx σ ω κ) : Effect ω κ → Storage ω × FtsTrx σ ω κ
  | .write ws deltas => (c.1, StmtSavepoint.writeRow ws deltas c.2)
  | .maybeBulkCommit => BulkCommit.maybeBulkCommit metaOps key id snapshot c.1 c.2

structure Conn (σ ω κ τ : Type) where
  storage : Storage ω
  trx : FtsTrx σ ω κ
  handlers : τ → Handler ω

/-- Inside a transaction: tables are locked at the start of a statement, the handlers called, and the
statement committed or rolled back. -/
inductive Action (σ ω κ τ : Type) where
  | lock (id : Nat) (snapshot : σ)
  | call (t : τ) (c : Call ω κ) (id : Nat) (snapshot : σ)
  | commit
  | rollback

variable [DecidableEq τ]

def step (metaOps : List (FtsMetaDelta κ) → List ω) (key : XidKey.Key) (s : Conn σ ω κ τ) :
    Action σ ω κ τ → Conn σ ω κ τ
  | .lock id snapshot => { s with trx := externalLockAcquire id snapshot false false true true s.trx }
  | .call t c id snapshot =>
    let r := (s.handlers t).call c
    let e := r.2.foldl (Effect.run metaOps key id snapshot) (s.storage, ensureStmtTxn id snapshot s.trx)
    ⟨e.1, e.2, Function.update s.handlers t r.1⟩
  | .commit => { s with trx := stmtSavepointDisarm true s.trx }
  | .rollback => { s with trx := tidesdbRollback false true true s.trx }

/-- What is durable, what is pending, and what was pending before the statement. -/
structure Ledger (ω κ : Type) where
  durable : List ω
  pending : Pending ω κ
  before : Option (Pending ω κ)

def Ledger.effect (metaOps : List (FtsMetaDelta κ) → List ω) (l : Ledger ω κ) : Effect ω κ → Ledger ω κ
  | .write ws deltas => { l with pending := l.pending.write ws deltas }
  | .maybeBulkCommit => ⟨l.durable ++ (l.pending.writes ++ flushOps metaOps l.pending), .empty, none⟩

structure Account (ω κ τ : Type) where
  ledger : Ledger ω κ
  handlers : τ → Handler ω

def account (metaOps : List (FtsMetaDelta κ) → List ω) (s : Account ω κ τ) : Action σ ω κ τ → Account ω κ τ
  | .lock _ _ => { s with ledger := { s.ledger with before := some (s.ledger.before.getD s.ledger.pending) } }
  | .call t c _ _ =>
    let r := (s.handlers t).call c
    ⟨r.2.foldl (Ledger.effect metaOps) s.ledger, Function.update s.handlers t r.1⟩
  | .commit => { s with ledger := { s.ledger with before := none } }
  | .rollback => { s with ledger := { s.ledger with pending := s.ledger.before.getD .empty, before := none } }

end System

section Follows

variable {σ ω κ τ : Type} [DecidableEq κ] {key : XidKey.Key} {st₀ : Storage ω}

structure Follows (key : XidKey.Key) (st₀ st : Storage ω) (trx : FtsTrx σ ω κ) (l : Ledger ω κ) : Prop where
  committed : st.committed = st₀.committed ++ l.durable.map fun w => (key, w)
  pending : trx.pending = l.pending
  unprepared : ∀ t, trx.txn = some t → t.prepared = false
  live : Live trx ∨ l.pending = .empty
  unarmed : l.before = none → Quiet trx
  armed : ∀ b, l.before = some b → Live trx ∧ Holds trx b

variable {st : Storage ω} {trx : FtsTrx σ ω κ} {l : Ledger ω κ}

omit [DecidableEq κ] in
theorem unprepared_getOrCreateTrx (id : Nat) (snapshot : σ) {trx : Trx σ ω}
    (h : ∀ t, trx.txn = some t → t.prepared = false) {t : LibTxn σ ω}
    (ht : (getOrCreateTrx id snapshot trx).txn = some t) : t.prepared = false := by
  rw [getOrCreateTrx] at ht
  split at ht
  · cases ht
    rfl
  · split at ht
    · cases ht
      rfl
    · exact h t ht

section

variable (h : Follows key st₀ st trx l)
include h

omit [DecidableEq κ] in
theorem Follows.ensure (id : Nat) (snapshot : σ) :
    Follows key st₀ st (ensureStmtTxn id snapshot trx) l ∧ Live (ensureStmtTxn id snapshot trx) := by
  cases hBefore : l.before with
  | none =>
    obtain ⟨hLive, hPending, hUnarmed⟩ := ensureStmtTxn_of_quiet id snapshot (h.unarmed hBefore)
    refine ⟨⟨h.committed, hPending.trans h.pending, fun t ht => unprepared_getOrCreateTrx id snapshot h.unprepared ht,
      .inl hLive, fun _ => quiet_of_live hLive hUnarmed, fun b hb => ?_⟩, hLive⟩
    rw [hBefore] at hb
    cases hb
  | some b =>
    have hLive := (h.armed b hBefore).1
    rw [ensureStmtTxn_of_live id snapshot hLive]
    exact ⟨h, hLive⟩

omit [DecidableEq κ] in
theorem Follows.lock (id : Nat) (snapshot : σ) :
    Follows key st₀ st (externalLockAcquire id snapshot false false true true trx)
      { l with before := some (l.before.getD l.pending) } := by
  obtain ⟨hFollows, hLive⟩ := h.ensure id snapshot
  cases hBefore : l.before with
  | none =>
    have hUnarmed := (hFollows.unarmed hBefore).unarmed
    obtain ⟨hLive', hPending, -, hHolds⟩ := stmtSavepointArm_spec true true hLive hUnarmed
    rw [hFollows.pending] at hPending hHolds
    rw [externalLockAcquire_of_unarmed true true hLive hUnarmed]
    refine ⟨h.committed, hPending, fun t ht => ?_, .inl hLive', fun hNone => (by cases hNone), fun b hb => ?_⟩
    · rw [toTrx_stmtSavepointArm, Txn.stmtSavepointArm] at ht
      split at ht
      · rename_i hNone
        rw [hNone] at ht
        cases ht
      · rename_i u hu
        cases ht
        exact hFollows.unprepared u hu
    · cases hb
      exact ⟨hLive', hHolds rfl⟩
  | some b =>
    rw [externalLockAcquire_of_armed true true (hFollows.armed b hBefore).2.active]
    refine ⟨h.committed, hFollows.pending, hFollows.unprepared, .inl hLive, fun hNone => (by cases hNone), fun c hc =>
      ?_⟩
    cases hc
    exact hFollows.armed b hBefore

theorem Follows.write (hLive : Live trx) (ws : List ω) (deltas : List (FtsMetaDelta κ)) :
    Follows key st₀ st (StmtSavepoint.writeRow ws deltas trx) { l with pending := l.pending.write ws deltas } := by
  refine ⟨h.committed, ?_, fun t ht => ?_, .inl (hLive.writeRow ws deltas), fun hNone => ?_, fun b hb => ?_⟩
  · rw [pending_writeRow hLive, h.pending]
  · rw [toTrx_writeRow] at ht
    obtain ⟨u, hu, rfl⟩ := map_eq_some_iff.mp ht
    exact h.unprepared u hu
  · refine quiet_of_live (hLive.writeRow ws deltas) ?_
    rw [toTrx_writeRow]
    exact (h.unarmed hNone).unarmed
  · exact ⟨hLive.writeRow ws deltas, (h.armed b hb).2.writeRow ws deltas⟩

end

section

variable (metaOps : List (FtsMetaDelta κ) → List ω)

omit [DecidableEq κ] in
theorem Follows.bulkCommit (h : Follows key st₀ st trx l) (hLive : Live trx) (id : Nat) (snapshot : σ) :
    Follows key st₀ (maybeBulkCommit metaOps key id snapshot st trx).1
      (maybeBulkCommit metaOps key id snapshot st trx).2
        ⟨l.durable ++ (l.pending.writes ++ flushOps metaOps l.pending), .empty, none⟩ ∧
      Live (maybeBulkCommit metaOps key id snapshot st trx).2 := by
  obtain ⟨t, ht⟩ := isSome_iff_exists.mp hLive.txn
  have hWrites : t.ops = l.pending.writes := by
    rw [← h.pending, FtsTrx.pending, ht]
    rfl
  have hEq : maybeBulkCommit metaOps key id snapshot st trx = (st.commit key (t.ops ++ flushOps metaOps l.pending),
        { trx with
          txn := some (t.reset snapshot)
          dirty := false
          stmtSavepointActive := false
          txnGeneration := trx.txnGeneration + 1
          ftsMetaPending := []
          ftsMetaDirty := false
          stmtFtsSnapshot := [] }) := by
    simp [maybeBulkCommit, Txn.maybeBulkCommit, ht, LibTxn.write, h.pending, LibTxn.reset]
  rw [hEq]
  have hLive' : Live ({ trx with
      txn := some (t.reset snapshot), dirty := false, stmtSavepointActive := false,
      txnGeneration := trx.txnGeneration + 1, ftsMetaPending := [], ftsMetaDirty := false,
      stmtFtsSnapshot := [] } : FtsTrx σ ω κ) := ⟨rfl, hLive.needsReset⟩
  refine ⟨⟨?_, rfl, fun u hu => ?_, .inl hLive', fun _ => quiet_of_live hLive' rfl, fun b hb => (by cases hb)⟩, hLive'⟩
  · simp only [Storage.commit, h.committed, hWrites, map_append, append_assoc]
  · cases hu
    rfl

theorem Follows.effects (effects : List (Effect ω κ)) (h : Follows key st₀ st trx l) (hLive : Live trx) (id : Nat)
    (snapshot : σ) : Follows key st₀ (effects.foldl (Effect.run metaOps key id snapshot) (st, trx)).1
      (effects.foldl (Effect.run metaOps key id snapshot) (st, trx)).2 (effects.foldl (Ledger.effect metaOps) l) := by
  induction effects generalizing st trx l with
  | nil => exact h
  | cons e effects ih =>
    cases e with
    | write ws deltas => exact ih (h.write hLive ws deltas) (hLive.writeRow ws deltas)
    | maybeBulkCommit =>
      obtain ⟨hFollows, hLive'⟩ := h.bulkCommit metaOps hLive id snapshot
      exact ih hFollows hLive'

end

omit [DecidableEq κ] in
theorem Follows.disarm (h : Follows key st₀ st trx l) :
    Follows key st₀ st (stmtSavepointDisarm true trx) { l with before := none } := by
  cases hBefore : l.before with
  | none =>
    have hSame : stmtSavepointDisarm true trx = trx := by
      rw [stmtSavepointDisarm, (h.unarmed hBefore).unarmed, if_neg Bool.false_ne_true]
    rw [hSame]
    exact ⟨h.committed, h.pending, h.unprepared, h.live, fun _ => h.unarmed hBefore, fun b hb => by cases hb⟩
  | some b =>
    obtain ⟨hLive, hHolds⟩ := h.armed b hBefore
    obtain ⟨t, ht⟩ := isSome_iff_exists.mp hLive.txn
    have hEq : stmtSavepointDisarm true trx =
        { trx with txn := some (t.releaseSavepoint .stmt), stmtSavepointActive := false, stmtFtsSnapshot := [] } := by
      rw [stmtSavepointDisarm, if_pos hHolds.active, if_pos rfl, ht, map_some]
    refine ⟨h.committed, ?_, fun u hu => ?_, .inl ⟨?_, ?_⟩, fun _ => quiet_stmtSavepointDisarm true hLive,
      fun b hb => by cases hb⟩
    · rw [hEq, ← h.pending]
      simp [FtsTrx.pending, ht, LibTxn.releaseSavepoint]
    · rw [hEq] at hu
      cases hu
      exact h.unprepared t ht
    · rw [hEq]
      rfl
    · rw [hEq]
      exact hLive.needsReset

omit [DecidableEq κ] in
theorem Follows.rollback (h : Follows key st₀ st trx l) : Follows key st₀ st (tidesdbRollback false true true trx)
      { l with pending := l.before.getD .empty, before := none } := by
  cases hBefore : l.before with
  | none =>
    have hQuiet := h.unarmed hBefore
    cases ht : trx.txn with
    | none =>
      have hSame : tidesdbRollback false true true trx = trx := by simp [tidesdbRollback, ht]
      have hEmpty : l.pending = .empty := by
        refine h.live.resolve_left fun hLive => ?_
        have hSome := hLive.txn
        rw [ht] at hSome
        cases hSome
      rw [hSame]
      exact ⟨h.committed, h.pending.trans hEmpty, h.unprepared, .inr rfl, fun _ => hQuiet, fun b hb => by cases hb⟩
    | some t =>
      have hLost : trx.stmtSavepointActive = false ∨ true = false := .inl hQuiet.unarmed
      obtain ⟨hBack, hQuiet'⟩ := back_of_lost ht hLost
      obtain ⟨trx', ht', hEq⟩ := tidesdbRollback_of_lost ht hLost
      refine ⟨h.committed, hBack, fun u hu => ?_, .inr rfl, fun _ => hQuiet', fun b hb => by cases hb⟩
      rw [hEq] at hu
      simp only [Txn.Trx.ended, ht', map_some, some.injEq] at hu
      rw [← hu]
      rfl
  | some b =>
    obtain ⟨hLive, hHolds⟩ := h.armed b hBefore
    obtain ⟨hBack, hLive', hUnarmed⟩ := back_of_holds hLive hHolds
    obtain ⟨t, older, ht, hEq⟩ := tidesdbRollback_of_holds hHolds
    refine ⟨h.committed, hBack, fun u hu => ?_, .inl hLive', fun _ => quiet_of_live hLive' hUnarmed,
      fun b hb => by cases hb⟩
    rw [hEq] at hu
    cases hu
    exact h.unprepared t ht

end Follows

section Runs

variable {σ ω κ τ γ : Type} [DecidableEq κ] [DecidableEq τ] {metaOps : List (FtsMetaDelta κ) → List ω}
  {key : XidKey.Key} {st₀ : Storage ω} {trx₀ : FtsTrx σ ω κ}

def content (apply : γ → ω → γ) (c₀ : γ) (st : Storage ω) : γ := (st.committed.map Prod.snd).foldl apply c₀

structure Begun (trx : FtsTrx σ ω κ) : Prop where
  quiet : Quiet trx
  unprepared : ∀ t, trx.txn = some t → t.prepared = false
  nothing : trx.pending = .empty

def opened (handlers : τ → Handler ω) : Account ω κ τ := ⟨⟨[], .empty, none⟩, handlers⟩

omit [DecidableEq κ] in
theorem follows_begun (h : Begun trx₀) : Follows key st₀ st₀ trx₀ ⟨[], .empty, none⟩ :=
  ⟨(append_nil _).symm, h.nothing, h.unprepared, .inr rfl, fun _ => h.quiet, fun b hb => by cases hb⟩

variable {a : Account ω κ τ} {s : Conn σ ω κ τ}

section

variable (metaOps : List (FtsMetaDelta κ) → List ω)

theorem follows_step (hHandlers : s.handlers = a.handlers) (h : Follows key st₀ s.storage s.trx a.ledger)
    (act : Action σ ω κ τ) : (step metaOps key s act).handlers = (account metaOps a act).handlers ∧
      Follows key st₀ (step metaOps key s act).storage (step metaOps key s act).trx (account metaOps a act).ledger := by
  cases act with
  | lock id snapshot => exact ⟨hHandlers, h.lock id snapshot⟩
  | call t c id snapshot =>
    obtain ⟨hFollows, hLive⟩ := h.ensure id snapshot
    refine ⟨?_, ?_⟩
    · simp only [step, account, hHandlers]
    · have hEffects := hFollows.effects metaOps ((a.handlers t).call c).2 hLive id snapshot
      simpa only [step, account, hHandlers] using hEffects
  | commit => exact ⟨hHandlers, h.disarm⟩
  | rollback => exact ⟨hHandlers, h.rollback⟩

theorem follows_run (acts : List (Action σ ω κ τ)) (hHandlers : s.handlers = a.handlers)
    (h : Follows key st₀ s.storage s.trx a.ledger) :
    Follows key st₀ (acts.foldl (step metaOps key) s).storage (acts.foldl (step metaOps key) s).trx
      (acts.foldl (account metaOps) a).ledger := by
  induction acts generalizing s a with
  | nil => exact h
  | cons act acts ih =>
    obtain ⟨hNext, hFollows⟩ := follows_step metaOps hHandlers h act
    exact ih hNext hFollows

end

def rolledBack (key : XidKey.Key) (s : Conn σ ω κ τ) : Storage ω :=
  (Txn.tidesdbRollback key true true s.storage s.trx.toTrx).storage

omit [DecidableEq κ] [DecidableEq τ] in
theorem rolledBack_of_follows {l : Ledger ω κ} (h : Follows key st₀ s.storage s.trx l) :
    rolledBack key s = s.storage := by
  rw [rolledBack, Txn.tidesdbRollback]
  cases ht : s.trx.txn with
  | none => rfl
  | some t => simp [Txn.tdbTxnRollbackStateful, h.unprepared t ht]

def AllBelow (metaOps : List (FtsMetaDelta κ) → List ω) : Account ω κ τ → List (Action σ ω κ τ) → Prop
  | _, [] => True
  | a, act :: acts =>
    (∀ t c id snapshot, act = .call t c id snapshot → (a.handlers t).Below c) ∧
      AllBelow metaOps (account metaOps a act) acts

theorem durable_effects {effects : List (Effect ω κ)} (h : .maybeBulkCommit ∉ effects) (l : Ledger ω κ) :
    (effects.foldl (Ledger.effect metaOps) l).durable = l.durable := by
  induction effects generalizing l with
  | nil => rfl
  | cons e effects ih =>
    rw [mem_cons, not_or] at h
    cases e with
    | write ws deltas => exact ih h.2 _
    | maybeBulkCommit => exact absurd rfl h.1

theorem durable_of_allBelow (acts : List (Action σ ω κ τ)) (h : AllBelow metaOps a acts) :
    (acts.foldl (account metaOps) a).ledger.durable = a.ledger.durable := by
  induction acts generalizing a with
  | nil => rfl
  | cons act acts ih =>
    refine (ih h.2).trans ?_
    cases act with
    | call t c id snapshot => exact durable_effects (no_commit_of_below (h.1 t c id snapshot rfl)) _
    | lock id snapshot | commit | rollback => rfl

/-- ROLLBACK leaves the writes up to the last commit in the middle of a statement, and nothing else. -/
theorem rollback_leaves_durable (metaOps : List (FtsMetaDelta κ) → List ω) (key : XidKey.Key) (st₀ : Storage ω)
    (hBegun : Begun trx₀) (handlers : τ → Handler ω) (acts : List (Action σ ω κ τ)) (apply : γ → ω → γ) (c₀ : γ) :
    content apply c₀ (rolledBack key (acts.foldl (step metaOps key) ⟨st₀, trx₀, handlers⟩)) =
        (acts.foldl (account metaOps) (opened handlers)).ledger.durable.foldl apply (content apply c₀ st₀) ∧
      (AllBelow metaOps (opened handlers) acts →
        content apply c₀ (rolledBack key (acts.foldl (step metaOps key) ⟨st₀, trx₀, handlers⟩)) =
          content apply c₀ st₀) := by
  have hOpened : Follows key st₀ st₀ trx₀ (opened handlers).ledger := follows_begun hBegun
  have hFollows := follows_run (s := ⟨st₀, trx₀, handlers⟩) metaOps acts rfl hOpened
  have hContent : content apply c₀ (rolledBack key (acts.foldl (step metaOps key) ⟨st₀, trx₀, handlers⟩)) =
      (acts.foldl (account metaOps) (opened handlers)).ledger.durable.foldl apply (content apply c₀ st₀) := by
    rw [rolledBack_of_follows hFollows, content, hFollows.committed, map_append, foldl_append, List.map_map]
    simp [content, Function.comp_def]
  refine ⟨hContent, fun hBelow => ?_⟩
  rw [hContent, durable_of_allBelow acts hBelow]
  rfl

end Runs

section Samples

def beginning : FtsTrx Unit Nat Unit := ⟨⟨none, false, false, false, 0⟩, [], false, [], false⟩

theorem begun_beginning : Begun beginning :=
  ⟨⟨rfl, fun h => by cases h⟩, fun _ h => (by cases h), rfl⟩

def indexed : Handler Nat := ⟨63, true, false, false, false, 0, []⟩

def noTotals (_ : List (FtsMetaDelta Unit)) : List Nat := []

def insertRow (n : Nat) : Action Unit Nat Unit Unit := .call () (.writeRow [n] []) 0 ()

def bulkAfterOne : List (Action Unit Nat Unit Unit) :=
  [.lock 0 (), insertRow 9, .commit, .lock 0 (), .call () .startBulkInsert 0 ()] ++
    (List.range 8).map insertRow ++ [.call () .endBulkInsert 0 (), .commit]

def nobody : XidKey.Key := []

/-- The eighth row makes 512 operations: the transaction so far is committed, the first statement with it. -/
theorem rollback_keeps_bulk : Begun beginning ∧ content (fun c w => c ++ [w]) [] (rolledBack nobody
        (bulkAfterOne.foldl (step noTotals nobody) ⟨⟨[], []⟩, beginning, fun _ => indexed⟩)) =
          [9, 0, 1, 2, 3, 4, 5, 6, 7] ∧
      content (fun c w => c ++ [w]) [] (⟨[], []⟩ : Storage Nat) = [] :=
  ⟨begun_beginning, rfl, rfl⟩

def bulkOfTwo : List (Action Unit Nat Unit Unit) :=
  [.lock 0 (), .call () .startBulkInsert 0 (), insertRow 0, insertRow 1]

theorem rollback_leaves_durable_bulk : content (fun c w => c ++ [w]) [] (rolledBack nobody
        (bulkAfterOne.foldl (step noTotals nobody) ⟨⟨[], []⟩, beginning, fun _ => indexed⟩)) =
          [9, 0, 1, 2, 3, 4, 5, 6, 7] ∧
      content (fun c w => c ++ [w]) [] (rolledBack nobody
        (bulkOfTwo.foldl (step noTotals nobody) ⟨⟨[], []⟩, beginning, fun _ => indexed⟩)) = [] := by
  refine ⟨(rollback_leaves_durable noTotals nobody _ begun_beginning _ bulkAfterOne _ []).1,
    (rollback_leaves_durable noTotals nobody _ begun_beginning _ bulkOfTwo _ []).2 ?_⟩
  refine ⟨fun _ _ _ _ h => ?_, fun _ _ _ _ h => ?_, fun _ _ _ _ h => ?_, fun _ _ _ _ h => ?_, trivial⟩
  all_goals cases h
  · exact trivial
  · exact fun _ => by decide
  · exact fun _ => by decide

end Samples

end TideSql.BulkCommit
