import TideSql.Handler.Recovery
import TideSql.Lib.Run

/-!
# Two-phase commit

A transaction runs its statements, the coordinator calls `prepare`, writes its decision to its log and calls
`commit` or `rollback`, and the server may stop between any two of these.
-/

namespace TideSql.TwoPhase
open XidKey Txn Recovery Lib.Run List Option

variable {ω : Type}

structure Session (ω : Type) where
  trx : Trx Unit ω
  storage : Storage ω
  net : List ω
  stmtStart : Option Nat
  marks : List (Nat × Nat)

inductive Event (ω : Type) where
  | begin
  | write (ws : List ω)
  | bulkFlush (commitOk : Bool)
  | finish
  | fail
  | savepoint (slot : Nat)
  | rollbackTo (slot : Nat)
  | release (slot : Nat)

def Joined (trx : Trx Unit ω) : Bool := trx.txn.isSome && !trx.needsReset

/-- `inTransaction` tells an explicit transaction from one autocommit statement, whose end is the transaction's. -/
def step (inTransaction : Bool) (key : Key) (s : Session ω) : Event ω → Option (Session ω)
  | .begin =>
    if s.stmtStart.isSome then none
    else
      let trx := getOrCreateTrx 0 () s.trx
      some
        { s with
          trx := if inTransaction && !trx.stmtSavepointActive then stmtSavepointArm trx else trx
          stmtStart := some s.net.length }
  | .write ws =>
    if s.stmtStart.isSome then some { s with trx := writeRow ws s.trx, net := s.net ++ ws } else none
  | .bulkFlush commitOk =>
    if s.stmtStart.isSome then
      let o := maybeBulkCommit key commitOk 0 () s.storage s.trx
      some { s with trx := o.trx, storage := o.storage }
    else none
  | .finish =>
    if s.stmtStart.isSome && inTransaction then
      let o := tidesdbCommit key false inTransaction true s.storage s.trx
      some { s with trx := o.trx, storage := o.storage, stmtStart := none }
    else none
  | .fail =>
    match s.stmtStart with
    | none => none
    | some n =>
      let o := tidesdbRollback key false inTransaction s.storage s.trx
      some
        { s with
          trx := o.trx
          storage := o.storage
          net := if inTransaction then s.net.take n else []
          stmtStart := none }
  | .savepoint slot =>
    if inTransaction && s.stmtStart.isNone && Joined s.trx then
      some { s with trx := tidesdbSavepointSet slot s.trx, marks := (slot, s.net.length) :: s.marks }
    else none
  | .rollbackTo slot =>
    if inTransaction && s.stmtStart.isNone && Joined s.trx then
      match tidesdbSavepointRollback slot s.trx, s.marks.dropWhile (·.1 ≠ slot) with
      | some trx, (_, n) :: older =>
        some { s with trx, net := s.net.take n, marks := (slot, (s.net.take n).length) :: older }
      | _, _ => some s
    else none
  | .release slot =>
    if inTransaction && s.stmtStart.isNone && Joined s.trx then
      some { s with trx := tidesdbSavepointRelease slot s.trx, marks := s.marks.eraseP (·.1 = slot) }
    else none

structure Idle (trx : Trx Unit ω) : Prop where
  unarmed : trx.stmtSavepointActive = false
  clean : trx.dirty = false
  fresh : trx.txn = none → trx.needsReset = false
  reset : ∀ t, trx.txn = some t → trx.needsReset = true ∧ t.ops = [] ∧ t.prepared = false

def Session.init (trx : Trx Unit ω) (storage : Storage ω) : Session ω := ⟨trx, storage, [], none, []⟩

inductive CrashPoint where
  | beforePrepare
  | afterPrepare
  | afterLog
  | afterCommit

structure Fate where
  prepareOk : Bool
  decides : Bool
  crash : CrashPoint
  others : Xid → Bool

structure Verdict (ω : Type) where
  logged : Bool
  storage : Storage ω

def logOf (fate : Fate) (xid : Xid) (logged : Bool) (x : Xid) : Bool := if x = xid then logged else fate.others x

/-- From `prepare` to the end of recovery. The server passes `all` exactly for an explicit
transaction; `commitOk` is whether the library's commit succeeds where it is called. -/
def conclude (len : Nat) (xid : Xid) (inTransaction commitOk : Bool) (s : Session ω) (fate : Fate) : Verdict ω :=
  let key := tdbXidKey xid
  let unlogged (st : Storage ω) : Verdict ω := ⟨false, recover len (logOf fate xid false) st⟩
  let logged (st : Storage ω) : Verdict ω := ⟨true, recover len (logOf fate xid true) st⟩
  let p := tidesdbPrepare key inTransaction fate.prepareOk s.storage s.trx
  match fate.crash with
  | .beforePrepare => unlogged s.storage
  | .afterPrepare => unlogged p.storage
  | .afterLog | .afterCommit =>
    if p.ok && fate.decides then
      match fate.crash with
      | .afterLog => logged p.storage
      | _ => logged (tidesdbCommit key inTransaction inTransaction commitOk p.storage p.trx).storage
    else unlogged (tidesdbRollback key inTransaction inTransaction p.storage p.trx).storage

/-- At every crash point, with every answer of `prepare` and both decisions. -/
def Atomic (len : Nat) (xid : Xid) (inTransaction commitOk : Bool) (s : Session ω) : Prop :=
  ∀ fate, (conclude len xid inTransaction commitOk s fate).storage.written (tdbXidKey xid) =
    if (conclude len xid inTransaction commitOk s fate).logged then s.net else []

def buffered (trx : Trx Unit ω) : List ω := (trx.txn.map LibTxn.ops).getD []

structure Sound (key : Key) (st : Storage ω) (trx : Trx Unit ω) : Prop where
  free : ∀ b ∈ st.inDoubt, b.1 ≠ key
  active : ∀ t, trx.txn = some t → t.prepared = false
  marked : buffered trx ≠ [] → trx.dirty = true

namespace Sound

variable {key : Key} {st : Storage ω} {trx : Trx Unit ω}

variable {trx' : Trx Unit ω}

theorem of_txn (h : Sound key st trx) (hDirty : trx'.dirty = trx.dirty)
    (hTxn : ∀ t', trx'.txn = some t' → ∃ t k, trx.txn = some t ∧ t'.prepared = t.prepared ∧ t'.ops = t.ops.take k) :
    Sound key st trx' := by
  refine ⟨h.free, fun t' ht' => ?_, fun hOps => ?_⟩
  · obtain ⟨t, k, ht, hPrepared, _⟩ := hTxn t' ht'
    rw [hPrepared, h.active t ht]
  · cases ht' : trx'.txn with
    | none => simp [buffered, ht'] at hOps
    | some t' =>
      obtain ⟨t, k, ht, _, hTake⟩ := hTxn t' ht'
      rw [hDirty]
      apply h.marked
      rintro hNil
      simp only [buffered, ht, ht', map_some, getD_some] at hNil hOps
      rw [hTake, hNil, take_nil] at hOps
      exact hOps rfl

theorem of_map (h : Sound key st trx) {f : LibTxn Unit ω → LibTxn Unit ω} (hDirty : trx'.dirty = trx.dirty)
    (hTxn : trx'.txn = trx.txn.map f) (hPrepared : ∀ t, (f t).prepared = t.prepared) (hOps : ∀ t, (f t).ops = t.ops) :
    Sound key st trx' := by
  refine h.of_txn hDirty fun t' ht' => ?_
  rw [hTxn, map_eq_some_iff] at ht'
  obtain ⟨t, ht, rfl⟩ := ht'
  exact ⟨t, t.ops.length, ht, hPrepared t, by rw [hOps, take_length]⟩

theorem of_empty (hFree : ∀ b ∈ st.inDoubt, b.1 ≠ key)
    (hTxn : ∀ t', trx'.txn = some t' → t'.prepared = false ∧ t'.ops = []) : Sound key st trx' := by
  refine ⟨hFree, fun t' ht' => (hTxn t' ht').1, fun hOps => ?_⟩
  cases ht' : trx'.txn with
  | none => simp [buffered, ht'] at hOps
  | some t' => simp [buffered, ht', (hTxn t' ht').2] at hOps

section

variable (h : Sound key st trx)
include h

theorem arm : Sound key st (stmtSavepointArm trx) := by
  refine h.of_map (f := fun t => (t.releaseSavepoint .stmt).savepoint .stmt) ?_ ?_ (fun t => rfl) fun t => rfl
  · cases hTxn : trx.txn <;> simp [stmtSavepointArm, hTxn]
  · cases hTxn : trx.txn <;> simp [stmtSavepointArm, hTxn]

theorem disarm : Sound key st (stmtSavepointDisarm trx) := by
  rw [stmtSavepointDisarm]
  split
  · exact h.of_map rfl rfl (fun t => rfl) fun t => rfl
  · exact h

theorem stmtRollback (hSome : stmtSavepointRollback trx = some trx') : Sound key st trx' := by
  rw [stmtSavepointRollback] at hSome
  split at hSome
  · split at hSome
    · cases hSome
    · rename_i t' ht'
      cases hSome
      obtain ⟨t, ht, hRoll⟩ := Option.bind_eq_some_iff.mp ht'
      obtain ⟨m, count, older, _, rfl⟩ := LibTxn.rollbackToSavepoint_eq_some hRoll
      refine h.of_txn rfl fun t'' ht'' => ?_
      cases ht''
      exact ⟨t, count, ht, rfl, rfl⟩
  · cases hSome

theorem ended : Sound key st trx.ended := by
  refine of_empty h.free fun t' ht' => ?_
  obtain ⟨t, _, rfl⟩ := Option.map_eq_some_iff.mp ht'
  exact ⟨rfl, rfl⟩

theorem getOrCreate : Sound key st (getOrCreateTrx 0 () trx) := by
  rw [getOrCreateTrx]
  split
  · refine of_empty h.free fun t' ht' => ?_
    cases ht'
    exact ⟨rfl, rfl⟩
  · split
    · refine of_empty h.free fun t' ht' => ?_
      cases ht'
      exact ⟨rfl, rfl⟩
    · exact h

theorem savepointRollback {slot : Nat} (hSome : tidesdbSavepointRollback slot trx = some trx') : Sound key st trx' := by
  rw [tidesdbSavepointRollback] at hSome
  split at hSome
  · cases hSome
    exact h
  · rename_i t ht
    split at hSome
    · cases hSome
    · rename_i t' hRoll
      cases hSome
      obtain ⟨m, count, older, _, rfl⟩ := LibTxn.rollbackToSavepoint_eq_some hRoll
      refine h.of_txn rfl fun t'' ht'' => ?_
      cases ht''
      exact ⟨t, count, ht, rfl, rfl⟩

theorem writeRow (ws : List ω) : Sound key st (writeRow ws trx) := by
  refine ⟨h.free, fun t' ht' => ?_, fun _ => rfl⟩
  obtain ⟨t, ht, rfl⟩ := Option.map_eq_some_iff.mp ht'
  exact h.active t ht

theorem bulkCommit (commitOk : Bool) :
    Sound key (maybeBulkCommit key commitOk 0 () st trx).storage (maybeBulkCommit key commitOk 0 () st trx).trx := by
  rw [maybeBulkCommit]
  split
  · exact h
  · rename_i t _
    split
    · have hFree : ∀ b ∈ (st.commit key t.ops).inDoubt, b.1 ≠ key := h.free
      refine of_empty hFree fun t' ht' => ?_
      cases ht'
      exact ⟨rfl, rfl⟩
    · refine of_empty h.free fun t' ht' => ?_
      cases ht'
      exact ⟨rfl, rfl⟩

theorem statementRollback (inTransaction : Bool) : Sound key (tidesdbRollback key false inTransaction st trx).storage
      (tidesdbRollback key false inTransaction st trx).trx := by
  rw [tidesdbRollback]
  split
  · exact h
  · rename_i t ht
    split
    · rename_i trx' hSome
      cases inTransaction
      · cases hSome
      · exact h.stmtRollback hSome
    · rw [tdbTxnRollbackStateful, h.active t ht]
      exact h.ended

end

end Sound

variable {inTransaction : Bool} {key : Key}

theorem step_sound {s s' : Session ω} {e : Event ω} (hStep : step inTransaction key s e = some s')
    (h : Sound key s.storage s.trx) : Sound key s'.storage s'.trx := by
  cases e with
  | begin =>
    rw [step] at hStep
    split at hStep
    · cases hStep
    · cases hStep
      dsimp only
      split
      · exact h.getOrCreate.arm
      · exact h.getOrCreate
  | write ws =>
    rw [step] at hStep
    split at hStep
    · cases hStep
      exact h.writeRow ws
    · cases hStep
  | bulkFlush commitOk =>
    rw [step] at hStep
    split at hStep
    · cases hStep
      exact h.bulkCommit commitOk
    · cases hStep
  | finish =>
    rw [step] at hStep
    split at hStep
    · rename_i hOpen
      cases hStep
      obtain ⟨_, rfl⟩ := Bool.and_eq_true_iff.mp hOpen
      dsimp only
      rw [tidesdbCommit]
      split
      · exact h
      · exact h.disarm
    · cases hStep
  | fail =>
    rw [step] at hStep
    split at hStep
    · cases hStep
    · cases hStep
      exact h.statementRollback inTransaction
  | savepoint slot =>
    rw [step] at hStep
    split at hStep
    · cases hStep
      exact h.of_map rfl rfl (fun t => rfl) fun t => rfl
    · cases hStep
  | rollbackTo slot =>
    rw [step] at hStep
    split at hStep
    · split at hStep
      · rename_i trx m n older hTrx _
        cases hStep
        exact h.savepointRollback hTrx
      · cases hStep
        exact h
    · cases hStep
  | release slot =>
    rw [step] at hStep
    split at hStep
    · cases hStep
      exact h.of_map rfl rfl (fun t => rfl) fun t => rfl
    · cases hStep

section Conclusion

variable {key : Key} {st : Storage ω} {trx : Trx Unit ω}

theorem Sound.doubted_eq_nil (h : Sound key st trx) : st.doubted key = [] := by
  have hNone : st.inDoubt.find? (·.1 = key) = none := by simpa [find?_eq_none] using h.free
  rw [Storage.doubted, hNone]

theorem Sound.buffered_eq_nil (h : Sound key st trx) (hClean : trx.dirty = false) : buffered trx = [] := by
  apply Classical.byContradiction
  intro hOps
  have hDirty := h.marked hOps
  rw [hClean] at hDirty
  cases hDirty

theorem dirty_disarm (trx : Trx Unit ω) : (stmtSavepointDisarm trx).dirty = trx.dirty := by
  rw [stmtSavepointDisarm]
  split <;> rfl

theorem buffered_disarm (trx : Trx Unit ω) : buffered (stmtSavepointDisarm trx) = buffered trx := by
  rw [stmtSavepointDisarm]
  split
  · cases hTxn : trx.txn <;> simp [buffered, hTxn, LibTxn.releaseSavepoint]
  · rfl

theorem isSome_disarm (trx : Trx Unit ω) : (stmtSavepointDisarm trx).txn.isSome = trx.txn.isSome := by
  rw [stmtSavepointDisarm]
  split <;> simp

theorem commit_active (h : Sound key st trx) (commitOk : Bool) :
    (tdbFinalizeCommit key commitOk st trx).storage.written key =
        st.written key ++ (if commitOk then buffered trx else []) ∧
      (tdbFinalizeCommit key commitOk st trx).storage.doubted key = [] := by
  have hDisarm := h.disarm
  rw [← buffered_disarm trx, tdbFinalizeCommit]
  generalize stmtSavepointDisarm trx = trx' at hDisarm
  cases hTxn : trx'.txn with
  | none => simp [hTxn, buffered, hDisarm.doubted_eq_nil]
  | some t =>
    have hActive := hDisarm.active t hTxn
    cases hDirty : trx'.dirty with
    | false => simp [hDisarm.doubted_eq_nil, hDisarm.buffered_eq_nil hDirty]
    | true =>
      cases commitOk with
      | false => simp [tdbTxnCommitStateful, tdbTxnRollbackStateful, hActive, hDisarm.doubted_eq_nil]
      | true => simp [hTxn, tdbTxnCommitStateful, hActive, buffered, hDisarm.doubted_eq_nil]

inductive AfterPrepare (key : Key) (all : Bool) (st : Storage ω) (trx : Trx Unit ω) : Outcome Unit ω → Prop where
  | active (trx' : Trx Unit ω) (hSound : Sound key st trx') (hOps : buffered trx' = buffered trx)
      (hAll : all = true → buffered trx = []) : AfterPrepare key all st trx ⟨st, trx', true⟩
  | prepared (trx' : Trx Unit ω) (t : LibTxn Unit ω) (hAll : all = true) (hTxn : trx'.txn = some t)
      (hPrepared : t.prepared = true) (hDirty : trx'.dirty = true) (hUnarmed : trx'.stmtSavepointActive = false) :
      AfterPrepare key all st trx ⟨st.prepare key (buffered trx), trx', true⟩
  | failed (trx' : Trx Unit ω) (hTxn : trx'.txn = none) : AfterPrepare key all st trx ⟨st, trx', false⟩

theorem afterPrepare (h : Sound key st trx) (all prepareOk : Bool) :
    AfterPrepare key all st trx (tidesdbPrepare key all prepareOk st trx) := by
  cases hTxn : trx.txn with
  | none =>
    simp only [tidesdbPrepare, hTxn]
    exact .active trx h rfl fun _ => by simp [buffered, hTxn]
  | some t =>
    have hActive := h.active t hTxn
    cases all with
    | false =>
      simp only [tidesdbPrepare, hTxn]
      exact .active trx h rfl fun hAll => by cases hAll
    | true =>
      have hOps : t.ops = buffered trx := by simp [buffered, hTxn]
      have hUnarmed : (stmtSavepointDisarm trx).stmtSavepointActive = false := by
        rw [stmtSavepointDisarm]
        split <;> simp_all
      simp only [tidesdbPrepare, hTxn, Bool.not_true, Bool.false_eq_true, if_false, dirty_disarm]
      cases hDirty : trx.dirty with
      | false =>
        exact .active _ h.disarm (buffered_disarm trx) fun _ => h.buffered_eq_nil hDirty
      | true =>
        cases prepareOk with
        | false =>
          simp only [tdbTxnRollbackStateful, hActive]
          exact .failed _ rfl
        | true =>
          obtain ⟨t', ht'⟩ : ∃ t', (stmtSavepointDisarm trx).txn = some t' := by
            rw [← isSome_iff_exists, isSome_disarm, hTxn]
            rfl
          simp only [hOps]
          exact .prepared _ { t' with prepared := true } rfl (by simp [ht']) rfl rfl hUnarmed

theorem tidesdbCommit_eq (all commitOk : Bool) (st : Storage ω) (trx : Trx Unit ω) :
    (tidesdbCommit key all all commitOk st trx).storage = (tdbFinalizeCommit key commitOk st trx).storage := by
  cases hTxn : trx.txn with
  | none =>
    have hNone : (stmtSavepointDisarm trx).txn = none := by
      rw [stmtSavepointDisarm]
      split <;> simp [hTxn]
    simp [tidesdbCommit, tdbFinalizeCommit, hTxn, hNone]
  | some t => cases all <;> simp [tidesdbCommit, hTxn]

/-- The transaction's batch reaches storage when the decision is logged and the commit has been made, or it was
prepared and the commit has not been tried. -/
def carried (inTransaction commitOk : Bool) (fate : Fate) (logged : Bool) : Bool :=
  logged && match fate.crash with | .afterCommit => commitOk | _ => inTransaction

variable {p : Outcome Unit ω} {all : Bool}

section

variable (h : AfterPrepare key all st trx p)
include h

theorem AfterPrepare.written : p.storage.written key = st.written key := by
  cases h <;> rfl

theorem AfterPrepare.written_rollback :
    (tidesdbRollback key all all p.storage p.trx).storage.written key = st.written key := by
  rw [← h.written, tidesdbRollback]
  have hReal : (all || !all) = true := by cases all <;> rfl
  rw [hReal]
  split
  · rfl
  · rw [if_pos rfl, tdbTxnRollbackStateful]
    dsimp only
    split <;> rfl

theorem AfterPrepare.logged (hDoubted : Sound key st trx) (hOk : p.ok = true) :
    p.storage.written key ++ p.storage.doubted key = st.written key ++ if all then buffered trx else [] := by
  cases h with
  | active trx' hSound hOps hAll =>
    cases all with
    | false => simp [hSound.doubted_eq_nil]
    | true => simp [hSound.doubted_eq_nil, hAll rfl]
  | prepared trx' t hAll =>
    rw [hAll, Storage.doubted_prepare _ _ _ hDoubted.free]
    rfl
  | failed trx' => cases hOk

theorem AfterPrepare.logged_commit (hDoubted : Sound key st trx) (hOk : p.ok = true) (commitOk : Bool) :
    (tidesdbCommit key all all commitOk p.storage p.trx).storage.written key ++
        (tidesdbCommit key all all commitOk p.storage p.trx).storage.doubted key =
      st.written key ++ if commitOk then buffered trx else [] := by
  rw [tidesdbCommit_eq]
  cases h with
  | active trx' hSound hOps hAll =>
    obtain ⟨hWritten, hNone⟩ := commit_active hSound commitOk
    rw [hWritten, hNone, hOps, append_nil]
  | prepared trx' t hAll hTxn hPrepared hDirty hUnarmed =>
    have hSame : stmtSavepointDisarm trx' = trx' := by simp [stmtSavepointDisarm, hUnarmed]
    simp only [tdbFinalizeCommit, hSame, hTxn, hDirty, tdbTxnCommitStateful, hPrepared, if_true]
    cases commitOk with
    | false => simp [tdbTxnRollbackStateful, hPrepared]
    | true =>
      simp only [if_true]
      rw [Storage.written_commitPrepared, Storage.doubted_commitPrepared, Storage.written_prepare,
        Storage.doubted_prepare _ _ _ hDoubted.free]
      simp
  | failed trx' => cases hOk

end

theorem written_conclude {len : Nat} {xid : Xid} {s : Session ω} (hLen : 0 < len)
    (h : Sound (tdbXidKey xid) s.storage s.trx) (inTransaction commitOk : Bool) (fate : Fate) :
    (conclude len xid inTransaction commitOk s fate).storage.written (tdbXidKey xid) =
      s.storage.written (tdbXidKey xid) ++
        if carried inTransaction commitOk fate (conclude len xid inTransaction commitOk s fate).logged then
          buffered s.trx else [] := by
  have hPrepare := afterPrepare h inTransaction fate.prepareOk
  rw [conclude]
  cases hCrash : fate.crash with
  | beforePrepare => simp [written_recover len hLen, logOf, carried]
  | afterPrepare => simp [written_recover len hLen, logOf, carried, hPrepare.written]
  | afterLog =>
    dsimp only
    split
    · rename_i hLogged
      have hOk : _ = true := (Bool.and_eq_true_iff.mp hLogged).1
      simp [written_recover len hLen, logOf, carried, hCrash, hPrepare.logged h hOk]
    · simp [written_recover len hLen, logOf, carried, hPrepare.written_rollback]
  | afterCommit =>
    dsimp only
    split
    · rename_i hLogged
      have hOk : _ = true := (Bool.and_eq_true_iff.mp hLogged).1
      simp [written_recover len hLen, logOf, carried, hCrash, hPrepare.logged_commit h hOk]
    · simp [written_recover len hLen, logOf, carried, hPrepare.written_rollback]

end Conclusion

variable {trx : Trx Unit ω} {storage : Storage ω}

theorem sound_init (hIdle : Idle trx) (hNew : ∀ b ∈ storage.inDoubt, b.1 ≠ key) : Sound key storage trx := by
  refine Sound.of_empty hNew fun t ht => ?_
  obtain ⟨_, hOps, hPrepared⟩ := hIdle.reset t ht
  exact ⟨hPrepared, hOps⟩

theorem prepare_ok (key : Key) (all : Bool) (st : Storage ω) (trx : Trx Unit ω) :
    (tidesdbPrepare key all true st trx).ok = true := by
  rw [tidesdbPrepare]
  split
  · rfl
  · split
    · rfl
    · dsimp only
      split <;> rfl

/-- Recovery leaves all of a logged transaction and nothing of another, exactly when none of it was committed early,
and both what `prepare` stores of it (nothing, of a single statement) and what the commit stores of it (nothing, if it
fails) are its writes. -/
theorem two_phase_atomic_iff (len : Nat) (xid : Xid) (inTransaction commitOk : Bool) (trx : Trx Unit ω)
    (storage : Storage ω) (s : Session ω) (hLen : 0 < len) (hIdle : Idle trx)
    (hNew : ∀ b ∈ storage.inDoubt, b.1 ≠ tdbXidKey xid)
    (hReach : Reach (step inTransaction (tdbXidKey xid)) (fun _ _ => True) (Session.init trx storage) s) :
    Atomic len xid inTransaction commitOk s ↔ s.storage.written (tdbXidKey xid) = [] ∧
      (if inTransaction then buffered s.trx else []) = s.net ∧ (if commitOk then buffered s.trx else []) = s.net := by
  have hSound : Sound (tdbXidKey xid) s.storage s.trx :=
    hReach.invariant (fun s => Sound (tdbXidKey xid) s.storage s.trx) (sound_init hIdle hNew)
      fun _ _ _ h _ hStep => step_sound hStep h
  have hWritten := written_conclude hLen hSound inTransaction commitOk
  constructor
  · intro h
    have hCrash := h ⟨true, true, .beforePrepare, fun _ => false⟩
    have hLog := h ⟨true, true, .afterLog, fun _ => false⟩
    have hCommit := h ⟨true, true, .afterCommit, fun _ => false⟩
    rw [hWritten] at hCrash hLog hCommit
    simp only [conclude, carried, Bool.false_and, Bool.false_eq_true, if_false, append_nil] at hCrash
    simp only [conclude, prepare_ok, carried, Bool.and_self, if_true, Bool.true_and, hCrash, nil_append] at hLog hCommit
    exact ⟨hCrash, hLog, hCommit⟩
  · rintro ⟨hUnwritten, hPrepared, hCommitted⟩ fate
    rw [hWritten, hUnwritten, nil_append, carried]
    cases (conclude len xid inTransaction commitOk s fate).logged with
    | false => rfl
    | true =>
      cases fate.crash with
      | beforePrepare | afterPrepare | afterLog => simpa using hPrepared
      | afterCommit => simpa using hCommitted

def sampleXid : Xid := ⟨1, [1], [], by decide⟩

def idleTrx : Trx Unit Nat := ⟨none, false, false, false, 0⟩

theorem idle_idleTrx : Idle idleTrx := ⟨rfl, rfl, fun _ => rfl, fun t ht => by cases ht⟩

theorem explicit_transaction_atomic : ∃ s : Session Nat, s.net = [7] ∧ Atomic 1 sampleXid true true s := by
  have h : Reach (step true (tdbXidKey sampleXid)) (fun _ _ => True) (Session.init idleTrx ⟨[], []⟩)
      ⟨⟨some ⟨0, (), [], [(.stmt, 0)], false⟩, false, true, false, 1⟩, ⟨[], []⟩, [], some 0, []⟩ :=
    Reach.init.step .begin trivial rfl
  have h' := (h.step (.write [7]) trivial rfl).step .finish trivial rfl
  exact ⟨_, rfl, (two_phase_atomic_iff 1 sampleXid true true idleTrx ⟨[], []⟩ _ Nat.one_pos idle_idleTrx
    (fun b hb => by cases hb) h').mpr ⟨rfl, rfl, rfl⟩⟩

/-- A single autocommit statement is not prepared: logged as committed, it is gone after a crash. And the prepared
batch of an explicit transaction is rolled back when its commit fails. -/
theorem autocommit_statement_lost :
    (∃ (s : Session Nat) (fate : Fate),
      run (step false (tdbXidKey sampleXid)) (Session.init idleTrx ⟨[], []⟩) [.begin, .write [7]] = some s ∧
        s.net = [7] ∧ (conclude 1 sampleXid false true s fate).logged = true ∧
        (conclude 1 sampleXid false true s fate).storage.written (tdbXidKey sampleXid) = []) ∧
    ∃ (s : Session Nat) (fate : Fate),
      run (step true (tdbXidKey sampleXid)) (Session.init idleTrx ⟨[], []⟩) [.begin, .write [7], .finish] = some s ∧
        s.net = [7] ∧ (conclude 1 sampleXid true false s fate).logged = true ∧
        (conclude 1 sampleXid true false s fate).storage.written (tdbXidKey sampleXid) = [] :=
  ⟨⟨_, ⟨true, true, .afterLog, fun _ => false⟩, rfl, rfl, rfl, written_recover 1 Nat.one_pos _ _ sampleXid⟩,
    ⟨_, ⟨true, true, .afterCommit, fun _ => false⟩, rfl, rfl, rfl, written_recover 1 Nat.one_pos _ _ sampleXid⟩⟩

end TideSql.TwoPhase
