import TideSql.Handler.Connection

/-!
# The dirty flag

`prepare` and `commit` decide by `trx->dirty` whether there is anything to write.
-/

namespace TideSql.DirtyFlag
open XidKey Connection Lib.Run List Option
open Txn (LibTxn SavepointName)
open StmtSavepoint (FtsTrx FtsMetaDelta)

variable {σ ω κ : Type}

structure Action (σ ω κ : Type) where
  id : Nat
  snapshot : σ
  answers : Answers κ
  call : Call ω κ

def done [DecidableEq κ] (metaPut : FtsMetaDelta κ → ω) (s : Conn σ ω κ) (x : Action σ ω κ) : Done σ ω κ :=
  perform metaPut x.id x.snapshot x.answers s.haData x.call

def step [DecidableEq κ] (metaPut : FtsMetaDelta κ → ω) (s : Conn σ ω κ) (x : Action σ ω κ) : Option (Conn σ ω κ) :=
  (s.step metaPut x.id x.snapshot x.answers x.call).map Prod.fst

/-- Something to write, in the batch or among the gathered deltas. -/
def Holding (trx : FtsTrx σ ω κ) : Prop :=
  (∃ t, trx.txn = some t ∧ t.ops ≠ []) ∨ trx.ftsMetaPending ≠ []

/-- The flag says whether there is something to write, `prepare` sends no empty batch, and a `commit` that succeeds
rolls back no write. -/
structure Faithful [DecidableEq κ] (metaPut : FtsMetaDelta κ → ω) (s : Conn σ ω κ) (x : Action σ ω κ) : Prop where
  flag : ∀ trx, s.haData = some trx → trx.txn.isSome = true → (trx.dirty = true ↔ Holding trx)
  batch : ∀ key t ok, LibCall.prepare key t ok ∈ (done metaPut s x).calls → t.ops ≠ []
  kept : (done metaPut s x).ok = true → ∀ t, LibCall.rollback t ∈ (done metaPut s x).calls → t.ops = []

def Decides : Call ω κ → Bool
  | .prepare _ _ _ | .commit _ _ => true
  | _ => false

def ResetDueOnly (trx : FtsTrx σ ω κ) : Prop := trx.needsReset = true → trx.dirty = false

def LeavesSome (n : SavepointName) (fts : List (FtsMetaDelta κ)) (trx : FtsTrx σ ω κ) : Prop :=
  fts ≠ [] ∨ ∀ t, trx.txn = some t → ∀ m count older,
    t.savepoints.dropWhile (·.1 ≠ n) = (m, count) :: older → t.ops.take count ≠ []

/-- A row call puts or gathers something unless there is something already; a rollback to a savepoint leaves
something, and XA PREPARE finds something. -/
def Meets (s : Conn σ ω κ) (x : Action σ ω κ) : Prop :=
  match x.call with
  | .lock _ _ | .openTrx => ∀ trx, s.haData = some trx → trx.txn.isSome = true → ResetDueOnly trx
  | .ddl ws =>
    (∀ trx, s.haData = some trx → trx.txn.isSome = true → ResetDueOnly trx) ∧
      (ws ≠ [] ∨ ∃ trx, s.haData = some trx ∧ trx.needsReset = false ∧ Holding trx)
  | .row ws deltas => ws ≠ [] ∨ deltas ≠ [] ∨ ∀ trx, s.haData = some trx → Holding trx
  | .savepointRollback slot =>
    x.answers.rollbackToOk = true → ∀ trx, s.haData = some trx → trx.dirty = true →
      LeavesSome (.user slot) trx.ftsMetaPending trx
  | .rollback all inTransaction =>
    x.answers.rollbackToOk = true → (all || !inTransaction) = false → ∀ trx, s.haData = some trx →
      trx.stmtSavepointActive = true → trx.dirty = true → LeavesSome .stmt trx.stmtFtsSnapshot trx
  | .prepare _ all isExternal =>
    (all && isExternal) = true → ∀ trx, s.haData = some trx → trx.txn.isSome = true → Holding trx
  | _ => True

/-- Whatever there is to write is marked, also in what a statement rollback would restore. -/
structure Marked (trx : FtsTrx σ ω κ) : Prop where
  ops : ∀ t, trx.txn = some t → t.ops ≠ [] → trx.dirty = true
  fts : trx.ftsMetaPending ≠ [] → trx.dirty = true ∧ trx.ftsMetaDirty = true ∧ trx.txn.isSome = true
  armed : trx.stmtSavepointActive = true → ∀ t, trx.txn = some t → (∃ c, (SavepointName.stmt, c) ∈ t.savepoints) →
    trx.stmtFtsSnapshot ≠ [] → trx.dirty = true ∧ trx.stmtFtsDirtySnapshot = true

def Exact (trx : FtsTrx σ ω κ) : Prop := trx.txn.isSome = true → trx.dirty = true → Holding trx

structure Blank (trx : FtsTrx σ ω κ) : Prop where
  dirty : trx.dirty = false
  fts : trx.ftsMetaPending = []
  txn : ∀ t, trx.txn = some t → t.ops = [] ∧ t.savepoints = []

section Trx

variable {trx trx' : FtsTrx σ ω κ} {t : LibTxn σ ω}

theorem Blank.marked (h : Blank trx) : Marked trx := by
  refine ⟨fun t ht hOps => absurd (h.txn t ht).1 hOps, fun hFts => absurd h.fts hFts, fun _ t ht hStmt _ => ?_⟩
  obtain ⟨c, hMem⟩ := hStmt
  rw [(h.txn t ht).2] at hMem
  cases hMem

theorem Blank.exact (h : Blank trx) : Exact trx := by
  intro _ hDirty
  rw [h.dirty] at hDirty
  cases hDirty

theorem Exact.of_none (hTxn : trx.txn = none) : Exact trx := by
  intro hSome
  rw [hTxn] at hSome
  cases hSome

theorem Blank.of_none (hDirty : trx.dirty = false) (hFts : trx.ftsMetaPending = []) (hTxn : trx.txn = none) :
    Blank trx :=
  ⟨hDirty, hFts, fun t ht => by rw [hTxn] at ht; cases ht⟩

theorem Blank.of_start {id : Nat} {snapshot : σ} (hDirty : trx.dirty = false) (hFts : trx.ftsMetaPending = [])
    (hTxn : trx.txn = some (.start id snapshot)) : Blank trx := by
  refine ⟨hDirty, hFts, fun t ht => ?_⟩
  rw [hTxn] at ht
  cases ht
  exact ⟨rfl, rfl⟩

theorem Marked.fts_eq_nil (h : Marked trx) (hDirty : trx.dirty = false) : trx.ftsMetaPending = [] := by
  apply Classical.byContradiction
  intro hFts
  rw [(h.fts hFts).1] at hDirty
  cases hDirty

theorem Marked.fts_eq_nil_of_none (h : Marked trx) (hTxn : trx.txn = none) : trx.ftsMetaPending = [] := by
  apply Classical.byContradiction
  intro hFts
  have hSome := (h.fts hFts).2.2
  rw [hTxn] at hSome
  cases hSome

theorem Marked.dirty_iff (h : Marked trx) (hExact : Exact trx) (hTxn : trx.txn.isSome = true) :
    trx.dirty = true ↔ Holding trx := by
  constructor
  · exact hExact hTxn
  · rintro (⟨t, ht, hOps⟩ | hFts)
    · exact h.ops t ht hOps
    · exact (h.fts hFts).1

theorem getOrCreate_spec {haData : Option (FtsTrx σ ω κ)} (id : Nat) (snapshot : σ) (a : Answers κ)
    (hMarked : ∀ trx, haData = some trx → Marked trx)
    (hDue : ∀ trx, haData = some trx → trx.txn.isSome = true → ResetDueOnly trx) :
    (getOrCreateTrx id snapshot a haData).haData = haData ∨
      ∃ trx', (getOrCreateTrx id snapshot a haData).haData = some trx' ∧ Blank trx' := by
  have hDone := getOrCreateTrx_opened id snapshot a haData
  generalize getOrCreateTrx id snapshot a haData = d at hDone ⊢
  cases hDone with
  | created => exact Or.inr ⟨_, rfl, .of_start rfl rfl rfl⟩
  | absent | refused trx hTxn | kept trx t hTxn hNeeds => exact Or.inl rfl
  | begun trx hTxn => exact Or.inr ⟨_, rfl, .of_start rfl ((hMarked trx rfl).fts_eq_nil_of_none hTxn) rfl⟩
  | renewed trx t id' call hTxn hNeeds hCall =>
    have hDirty := hDue trx rfl (by rw [hTxn]; rfl) hNeeds
    exact Or.inr ⟨_, rfl, .of_start hDirty ((hMarked trx rfl).fts_eq_nil hDirty) rfl⟩
  | lost trx t hTxn hNeeds hFail =>
    have hDirty := hDue trx rfl (by rw [hTxn]; rfl) hNeeds
    exact Or.inr ⟨_, rfl, .of_none hDirty ((hMarked trx rfl).fts_eq_nil hDirty) rfl⟩

theorem Marked.of_frame (h : Marked trx) (hDirty : trx'.dirty = trx.dirty)
    (hFts : trx'.ftsMetaPending = trx.ftsMetaPending) (hFtsDirty : trx'.ftsMetaDirty = trx.ftsMetaDirty)
    (hSome : trx'.txn.isSome = trx.txn.isSome)
    (hOps : ∀ t', trx'.txn = some t' → t'.ops ≠ [] → ∃ t, trx.txn = some t ∧ t.ops ≠ [])
    (hArmed : trx'.stmtSavepointActive = true → trx.stmtSavepointActive = true ∧
      trx'.stmtFtsSnapshot = trx.stmtFtsSnapshot ∧ trx'.stmtFtsDirtySnapshot = trx.stmtFtsDirtySnapshot ∧
      ∀ t', trx'.txn = some t' → (∃ c, (SavepointName.stmt, c) ∈ t'.savepoints) →
        ∃ t, trx.txn = some t ∧ ∃ c, (SavepointName.stmt, c) ∈ t.savepoints) : Marked trx' := by
  refine ⟨fun t' ht' hNe => ?_, fun hNe => ?_, fun hActive t' ht' hStmt hNe => ?_⟩
  · obtain ⟨t, ht, hNe⟩ := hOps t' ht' hNe
    rw [hDirty]
    exact h.ops t ht hNe
  · rw [hFts] at hNe
    rw [hDirty, hFtsDirty, hSome]
    exact h.fts hNe
  · obtain ⟨hActive, hSnapshot, hDirtySnapshot, hTxn⟩ := hArmed hActive
    obtain ⟨t, ht, hStmt⟩ := hTxn t' ht' hStmt
    rw [hSnapshot] at hNe
    rw [hDirty, hDirtySnapshot]
    exact h.armed hActive t ht hStmt hNe

theorem Exact.of_frame (h : Exact trx) (hDirty : trx'.dirty = trx.dirty)
    (hFts : trx'.ftsMetaPending = trx.ftsMetaPending) (hSome : trx'.txn.isSome = trx.txn.isSome)
    (hOps : ∀ t, trx.txn = some t → t.ops ≠ [] → ∃ t', trx'.txn = some t' ∧ t'.ops ≠ []) : Exact trx' := by
  intro hTxn hDirty'
  rw [hSome] at hTxn
  rw [hDirty] at hDirty'
  obtain ⟨t, ht, hNe⟩ | hNe := h hTxn hDirty'
  · exact Or.inl (hOps t ht hNe)
  · exact Or.inr (hFts ▸ hNe)

theorem arm_spec (releaseOk savepointOk : Bool) (h : Marked trx) (hExact : Exact trx)
    (hUnarmed : trx.stmtSavepointActive = false) :
    Marked (StmtSavepoint.stmtSavepointArm releaseOk savepointOk trx) ∧
      Exact (StmtSavepoint.stmtSavepointArm releaseOk savepointOk trx) := by
  obtain ⟨⟨txn, dirty, active, needsReset, gen⟩, pending, ftsDirty, fts, dirtySnapshot⟩ := trx
  cases txn with
  | none => exact ⟨h, hExact⟩
  | some t =>
    cases releaseOk <;> cases savepointOk
    all_goals
      refine ⟨⟨fun t' ht' hNe => ?_, fun hNe => h.fts hNe, fun hActive _ _ _ hNe => ?_⟩, hExact.of_frame rfl rfl rfl ?_⟩
      · cases ht'
        exact h.ops t rfl hNe
      · first
        | exact absurd (hUnarmed.symm.trans hActive) Bool.false_ne_true
        | exact ⟨(h.fts hNe).1, (h.fts hNe).2.1⟩
      · rintro t' ⟨⟩ hNe
        exact ⟨_, rfl, hNe⟩

theorem disarmed_spec (h : Marked trx) (hTxn : trx.txn = some t) (sps : List (SavepointName × Nat))
    (fts : List (FtsMetaDelta κ)) {trx' : FtsTrx σ ω κ}
    (hEq : trx' = { trx with
        txn := some { t with savepoints := sps }
        stmtSavepointActive := false
        stmtFtsSnapshot := fts }) : Marked trx' ∧ (Exact trx → Exact trx') := by
  have hSome : trx'.txn.isSome = trx.txn.isSome := by rw [hEq, hTxn]; rfl
  subst hEq
  refine ⟨h.of_frame rfl rfl rfl hSome ?_ nofun, fun hExact => hExact.of_frame rfl rfl hSome ?_⟩
  · rintro t' ⟨⟩ hNe
    exact ⟨t, hTxn, hNe⟩
  · intro t' ht' hNe
    cases hTxn.symm.trans ht'
    exact ⟨_, rfl, hNe⟩

theorem Blank.of_freed (h : Marked trx) (hFreed : Freed trx trx') : Blank trx' := by
  refine .of_none hFreed.dirty ?_ hFreed.txn
  obtain hNil | ⟨hDirty, hSame⟩ := hFreed.fts
  · exact hNil
  · exact hSame.trans (h.fts_eq_nil hDirty)

theorem Blank.of_ended (hEnded : Ended t trx') : Blank trx' := .of_start hEnded.dirty hEnded.fts hEnded.txn

section

variable (metaPut : FtsMetaDelta κ → ω)

theorem finalize_spec (a : Answers κ) (h : Marked trx) (hTxn : trx.txn = some t) :
    ∃ trx', (tdbFinalizeCommit metaPut a trx).haData = some trx' ∧ Blank trx' := by
  have hDone := tdbFinalizeCommit_finalized metaPut a hTxn
  generalize tdbFinalizeCommit metaPut a trx = d at hDone ⊢
  cases hDone with
  | flushFailed trx' t' hDirty hFts hFreed hSame => exact ⟨trx', rfl, .of_freed h hFreed⟩
  | committed trx' t' hDirty hOk hEnded hSame => exact ⟨trx', rfl, .of_ended hEnded⟩
  | refused trx' t' hDirty hOk hFreed hSame => exact ⟨trx', rfl, .of_freed h hFreed⟩
  | readOnly trx' t' hDirty hEnded hSame hOps => exact ⟨trx', rfl, .of_ended hEnded⟩

theorem commit_spec (all inTransaction : Bool) (a : Answers κ) (h : Marked trx) :
    ∃ trx', (tidesdbCommit metaPut all inTransaction a trx).haData = some trx' ∧ Marked trx' ∧
      (Exact trx → Exact trx') := by
  rw [tidesdbCommit]
  cases hTxn : trx.txn with
  | none => exact ⟨trx, rfl, h, id⟩
  | some t =>
    rw [if_neg (by simp)]
    split
    · obtain ⟨trx', hHaData, hBlank⟩ := finalize_spec metaPut a h hTxn
      exact ⟨trx', hHaData, hBlank.marked, fun _ => hBlank.exact⟩
    · obtain ⟨sps, fts, hEq⟩ := stmtSavepointDisarm_eq a.releaseOk hTxn
      exact ⟨_, rfl, disarmed_spec h hTxn sps fts hEq⟩

theorem prepare_spec (key : Key) (all isExternal : Bool) (a : Answers κ) (h : Marked trx) :
    ∃ trx', (tidesdbPrepare metaPut key all isExternal a trx).1.haData = some trx' ∧ Marked trx' ∧
      (Exact trx → Exact trx') := by
  cases hTxn : trx.txn with
  | none =>
    rw [tidesdbPrepare, hTxn]
    exact ⟨trx, rfl, h, id⟩
  | some t =>
    have hDone := tidesdbPrepare_afterPrepare metaPut key all isExternal a hTxn
    generalize tidesdbPrepare metaPut key all isExternal a trx = d at hDone ⊢
    cases hDone with
    | deferred hAll => exact ⟨trx, rfl, h, id⟩
    | readOnly sps fts hDirty hInternal => exact ⟨_, rfl, disarmed_spec h hTxn sps fts rfl⟩
    | flushFailed trx' t' hDirty hFreed hSame | refused trx' t' hFreed hSame hAll hVote hPuts =>
      have hBlank := Blank.of_freed h hFreed
      exact ⟨trx', rfl, hBlank.marked, fun _ => hBlank.exact⟩
    | detached trx' t' hFreed hSame hAll hExternal hFts hPuts =>
      have hBlank := Blank.of_freed h hFreed
      exact ⟨trx', rfl, hBlank.marked, fun _ => hBlank.exact⟩
    | prepared trx' t' hDirty hDirty' hTxn' hNeeds hUnarmed hFts hSame hInternal hPuts =>
      refine ⟨trx', rfl, ⟨fun _ _ _ => hDirty', fun hNe => absurd hFts hNe, fun hActive => ?_⟩, fun hExact _ _ => ?_⟩
      · exact absurd (hUnarmed.symm.trans hActive) Bool.false_ne_true
      · refine Or.inl ⟨_, hTxn', ?_⟩
        obtain ⟨t₀, ht₀, hNe⟩ | hNe := hExact (by rw [hTxn]; rfl) hDirty
        · cases hTxn.symm.trans ht₀
          exact fun hNil => hNe (prefix_nil.mp (hNil ▸ hSame.ops))
        · have hOps := hPuts (h.fts hNe).2.1
          exact fun hNil => hNe (map_eq_nil_iff.mp (append_eq_nil_iff.mp (hOps.symm.trans hNil)).2)

end

theorem mem_of_dropWhile {sps older : List (SavepointName × Nat)} {n m : SavepointName} {count : Nat}
    (h : sps.dropWhile (·.1 ≠ n) = (m, count) :: older) : (n, count) ∈ sps ∧ ∀ x ∈ older, x ∈ sps := by
  have hSuffix := dropWhile_suffix (l := sps) (fun x => decide (x.1 ≠ n))
  have hHead := head?_dropWhile_not (fun x => decide (x.1 ≠ n)) sps
  rw [h] at hSuffix hHead
  have hName : m = n := by simpa using hHead
  subst hName
  exact ⟨hSuffix.subset (mem_cons_self ..), fun x hx => hSuffix.subset (mem_cons_of_mem _ hx)⟩

theorem rollback_spec (all inTransaction : Bool) (a : Answers κ) (h : Marked trx)
    (hLeaves : a.rollbackToOk = true → (all || !inTransaction) = false → trx.stmtSavepointActive = true →
      trx.dirty = true → LeavesSome .stmt trx.stmtFtsSnapshot trx) :
    ∃ trx', (tidesdbRollback all inTransaction a trx).haData = some trx' ∧ Marked trx' ∧ Exact trx' := by
  cases hTxn : trx.txn with
  | none =>
    rw [tidesdbRollback, hTxn]
    exact ⟨trx, rfl, h, .of_none hTxn⟩
  | some t =>
    have hDone := tidesdbRollback_rolledBack all inTransaction a hTxn
    generalize tidesdbRollback all inTransaction a trx = d at hDone ⊢
    cases hDone with
    | full trx' hEnded =>
      have hBlank := Blank.of_ended hEnded
      exact ⟨trx', rfl, hBlank.marked, hBlank.exact⟩
    | statement m count older hStmt hOk hActive hDrop =>
      obtain ⟨hMem, _⟩ := mem_of_dropWhile hDrop
      refine ⟨_, rfl, ⟨?_, fun hNe => ?_, fun hArmed => absurd hArmed Bool.false_ne_true⟩, fun _ hDirty => ?_⟩
      · rintro t' ⟨⟩ hNe
        refine h.ops t hTxn fun hNil => hNe ?_
        rw [hNil, take_nil]
      · obtain ⟨hDirty, hDirtySnapshot⟩ := h.armed hActive t hTxn ⟨count, hMem⟩ hNe
        exact ⟨hDirty, hDirtySnapshot, rfl⟩
      · obtain hFts | hOps := hLeaves hOk hStmt hActive hDirty
        · exact Or.inr hFts
        · exact Or.inl ⟨_, rfl, hOps t hTxn m count older hDrop⟩

theorem deleteAllRows_spec (h : Marked trx) :
    ∃ trx', (deleteAllRows trx).haData = some trx' ∧ Marked trx' ∧ Exact trx' := by
  rw [deleteAllRows]
  cases hTxn : trx.txn with
  | none => exact ⟨trx, rfl, h, .of_none hTxn⟩
  | some t => exact ⟨_, rfl, (Blank.of_none rfl rfl rfl).marked, (Blank.of_none rfl rfl rfl).exact⟩

theorem releaseOwnTxn_spec (h : Marked trx) :
    ∃ trx', (tdbUdfReleaseOwnTxn trx).haData = some trx' ∧ Marked trx' ∧ Exact trx' := by
  rw [tdbUdfReleaseOwnTxn]
  cases hTxn : trx.txn with
  | none => exact ⟨trx, rfl, h, .of_none hTxn⟩
  | some t => exact ⟨_, rfl, (Blank.of_none rfl rfl rfl).marked, (Blank.of_none rfl rfl rfl).exact⟩

theorem bulk_spec (metaPut : FtsMetaDelta κ → ω) (id : Nat) (snapshot : σ) (a : Answers κ) (h : Marked trx)
    (hTxn : trx.txn = some t) :
    ∃ trx', (maybeBulkCommit metaPut id snapshot a trx).haData = some trx' ∧ Marked trx' ∧
      ((maybeBulkCommit metaPut id snapshot a trx).ok = true → Exact trx' ∧ trx'.txn.isSome = true) := by
  have hDone := maybeBulkCommit_afterBulk metaPut id snapshot a hTxn
  generalize maybeBulkCommit metaPut id snapshot a trx = d at hDone ⊢
  cases hDone with
  | flushFailed ws hFts =>
    refine ⟨_, rfl, ⟨fun _ _ _ => (h.fts hFts).1, fun hNe => absurd rfl hNe, ?_⟩, nofun⟩
    rintro hActive t' ⟨⟩ hStmt hNe
    exact h.armed hActive t hTxn hStmt hNe
  | refused trx' t' hSame hTxn' hDirty hNeeds hFts =>
    refine ⟨trx', rfl, ⟨fun t₀ ht₀ hNe => ?_, fun hNe => absurd hFts hNe, fun hActive t₀ ht₀ => ?_⟩, nofun⟩
    all_goals
      obtain hNone | ⟨hStart, hUnarmed⟩ := hTxn'
      · rw [hNone] at ht₀
        cases ht₀
    · rw [hStart] at ht₀
      cases ht₀
      exact absurd rfl hNe
    · exact absurd (hUnarmed.symm.trans hActive) Bool.false_ne_true
  | lost trx' t' hSame hTxn' hNeeds hFts =>
    refine ⟨trx', rfl, ⟨fun t₀ ht₀ => ?_, fun hNe => absurd hFts hNe, fun _ t₀ ht₀ => ?_⟩, nofun⟩
    all_goals
      rw [hTxn'] at ht₀
      cases ht₀
  | batch trx' t' id' call hSame hTxn' hId hCall hDirty hNeeds hFts =>
    have hBlank : Blank trx' := .of_start hDirty hFts hTxn'
    exact ⟨trx', rfl, hBlank.marked, fun _ => ⟨hBlank.exact, by rw [hTxn']; rfl⟩⟩

/-- Only the list of savepoints changes. -/
theorem resaved_spec (h : Marked trx) (hExact : Exact trx) (hTxn : trx.txn = some t)
    {sps : List (SavepointName × Nat)}
    (hSps : ∀ c, (SavepointName.stmt, c) ∈ sps → (SavepointName.stmt, c) ∈ t.savepoints) :
    Marked { trx with txn := some { t with savepoints := sps } } ∧
      Exact { trx with txn := some { t with savepoints := sps } } := by
  refine ⟨h.of_frame rfl rfl rfl (by rw [hTxn]; rfl) ?_ fun hActive => ⟨hActive, rfl, rfl, ?_⟩,
    hExact.of_frame rfl rfl (by rw [hTxn]; rfl) ?_⟩
  · rintro t' ⟨⟩ hNe
    exact ⟨t, hTxn, hNe⟩
  · rintro t' ⟨⟩ ⟨c, hMem⟩
    exact ⟨t, hTxn, c, hSps c hMem⟩
  · intro t' ht' hNe
    cases hTxn.symm.trans ht'
    exact ⟨_, rfl, hNe⟩

section

variable (slot : Nat) (a : Answers κ) (h : Marked trx) (hExact : Exact trx)
include h hExact

theorem savepointSet_spec : ∃ trx', (tidesdbSavepointSet slot a trx).haData = some trx' ∧ Marked trx' ∧ Exact trx' := by
  rw [tidesdbSavepointSet]
  split
  · obtain ⟨⟨txn, dirty, active, needsReset, gen⟩, pending, ftsDirty, fts, dirtySnapshot⟩ := trx
    cases txn with
    | none => exact ⟨_, rfl, h, hExact⟩
    | some t =>
      refine ⟨_, rfl, resaved_spec h hExact rfl fun c hMem => ?_⟩
      obtain hEq | hMem := mem_cons.mp hMem
      · cases hEq
      · exact hMem
  · exact ⟨trx, rfl, h, hExact⟩

theorem savepointRelease_spec :
    ∃ trx', (tidesdbSavepointRelease slot a trx).haData = some trx' ∧ Marked trx' ∧ Exact trx' := by
  rw [tidesdbSavepointRelease]
  split
  · obtain ⟨⟨txn, dirty, active, needsReset, gen⟩, pending, ftsDirty, fts, dirtySnapshot⟩ := trx
    cases txn with
    | none => exact ⟨_, rfl, h, hExact⟩
    | some t => exact ⟨_, rfl, resaved_spec h hExact rfl fun c hMem => mem_of_mem_eraseP hMem⟩
  · exact ⟨trx, rfl, h, hExact⟩

theorem savepointRollback_spec
    (hLeaves : a.rollbackToOk = true → trx.dirty = true → LeavesSome (.user slot) trx.ftsMetaPending trx) :
    ∃ trx', (tidesdbSavepointRollback slot a trx).haData = some trx' ∧ Marked trx' ∧ Exact trx' := by
  cases hTxn : trx.txn with
  | none =>
    rw [tidesdbSavepointRollback, hTxn]
    exact ⟨trx, rfl, h, hExact⟩
  | some t =>
    obtain hEq | ⟨m, count, older, sps, hOk, hDrop, hSps, hEq⟩ := tidesdbSavepointRollback_cases slot a hTxn
    all_goals rw [hEq]
    · exact ⟨trx, rfl, h, hExact⟩
    · obtain ⟨_, hOlder⟩ := mem_of_dropWhile hDrop
      refine ⟨_, rfl, h.of_frame rfl rfl rfl (by rw [hTxn]; rfl) ?_ fun hActive => ⟨hActive, rfl, rfl, ?_⟩,
        fun _ hDirty => ?_⟩
      · rintro t' ⟨⟩ hNe
        exact ⟨t, hTxn, fun hNil => hNe (by rw [hNil, take_nil])⟩
      · rintro t' ⟨⟩ ⟨c, hMem⟩
        exact ⟨t, hTxn, c, hOlder _ (hSps c hMem)⟩
      · obtain hFts | hSome := hLeaves hOk hDirty
        · exact Or.inr hFts
        · exact Or.inl ⟨_, rfl, hSome t hTxn m count older hDrop⟩

end

section Rows

variable [DecidableEq κ]

theorem accumulate_ne_nil (d : FtsMetaDelta κ) (pending : List (FtsMetaDelta κ)) :
    StmtSavepoint.accumulate d pending ≠ [] := by
  cases pending with
  | nil => exact cons_ne_nil _ _
  | cons e pending =>
    rw [StmtSavepoint.accumulate]
    split <;> exact cons_ne_nil _ _

theorem foldl_accumulate_ne_nil {deltas pending : List (FtsMetaDelta κ)} (h : deltas ≠ [] ∨ pending ≠ []) :
    deltas.foldl (fun pending d => StmtSavepoint.accumulate d pending) pending ≠ [] := by
  induction deltas generalizing pending with
  | nil => exact h.resolve_left fun hNil => hNil rfl
  | cons d deltas ih => exact ih (Or.inr (accumulate_ne_nil d pending))

theorem row_spec (ws : List ω) (deltas : List (FtsMetaDelta κ)) (h : Marked trx) (hTxn : trx.txn = some t)
    (hSome : ws ≠ [] ∨ deltas ≠ [] ∨ Holding trx) :
    Marked (StmtSavepoint.writeRow ws deltas trx) ∧ Exact (StmtSavepoint.writeRow ws deltas trx) ∧
      (StmtSavepoint.writeRow ws deltas trx).txn = some (t.write ws) := by
  rw [StmtSavepoint.writeRow, StmtSavepoint.foldl_trxFtsMetaAccumulate]
  have hTxn' : (Txn.writeRow ws trx.toTrx).txn = some (t.write ws) := by rw [Txn.writeRow, hTxn, map_some]
  refine ⟨⟨fun _ _ _ => rfl, fun hNe => ⟨rfl, ?_, by rw [hTxn']; rfl⟩, ?_⟩, fun _ _ => ?_, hTxn'⟩
  · dsimp only at hNe
    cases deltas with
    | nil => simp [(h.fts hNe).2.1]
    | cons d deltas => simp
  · intro hActive t' ht' hStmt hNe
    cases hTxn'.symm.trans ht'
    exact ⟨rfl, (h.armed hActive t hTxn hStmt hNe).2⟩
  · obtain hWs | hDeltas | ⟨t₀, ht₀, hNe⟩ | hFts := hSome
    · exact Or.inl ⟨_, hTxn', fun hNil => hWs (append_eq_nil_iff.mp hNil).2⟩
    · exact Or.inr (foldl_accumulate_ne_nil (Or.inl hDeltas))
    · cases hTxn.symm.trans ht₀
      exact Or.inl ⟨_, hTxn', fun hNil => hNe (append_eq_nil_iff.mp hNil).1⟩
    · exact Or.inr (foldl_accumulate_ne_nil (Or.inr hFts))

end Rows

end Trx

structure Inv (s : Conn σ ω κ) : Prop where
  marked : ∀ trx, s.haData = some trx → Marked trx
  exact : s.stage ≠ .failed → ∀ trx, s.haData = some trx → Exact trx
  running : s.stage = .running → ∃ trx t, s.haData = some trx ∧ trx.txn = some t

theorem Inv.init : Inv (Conn.init : Conn σ ω κ) := ⟨nofun, fun _ => nofun, nofun⟩

theorem Inv.of_between {f : FtsTrx σ ω κ → Done σ ω κ} {haData : Option (FtsTrx σ ω κ)}
    (h : ∀ trx, haData = some trx → ∃ trx', (f trx).haData = some trx' ∧ Marked trx' ∧ Exact trx') :
    Inv ⟨(onTrx f haData).haData, .between⟩ := by
  cases haData with
  | none => exact ⟨nofun, fun _ => nofun, fun hRun => absurd hRun between_ne_running⟩
  | some trx =>
    obtain ⟨trx', hSome, hMarked, hExact⟩ := h trx rfl
    refine ⟨fun trx₀ h₀ => ?_, fun _ trx₀ h₀ => ?_, fun hRun => absurd hRun between_ne_running⟩
    all_goals
      cases hSome.symm.trans h₀
    · exact hMarked
    · exact hExact

section Step

theorem prepare_ne_rollbackStateful (key : Key) (t t' : LibTxn σ ω) (ok : Bool) :
    LibCall.prepare key t ok ≠ tdbTxnRollbackStateful t' := by
  rw [tdbTxnRollbackStateful]
  split <;> exact nofun

theorem prepare_ne_commitStateful (key : Key) (t t' : LibTxn σ ω) (ok ok' : Bool) :
    LibCall.prepare key t ok ≠ tdbTxnCommitStateful ok' t' := by
  rw [tdbTxnCommitStateful]
  split <;> exact nofun

theorem rollback_ne_commitStateful (t t' : LibTxn σ ω) (ok : Bool) :
    LibCall.rollback t ≠ tdbTxnCommitStateful ok t' := by
  rw [tdbTxnCommitStateful]
  split <;> exact nofun

variable {s s' : Conn σ ω κ}

section

variable (h : Inv s) (hStage : s.stage ≠ .failed) (id : Nat) (snapshot : σ)
include h hStage

theorem Inv.openTrx (a : Answers κ) (hDue : ∀ trx, s.haData = some trx → trx.txn.isSome = true → ResetDueOnly trx) :
    ∀ trx, (getOrCreateTrx id snapshot a s.haData).haData = some trx → Marked trx ∧ Exact trx := by
  intro trx hTrx
  obtain hSame | ⟨trx', hSome, hBlank⟩ := getOrCreate_spec id snapshot a h.marked hDue
  · rw [hSame] at hTrx
    exact ⟨h.marked trx hTrx, h.exact hStage trx hTrx⟩
  · cases hSome.symm.trans hTrx
    exact ⟨hBlank.marked, hBlank.exact⟩

theorem Inv.lock (isAutocommit isDdl : Bool) (a : Answers κ)
    (hDue : ∀ trx, s.haData = some trx → trx.txn.isSome = true → ResetDueOnly trx) :
    ∀ trx, (externalLockAcquire id snapshot isAutocommit isDdl a s.haData).haData = some trx →
      Marked trx ∧ Exact trx := by
  have hOpen := h.openTrx hStage id snapshot a hDue
  intro trx hTrx
  obtain hEq | ⟨trx₁, t, hTrx₁, _, hUnarmed, hEq⟩ := externalLockAcquire_cases id snapshot isAutocommit isDdl a s.haData
  · rw [hEq] at hTrx
    exact hOpen trx hTrx
  · rw [hEq] at hTrx
    cases hTrx
    obtain ⟨hMarked, hExact⟩ := hOpen trx₁ hTrx₁
    exact arm_spec _ _ hMarked hExact hUnarmed

end

theorem Inv.of_open {d : Done σ ω κ} (hOk : d.ok = true → ∃ trx t, d.haData = some trx ∧ trx.txn = some t)
    (h : ∀ trx, d.haData = some trx → Marked trx ∧ Exact trx) (stage : Stage) :
    Inv (⟨d.haData, if d.ok then .running else if stage = .between then .between else .failed⟩ : Conn σ ω κ) := by
  refine ⟨fun trx hTrx => (h trx hTrx).1, fun _ trx hTrx => (h trx hTrx).2, fun hRun => hOk ?_⟩
  cases hEq : d.ok with
  | true => rfl
  | false =>
    simp only [hEq, Bool.false_eq_true, if_false] at hRun
    split at hRun <;> cases hRun

theorem Inv.ddl [DecidableEq κ] (h : Inv s) (hStage : s.stage ≠ .failed) (id : Nat) (snapshot : σ) (a : Answers κ)
    (ws : List ω) (hDue : ∀ trx, s.haData = some trx → trx.txn.isSome = true → ResetDueOnly trx)
    (hSome : ws ≠ [] ∨ ∃ trx, s.haData = some trx ∧ trx.needsReset = false ∧ Holding trx) :
    ∀ trx, (tdbStmtTxnForDdl id snapshot a ws s.haData).haData = some trx → Marked trx ∧ Exact trx := by
  have hOpen := h.openTrx hStage id snapshot a hDue
  intro trx hTrx
  rw [tdbStmtTxnForDdl] at hTrx
  split at hTrx
  · rename_i hOk
    obtain ⟨trx₁, t, hTrx₁, hTxn⟩ := getOrCreateTrx_ok hOk
    obtain ⟨hMarked, _⟩ := hOpen trx₁ hTrx₁
    have hSome' : ws ≠ [] ∨ Holding trx₁ := by
      obtain hWs | ⟨trx₀, hTrx₀, hNeeds, hHold⟩ := hSome
      · exact Or.inl hWs
      · refine Or.inr ?_
        rw [hTrx₀, getOrCreateTrx] at hTrx₁
        cases hTxn₀ : trx₀.txn with
        | some t₀ =>
          simp only [hTxn₀, hNeeds, Bool.false_eq_true, if_false, some.injEq] at hTrx₁
          exact hTrx₁ ▸ hHold
        | none =>
          obtain ⟨t₀, ht₀, _⟩ | hFts := hHold
          · rw [hTxn₀] at ht₀
            cases ht₀
          · exact absurd ((h.marked trx₀ hTrx₀).fts_eq_nil_of_none hTxn₀) hFts
    obtain ⟨hMarked', hExact', _⟩ := row_spec ws [] hMarked hTxn (hSome'.imp_right Or.inr)
    simp only [hTrx₁, map_some, some.injEq] at hTrx
    exact hTrx ▸ ⟨hMarked', hExact'⟩
  · exact hOpen trx hTrx

theorem batch_ne_nil {metaPut : FtsMetaDelta κ → ω} {trx : FtsTrx σ ω κ} {t t' : LibTxn σ ω} (h : Marked trx)
    (hHold : Holding trx)
    (hTxn : trx.txn = some t) (hSame : Extends t t')
    (hPuts : trx.dirty = true → trx.ftsMetaDirty = true → t'.ops = t.ops ++ trx.ftsMetaPending.map metaPut) :
    t'.ops ≠ [] := by
  obtain ⟨t₀, ht₀, hNe⟩ | hNe := hHold
  · cases hTxn.symm.trans ht₀
    exact fun hNil => hNe (prefix_nil.mp (hNil ▸ hSame.ops))
  · have hOps := hPuts (h.fts hNe).1 (h.fts hNe).2.1
    exact fun hNil => hNe (map_eq_nil_iff.mp (append_eq_nil_iff.mp (hOps.symm.trans hNil)).2)

structure Sound (d : Done σ ω κ) : Prop where
  batch : ∀ key t ok, LibCall.prepare key t ok ∈ d.calls → t.ops ≠ []
  kept : d.ok = true → ∀ t, LibCall.rollback t ∈ d.calls → t.ops = []

theorem Sound.of_silent {d : Done σ ω κ} (h : d.calls = []) : Sound d := by
  refine ⟨fun key t ok hMem => ?_, fun _ t hMem => ?_⟩
  all_goals
    rw [h] at hMem
    cases hMem

theorem Sound.of_failed {d : Done σ ω κ} (hOk : d.ok = false)
    (h : ∀ key t ok, LibCall.prepare key t ok ∈ d.calls → t.ops ≠ []) : Sound d := by
  refine ⟨h, fun hDone => ?_⟩
  rw [hOk] at hDone
  cases hDone

variable [DecidableEq κ] {metaPut : FtsMetaDelta κ → ω}

def after (metaPut : FtsMetaDelta κ → ω) (s : Conn σ ω κ) (x : Action σ ω κ) : Conn σ ω κ :=
  ⟨(done metaPut s x).haData, nextStage s.stage (done metaPut s x).ok x.call⟩

theorem step_eq_some {x : Action σ ω κ} (h : step metaPut s x = some s') :
    allowed s x.call = true ∧ s' = after metaPut s x := by
  obtain ⟨⟨conn, calls⟩, hConn, rfl⟩ := map_eq_some_iff.mp h
  obtain ⟨hAllowed, rfl, _⟩ := Conn.step_eq_some hConn
  exact ⟨hAllowed, rfl⟩

omit [DecidableEq κ] in
theorem stage_of_open (h : (decide (s.stage ≠ .failed) && !s.prepared) = true) : s.stage ≠ .failed := by
  simp only [Bool.and_eq_true, decide_eq_true_eq] at h
  exact h.1

section

variable {id : Nat} {snapshot : σ} {a : Answers κ} (h : Inv s)
include h

omit [DecidableEq κ] in
theorem Inv.exact_of_between {trx : FtsTrx σ ω κ} (hAllowed : (decide (s.stage = .between) && !s.prepared) = true)
    (hTrx : s.haData = some trx) : Exact trx := by
  simp only [Bool.and_eq_true, decide_eq_true_eq] at hAllowed
  exact h.exact (hAllowed.1 ▸ between_ne_failed) trx hTrx

theorem Inv.row {ws : List ω} {deltas : List (FtsMetaDelta κ)} (hAllowed : allowed s (.row ws deltas) = true)
    (hMeets : Meets s ⟨id, snapshot, a, .row ws deltas⟩) : Inv (after metaPut s ⟨id, snapshot, a, .row ws deltas⟩) := by
  simp only [allowed, Bool.and_eq_true, decide_eq_true_eq] at hAllowed
  obtain ⟨trx, t, hTrx, hTxn⟩ := h.running hAllowed.1
  have hSome : ws ≠ [] ∨ deltas ≠ [] ∨ Holding trx := hMeets.imp_right fun hMeets => hMeets.imp_right fun hAll =>
    hAll trx hTrx
  obtain ⟨hMarked, hExact, hTxn'⟩ := row_spec ws deltas (h.marked trx hTrx) hTxn hSome
  rw [after, done, hTrx]
  exact ⟨fun _ hEq => some.inj hEq ▸ hMarked, fun _ _ hEq => some.inj hEq ▸ hExact, fun _ => ⟨_, _, rfl, hTxn'⟩⟩

theorem Inv.bulkCommit (hAllowed : allowed s (Call.bulkCommit : Call ω κ) = true) :
    Inv (after metaPut s ⟨id, snapshot, a, .bulkCommit⟩) := by
  simp only [allowed, Bool.and_eq_true, decide_eq_true_eq] at hAllowed
  obtain ⟨trx, t, hTrx, hTxn⟩ := h.running hAllowed.1.1
  obtain ⟨trx', hTrx', hMarked, hOk⟩ := bulk_spec metaPut id snapshot a (h.marked trx hTrx) hTxn
  rw [after, done, hTrx]
  dsimp only [perform, onTrx, nextStage]
  generalize maybeBulkCommit metaPut id snapshot a trx = d at hTrx' hOk ⊢
  rw [hTrx']
  refine ⟨fun _ hEq => some.inj hEq ▸ hMarked, fun hStage _ hEq => ?_, fun hRun => ?_⟩
  · cases hDone : d.ok with
    | false => simp [hDone] at hStage
    | true => exact some.inj hEq ▸ (hOk hDone).1
  · cases hDone : d.ok with
    | false => simp [hDone] at hRun
    | true =>
      obtain ⟨t', hTxn'⟩ := isSome_iff_exists.mp (hOk hDone).2
      exact ⟨trx', t', rfl, hTxn'⟩

theorem Inv.prepare {key : Key} {all isExternal : Bool}
    (hAllowed : allowed s (.prepare key all isExternal : Call ω κ) = true) :
    Inv (after metaPut s ⟨id, snapshot, a, .prepare key all isExternal⟩) := by
  cases all with
  | false =>
    have hSame : (done metaPut s ⟨id, snapshot, a, .prepare key false isExternal⟩).haData = s.haData := by
      rw [done]
      cases s.haData with
      | none => rfl
      | some trx => simp [perform, onTrx, tidesdbPrepare]
    rw [after, hSame]
    exact ⟨h.marked, h.exact, h.running⟩
  | true =>
    simp only [allowed, if_true, Bool.and_eq_true, decide_eq_true_eq] at hAllowed
    rw [after, nextStage, hAllowed.1]
    refine .of_between fun trx hTrx => ?_
    obtain ⟨trx', hTrx', hMarked, hExact⟩ := prepare_spec metaPut key true isExternal a (h.marked trx hTrx)
    exact ⟨trx', hTrx', hMarked, hExact (h.exact (hAllowed.1 ▸ between_ne_failed) trx hTrx)⟩

theorem Inv.commit {all inTransaction : Bool} (hAllowed : allowed s (.commit all inTransaction : Call ω κ) = true) :
    Inv (after metaPut s ⟨id, snapshot, a, .commit all inTransaction⟩) := by
  simp only [allowed, decide_eq_true_eq] at hAllowed
  refine .of_between fun trx hTrx => ?_
  obtain ⟨trx', hTrx', hMarked, hExact⟩ := commit_spec metaPut all inTransaction a (h.marked trx hTrx)
  exact ⟨trx', hTrx', hMarked, hExact (h.exact hAllowed trx hTrx)⟩

omit h in
theorem Inv.close : Inv (after metaPut s ⟨id, snapshot, a, .close⟩) := by
  have hNone : (done metaPut s ⟨id, snapshot, a, .close⟩).haData = none := by
    rw [done]
    cases s.haData with
    | none => rfl
    | some trx =>
      dsimp only [perform, onTrx, tidesdbCloseConnection]
      split <;> rfl
  rw [after, hNone]
  exact ⟨nofun, fun _ => nofun, fun hRun => absurd hRun between_ne_running⟩

end

theorem step_inv {x : Action σ ω κ} (h : Inv s) (hMeets : Meets s x) (hStep : step metaPut s x = some s') : Inv s' := by
  obtain ⟨hAllowed, rfl⟩ := step_eq_some hStep
  obtain ⟨id, snapshot, a, c⟩ := x
  cases c with
  | lock isAutocommit isDdl =>
    have hStage := stage_of_open hAllowed
    exact .of_open externalLockAcquire_ok (h.lock hStage id snapshot isAutocommit isDdl a hMeets) s.stage
  | openTrx => exact .of_open getOrCreateTrx_ok (h.openTrx (stage_of_open hAllowed) id snapshot a hMeets) s.stage
  | ddl ws =>
    have hStage := stage_of_open hAllowed
    exact .of_open tdbStmtTxnForDdl_ok (h.ddl hStage id snapshot a ws hMeets.1 hMeets.2) s.stage
  | row ws deltas => exact h.row hAllowed hMeets
  | bulkCommit => exact h.bulkCommit hAllowed
  | savepointSet slot =>
    exact .of_between fun trx hTrx =>
      savepointSet_spec slot a (h.marked trx hTrx) (h.exact_of_between hAllowed hTrx)
  | savepointRollback slot =>
    exact .of_between fun trx hTrx =>
      savepointRollback_spec slot a (h.marked trx hTrx) (h.exact_of_between hAllowed hTrx) fun hOk =>
        hMeets hOk trx hTrx
  | savepointRelease slot =>
    exact .of_between fun trx hTrx =>
      savepointRelease_spec slot a (h.marked trx hTrx) (h.exact_of_between hAllowed hTrx)
  | prepare key all isExternal => exact h.prepare hAllowed
  | commit all inTransaction => exact h.commit hAllowed
  | rollback all inTransaction =>
    exact .of_between fun trx hTrx =>
      rollback_spec all inTransaction a (h.marked trx hTrx) fun hOk hReal => hMeets hOk hReal trx hTrx
  | deleteAllRows => exact .of_between fun trx hTrx => deleteAllRows_spec (h.marked trx hTrx)
  | releaseOwnTxn => exact .of_between fun trx hTrx => releaseOwnTxn_spec (h.marked trx hTrx)
  | close => exact .close

section

variable (h : Inv s) (hStage : s.stage ≠ .failed) (id : Nat) (snapshot : σ) (a : Answers κ)
include h hStage

omit [DecidableEq κ] in
theorem Inv.flag : ∀ trx, s.haData = some trx → trx.txn.isSome = true → (trx.dirty = true ↔ Holding trx) :=
  fun trx hTrx => (h.marked trx hTrx).dirty_iff (h.exact hStage trx hTrx)

theorem faithful_prepare (key : Key) (all isExternal : Bool)
    (hMeets : (all && isExternal) = true → ∀ trx, s.haData = some trx → trx.txn.isSome = true → Holding trx) :
    Faithful metaPut s ⟨id, snapshot, a, .prepare key all isExternal⟩ := by
  have hFlag := h.flag hStage
  suffices hSound :
    Sound (done metaPut s ⟨id, snapshot, a, .prepare key all isExternal⟩) from ⟨hFlag, hSound.batch, hSound.kept⟩
  rw [done, perform]
  cases hTrx : s.haData with
  | none => exact .of_silent rfl
  | some trx =>
    rw [onTrx]
    cases hTxn : trx.txn with
    | none =>
      rw [tidesdbPrepare, hTxn]
      exact .of_silent rfl
    | some t =>
      have hMarked := h.marked trx hTrx
      have hSome : trx.txn.isSome = true := by rw [hTxn]; rfl
      have hDone := tidesdbPrepare_afterPrepare metaPut key all isExternal a hTxn
      generalize tidesdbPrepare metaPut key all isExternal a trx = d at hDone ⊢
      cases hDone with
      | deferred hAll | readOnly sps fts hDirty hInternal => exact .of_silent rfl
      | flushFailed trx' t' hDirty hFreed hSame =>
        refine .of_failed rfl fun key' t₀ ok hMem => ?_
        simp [prepare_ne_rollbackStateful] at hMem
      | refused trx' t' hFreed hSame hAll hVote hPuts =>
        have hHold : Holding trx := by
          cases isExternal with
          | false => exact (hFlag trx hTrx hSome).mp (by simpa using hVote)
          | true => exact hMeets (by rw [hAll]; rfl) trx hTrx hSome
        refine .of_failed rfl fun key' t₀ ok hMem => ?_
        simp only [mem_cons, prepare_ne_rollbackStateful, not_mem_nil, or_false, reduceCtorEq,
          LibCall.prepare.injEq] at hMem
        exact hMem.2.1 ▸ batch_ne_nil hMarked hHold hTxn hSame hPuts
      | detached trx' t' hFreed hSame hAll hExternal hFts hPuts =>
        have hHold := hMeets (by rw [hAll, hExternal]; rfl) trx hTrx hSome
        refine ⟨fun key' t₀ ok hMem => ?_, fun _ t₀ hMem => ?_⟩
        · cases mem_singleton.mp hMem
          exact batch_ne_nil hMarked hHold hTxn hSame hPuts
        · cases mem_singleton.mp hMem
      | prepared trx' t' hDirty hDirty' hTxn' hNeeds hUnarmed hFts hSame hInternal hPuts =>
        have hHold := (hFlag trx hTrx hSome).mp hDirty
        refine ⟨fun key' t₀ ok hMem => ?_, fun _ t₀ hMem => ?_⟩
        · cases mem_singleton.mp hMem
          exact batch_ne_nil hMarked hHold hTxn hSame fun _ => hPuts
        · cases mem_singleton.mp hMem

theorem faithful_commit (all inTransaction : Bool) :
    Faithful metaPut s ⟨id, snapshot, a, .commit all inTransaction⟩ := by
  have hFlag := h.flag hStage
  suffices hSound :
    Sound (done metaPut s ⟨id, snapshot, a, .commit all inTransaction⟩) from ⟨hFlag, hSound.batch, hSound.kept⟩
  rw [done, perform]
  cases hTrx : s.haData with
  | none => exact .of_silent rfl
  | some trx =>
    rw [onTrx, tidesdbCommit]
    cases hTxn : trx.txn with
    | none => exact .of_silent rfl
    | some t =>
      rw [if_neg (by simp)]
      split
      · have hDone := tdbFinalizeCommit_finalized metaPut a hTxn
        generalize tdbFinalizeCommit metaPut a trx = d at hDone ⊢
        cases hDone with
        | flushFailed trx' t' hDirty hFts hFreed hSame => exact .of_failed rfl fun _ _ _ hMem => by simp at hMem
        | committed trx' t' hDirty hOk hEnded hSame =>
          refine ⟨fun key t₀ ok hMem => ?_, fun _ t₀ hMem => ?_⟩
          · exact absurd (mem_singleton.mp hMem) (prepare_ne_commitStateful key t₀ t' ok true)
          · exact absurd (mem_singleton.mp hMem) (rollback_ne_commitStateful t₀ t' true)
        | refused trx' t' hDirty hOk hFreed hSame =>
          refine .of_failed rfl fun key t₀ ok hMem => ?_
          simp [prepare_ne_rollbackStateful, prepare_ne_commitStateful] at hMem
        | readOnly trx' t' hDirty hEnded hSame hOps =>
          refine ⟨fun key t₀ ok hMem => by simp at hMem, fun _ t₀ hMem => ?_⟩
          cases mem_singleton.mp hMem
          apply Classical.byContradiction
          intro hNe
          have hDirty' := (hFlag trx hTrx (by rw [hTxn]; rfl)).mpr (Or.inl ⟨t, hTxn, hOps ▸ hNe⟩)
          rw [hDirty] at hDirty'
          cases hDirty'
      · exact .of_silent rfl

end

end Step

/-- In every run whose steps all meet the condition, the flag serves each `prepare` and `commit`. -/
theorem faithful_of_meets [DecidableEq κ] (metaPut : FtsMetaDelta κ → ω) {s s' : Conn σ ω κ} {x : Action σ ω κ}
    (hReach : Reach (step metaPut) Meets Conn.init s) (hDecides : Decides x.call = true) (hMeets : Meets s x)
    (hStep : step metaPut s x = some s') : Faithful metaPut s x := by
  have hInv : Inv s := hReach.invariant Inv .init fun _ _ _ => step_inv
  obtain ⟨hAllowed, _⟩ := step_eq_some hStep
  obtain ⟨id, snapshot, a, c⟩ := x
  cases c with
  | prepare key all isExternal =>
    refine faithful_prepare hInv ?_ id snapshot a key all isExternal hMeets
    cases all with
    | false =>
      simp only [allowed, Bool.false_eq_true, if_false, Bool.and_eq_true, decide_eq_true_eq] at hAllowed
      exact hAllowed.1
    | true =>
      simp only [allowed, if_true, Bool.and_eq_true, decide_eq_true_eq] at hAllowed
      rw [hAllowed.1]
      exact between_ne_failed
  | commit all inTransaction =>
    simp only [allowed, decide_eq_true_eq] at hAllowed
    exact faithful_commit hInv hAllowed id snapshot a all inTransaction
  | _ => cases hDecides

def begun : Action Unit Nat Unit := ⟨1, (), .fine, .lock false false⟩

def finished : Action Unit Nat Unit := ⟨1, (), .fine, .commit false true⟩

def voting : Action Unit Nat Unit := ⟨1, (), .fine, .prepare [] true false⟩

def marked (ops : List Nat) : FtsTrx Unit Nat Unit :=
  { (newTrx 1 () : FtsTrx Unit Nat Unit) with txn := some { (LibTxn.start 1 () : LibTxn Unit Nat) with ops }, dirty :=
    true }

theorem faithful_after_insert : Faithful (fun _ => 0) (⟨some (marked [7]), .between⟩ : Conn Unit Nat Unit) voting := by
  have hReach : Reach (step fun _ => 0) Meets (Conn.init : Conn Unit Nat Unit) ⟨some (marked [7]), .between⟩ := by
    refine .step finished (.step ⟨1, (), .fine, .row [7] []⟩ (.step begun .init nofun rfl) ?_ rfl) trivial rfl
    exact Or.inl (cons_ne_nil _ _)
  exact faithful_of_meets (fun _ => 0) hReach rfl nofun rfl

/-- INSERT IGNORE of a duplicate key, and then the commit of the transaction under the binary log. -/
theorem not_faithful_after_ignored_duplicate :
    ¬ ∀ s : Conn Unit Nat Unit, Reach (step fun _ => 0) (fun _ _ => True) Conn.init s →
      ∀ x s', Decides x.call = true → step (fun _ => 0) s x = some s' → Faithful (fun _ => 0) s x := by
  intro hAll
  have hReach :
    Reach (step fun _ => 0) (fun _ _ => True) (Conn.init : Conn Unit Nat Unit) ⟨some (marked []), .between⟩ :=
    .step finished (.step ⟨1, (), .fine, .row [] []⟩ (.step begun .init trivial rfl) trivial rfl) trivial rfl
  have hBatch := (hAll _ hReach voting _ rfl rfl).batch [] _ true (mem_singleton.mpr rfl)
  exact hBatch rfl

end TideSql.DirtyFlag
