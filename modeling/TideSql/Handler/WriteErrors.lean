import TideSql.Lib.Issue
import TideSql.Handler.IndexRuns

/-!
# Row calls whose puts and deletes may fail

A row call makes one library call for each put and delete, in the order of the indexes, and a failed call
buffers nothing.
-/

namespace TideSql.WriteErrors
open Dml KeyCodec SortKey Lib Lib.Bytes Lib.Snapshot Lib.Program Lib.Issue List

inductive TdbRc where
  | success
  | conflict
  | txnAborted
  | txnExpired
  | locked
  | memoryLimit
  | memory
  | notFound
  | alreadyExists
  | readonly
  | io
  | corruption
  | tooLarge
  | invalidDb
  | invalidArgs
  | unknown
  | other (rc : Nat)
  deriving DecidableEq, Repr

inductive HaErr where
  | lockDeadlock
  | lockWaitTimeout
  | outOfMem
  | keyNotFound
  | foundDuppKey
  | readOnlyTransaction
  | crashed
  | toBigRow
  | internalError
  | generic
  | noReferencedRow
  deriving DecidableEq, Repr

def tdbRcToHa : TdbRc → Option HaErr
  | .success => none
  | .conflict | .txnAborted | .unknown => some .lockDeadlock
  | .txnExpired | .locked | .memoryLimit => some .lockWaitTimeout
  | .memory => some .outOfMem
  | .notFound => some .keyNotFound
  | .alreadyExists => some .foundDuppKey
  | .readonly => some .readOnlyTransaction
  | .io | .corruption => some .crashed
  | .tooLarge => some .toBigRow
  | .invalidDb | .invalidArgs => some .internalError
  | .other _ => some .generic

theorem tdbRcToHa_ne_none {rc : TdbRc} (h : rc ≠ .success) : tdbRcToHa rc ≠ none := by
  cases rc with
  | success => exact absurd rfl h
  | _ => exact Option.some_ne_none _

def tidesdbBulkDeleteDeferCap : Nat := 262144

structure Deferral where
  defer : Bool
  keys : List Bytes

inductive RowCall (τ ι : Type) where
  | write (t : τ) (s : Session) (view : Store Key (Val ι)) (fkCheckChild : Option HaErr) (pkAutoGenerated : Bool)
    (rowId : Nat) (buf : Row ι)
  | update (t : τ) (s : Session) (view : Store Key (Val ι)) (fkCheckChild : Option HaErr)
    (nested : List (RowCall τ ι)) (currentPk : Bytes) (oldData newData : Row ι) (writeSet : ι → Bool)
  | delete (t : τ) (nested : List (RowCall τ ι)) (d : Deferral) (currentPk : Bytes) (buf : Row ι)

abbrev Call (τ ι : Type) := Op (τ × Key) (Val ι)

abbrev M (τ ι α : Type) := Prog (Call τ ι) (fun _ => TdbRc) α

section Model

variable {τ ι β : Type}

def inTable (t : τ) : Op Key (Val ι) → Call τ ι
  | .put k v => .put (t, k) v
  | .del k => .del (t, k)

def inIndex (t : τ) (i : Nat) (ops : List (Op Bytes (Val ι))) : List (Call τ ι) := (ops.map (tag i)).map (inTable t)

def maintainIndexes (T : Table ι β) (f : Nat → IndexShape ι → M τ ι TdbRc) : M τ ι TdbRc :=
  walkRc .success (fun x => f x.2 x.1) T.indexes.zipIdx

def writeMaintainIndexes (T : Table ι β) (t : τ) (pk : Bytes) (buf : Row ι) : M τ ι TdbRc :=
  maintainIndexes T fun i shape => checkAll .success (inIndex t i (writeIndex T pk buf shape))

def deleteMaintainIndexes (T : Table ι β) (t : τ) (currentPk : Bytes) (buf : Row ι) : M τ ι TdbRc :=
  maintainIndexes T fun i shape =>
    match shape with
    | .regular _ parts => checkAll .success (inIndex t i [.del (secIdxKey T parts currentPk buf)])
    | .fulltext cols tokenize =>
      ignoreAll .success (inIndex t i ((tfMap (ftsExtractAndTokenize cols tokenize buf)).map (delFtsEntry currentPk)))
    | .spatial col => ignoreAll .success (inIndex t i (delSpatialEntry T col currentPk buf))

def updateFtsIndexDiff (t : τ) (i : Nat) (u : Update ι) (oldTf newTf : List (Bytes × UInt16)) (newWc : UInt32)
    (docLenChanged : Bool) : M τ ι TdbRc := do
  let _ ← ignoreAll .success (inIndex t i
    ((oldTf.filter fun kv => (newTf.find? fun new => new.1 = kv.1).isNone).map (delFtsEntry u.oldPk)))
  checkAll .success (inIndex t i ((newTf.filter fun kv =>
    match oldTf.find? fun old => old.1 = kv.1 with
    | none => true
    | some old => docLenChanged || old.2 ≠ kv.2).map (putFtsEntry u.newPk newWc)))

def updateFtsIndex (t : τ) (i : Nat) (u : Update ι) (cols : List ι) (tokenize : Bytes → List Bytes) : M τ ι TdbRc :=
  if cols.any u.writeSet then
    let oldTokens := ftsExtractAndTokenize cols tokenize u.oldData
    let newTokens := ftsExtractAndTokenize cols tokenize u.newData
    let oldTf := tfMap oldTokens
    let newTf := tfMap newTokens
    let oldWc := UInt32.ofNat oldTokens.length
    let newWc := UInt32.ofNat newTokens.length
    if u.pkChanged then do
      let _ ← ignoreAll .success (inIndex t i (oldTf.map (delFtsEntry u.oldPk)))
      checkAll .success (inIndex t i (newTf.map (putFtsEntry u.newPk newWc)))
    else updateFtsIndexDiff t i u oldTf newTf newWc (oldWc ≠ newWc)
  else pure .success

def updateSpatialIndex (T : Table ι β) (t : τ) (i : Nat) (u : Update ι) (col : ι) : M τ ι TdbRc :=
  if u.writeSet col then do
    let _ ← ignoreAll .success (inIndex t i (delSpatialEntry T col u.oldPk u.oldData))
    checkAll .success (inIndex t i (putSpatialEntry T col u.newPk u.newData))
  else pure .success

def updateMaintainIndexes (T : Table ι β) (t : τ) (u : Update ι) : M τ ι TdbRc :=
  maintainIndexes T fun i shape =>
    match shape with
    | .regular _ parts => checkAll .success (inIndex t i (updateRegularIndex T u parts))
    | .fulltext cols tokenize => updateFtsIndex t i u cols tokenize
    | .spatial col => updateSpatialIndex T t i u col

def updateRewritePrimary (t : τ) (u : Update ι) : M τ ι TdbRc :=
  checkAll .success ((Dml.updateRewritePrimary u).map (inTable t))

def dataTombstones (d : Deferral) (currentPk : Bytes) : List (Op Key (Val ι)) :=
  if d.defer then
    let keys := d.keys ++ [currentPk]
    if tidesdbBulkDeleteDeferCap ≤ keys.length then keys.map fun pk => .del (dataKey pk) else []
  else [.del (dataKey currentPk)]

def orReturn (p : M τ ι TdbRc) (next : M τ ι (Option HaErr)) : M τ ι (Option HaErr) :=
  p.bind fun rc => if rc = .success then next else .ret (tdbRcToHa rc)

def orFail (p next : M τ ι (Option HaErr)) : M τ ι (Option HaErr) :=
  p.bind fun err => if err = none then next else .ret err

def writeChecks (T : Table ι β) (s : Session) (view : Store Key (Val ι)) (fkCheckChild : Option HaErr)
    (pkAutoGenerated : Bool) (rowId : Nat) (buf : Row ι) : Option HaErr :=
  if (writeCheckPkUnique T s view (writeBuildPk T rowId buf) (s.skipUnique || pkAutoGenerated)).isSome then
    some .foundDuppKey
  else if (writeCheckSecondaryUnique T s view buf).isSome then some .foundDuppKey
  else fkCheckChild

def updateChecks (T : Table ι β) (s : Session) (view : Store Key (Val ι)) (fkCheckChild : Option HaErr)
    (u : Update ι) : Option HaErr :=
  if s.skipUnique = false ∧ (updateCheckUnique T view u).isSome then some .foundDuppKey else fkCheckChild

mutual

def RowCall.run (tables : τ → Table ι β) : RowCall τ ι → M τ ι (Option HaErr)
  | .write t s view fkCheckChild pkAutoGenerated rowId buf =>
    let pk := writeBuildPk (tables t) rowId buf
    orFail (.ret (writeChecks (tables t) s view fkCheckChild pkAutoGenerated rowId buf)) <|
    orReturn (checkAll .success [.put (t, dataKey pk) (.row buf)]) <|
    orReturn (writeMaintainIndexes (tables t) t pk buf) <| .ret none
  | .update t s view fkCheckChild nested currentPk oldData newData writeSet =>
    let u := toUpdate (tables t) currentPk oldData newData writeSet
    orFail (.ret (updateChecks (tables t) s view fkCheckChild u)) <|
    orFail (runAll tables nested) <|
    orReturn (updateRewritePrimary t u) <|
    orReturn (updateMaintainIndexes (tables t) t u) <| .ret none
  | .delete t nested d currentPk buf =>
    orFail (runAll tables nested) <|
    orReturn (checkAll .success ((dataTombstones d currentPk).map (inTable t))) <|
    orReturn (deleteMaintainIndexes (tables t) t currentPk buf) <| .ret none

def runAll (tables : τ → Table ι β) : List (RowCall τ ι) → M τ ι (Option HaErr)
  | [] => .ret none
  | c :: cs => orFail (c.run tables) (runAll tables cs)

end

/-- The puts, and the deletes from the data family and from regular indexes. -/
def checks (T : Table ι β) : Op Key (Val ι) → Bool
  | .put _ _ => true
  | .del (.data, _) => true
  | .del (.idx i, _) =>
    match T.indexes[i]? with
    | some (.regular _ _) => true
    | _ => false

/-- The calls to the library in their order, and the answer once all of them succeed. -/
structure Plan (τ ι : Type) where
  steps : List (Step (Call τ ι))
  answer : Option HaErr

def Plan.andThen (p q : Plan τ ι) : Plan τ ι :=
  if p.answer = none then ⟨p.steps ++ q.steps, q.answer⟩ else p

def planOf (tables : τ → Table ι β) (t : τ) (ops : List (Op Key (Val ι))) : Plan τ ι where
  steps := ops.map fun op => ⟨inTable t op, checks (tables t) op⟩
  answer := none

mutual

def RowCall.plan (tables : τ → Table ι β) : RowCall τ ι → Plan τ ι
  | .write t s view fkCheckChild pkAutoGenerated rowId buf =>
    let pk := writeBuildPk (tables t) rowId buf
    Plan.andThen ⟨[], writeChecks (tables t) s view fkCheckChild pkAutoGenerated rowId buf⟩
      (planOf tables t (.put (dataKey pk) (.row buf) :: Dml.writeMaintainIndexes (tables t) pk buf))
  | .update t s view fkCheckChild nested currentPk oldData newData writeSet =>
    let u := toUpdate (tables t) currentPk oldData newData writeSet
    Plan.andThen ⟨[], updateChecks (tables t) s view fkCheckChild u⟩
      ((planAll tables nested).andThen
        (planOf tables t (Dml.updateRewritePrimary u ++ Dml.updateMaintainIndexes (tables t) u)))
  | .delete t nested d currentPk buf =>
    (planAll tables nested).andThen
      (planOf tables t (dataTombstones d currentPk ++ Dml.deleteMaintainIndexes (tables t) currentPk buf))

def planAll (tables : τ → Table ι β) : List (RowCall τ ι) → Plan τ ι
  | [] => ⟨[], none⟩
  | c :: cs => (c.plan tables).andThen (planAll tables cs)

end

end Model

section Follows

variable {τ ι β : Type} {tables : τ → Table ι β}

/-- The program makes the calls of the plan, and answers as planned when nothing that it looks at fails. -/
def Keeps (plan : Plan τ ι) (p : M τ ι (Option HaErr)) : Prop :=
  Follows .success (· = plan.answer) (· ≠ none) plan.steps p

theorem keeps_orFail {plan plan' : Plan τ ι} {p q : M τ ι (Option HaErr)} (hp : Keeps plan p) (hq : Keeps plan' q) :
    Keeps (plan.andThen plan') (orFail p q) := by
  rw [Plan.andThen]
  split
  · rename_i hNone
    refine Follows.bind hp (fun err hErr => ?_) fun err hErr => ⟨err, if_neg hErr, hErr⟩
    rw [if_pos (hErr.trans hNone)]
    exact hq
  · rename_i hSome
    have hEnds : Follows .success (· = plan.answer) (· ≠ none) (plan.steps ++ []) (orFail p q) :=
      hp.bind (fun err hErr => by rw [if_neg (hErr ▸ hSome)]; exact hErr) fun err hErr => ⟨err, if_neg hErr, hErr⟩
    rwa [append_nil] at hEnds

def Issues (T : Table ι β) (t : τ) (ops : List (Op Key (Val ι))) (p : M τ ι TdbRc) : Prop :=
  Follows .success (· = .success) (· ≠ .success) (ops.map fun op => ⟨inTable t op, checks T op⟩) p

variable {T : Table ι β} {t : τ} {ops ops' : List (Op Key (Val ι))}

theorem steps_eq {looked : Bool} (h : ∀ op ∈ ops, checks T op = looked) :
    ops.map (fun op => (⟨inTable t op, checks T op⟩ : Step (Call τ ι))) =
      (ops.map (inTable t)).map fun e => ⟨e, looked⟩ := by
  rw [map_map]
  refine map_congr_left fun op hop => ?_
  rw [h op hop]
  rfl

theorem issues_checkAll (h : ∀ op ∈ ops, checks T op = true) :
    Issues T t ops (checkAll .success (ops.map (inTable t))) := by
  rw [Issues, steps_eq h]
  exact follows_checkAll _

theorem issues_ignoreAll (h : ∀ op ∈ ops, checks T op = false) :
    Issues T t ops (ignoreAll .success (ops.map (inTable t))) := by
  rw [Issues, steps_eq h]
  exact follows_ignoreAll _ _

theorem issues_ignoreAll_checkAll (hDels : ∀ op ∈ ops, checks T op = false) (hPuts : ∀ op ∈ ops', checks T op = true) :
    Issues T t (ops ++ ops')
      (do let _ ← ignoreAll .success (ops.map (inTable t)); checkAll .success (ops'.map (inTable t))) := by
  rw [Issues, map_append, steps_eq hDels]
  exact (follows_ignoreAll (fun _ => False) _).bind (fun _ _ => issues_checkAll hPuts) fun _ hFalse => hFalse.elim

theorem Issues.keeps {p : M τ ι TdbRc} (h : Issues (tables t) t ops p) {q : M τ ι (Option HaErr)}
    (hq : Keeps (planOf tables t ops') q) :
    Keeps (planOf tables t (ops ++ ops')) (orReturn p q) := by
  rw [Keeps, planOf, map_append]
  refine Follows.bind h (fun rc hOk => ?_) fun rc hFails => ⟨_, if_neg hFails, tdbRcToHa_ne_none hFails⟩
  rw [if_pos hOk]
  exact hq

theorem issues_maintainIndexes {g : IndexShape ι → List (Op Bytes (Val ι))} {f : Nat → IndexShape ι → M τ ι TdbRc}
    (h : ∀ i shape, T.indexes[i]? = some shape → Issues T t ((g shape).map (tag i)) (f i shape)) :
    Issues T t (maintain T g) (maintainIndexes T f) := by
  rw [Issues, maintain, map_flatMap]
  exact follows_walkRc fun x hx => h x.2 x.1 (mk_mem_zipIdx_iff_getElem?.mp hx)

theorem checks_regular {i : Nat} {unique : Bool} {parts : List (KeyPart ι)}
    (h : T.indexes[i]? = some (.regular unique parts)) (op : Op Bytes (Val ι)) : checks T (tag i op) = true := by
  cases op with
  | put k v => rfl
  | del k => rw [tag, checks, h]

theorem checks_puts {i : Nat} {ops : List (Op Bytes (Val ι))} (h : ∀ op ∈ ops, ∃ k v, op = .put k v) :
    ∀ op ∈ ops.map (tag i), checks T op = true := by
  intro op hop
  obtain ⟨op', hop', rfl⟩ := mem_map.mp hop
  obtain ⟨k, v, rfl⟩ := h op' hop'
  rfl

theorem checks_dels {i : Nat} {shape : IndexShape ι} (hShape : T.indexes[i]? = some shape)
    (hOther : ∀ unique parts, shape ≠ .regular unique parts) {ops : List (Op Bytes (Val ι))}
    (h : ∀ op ∈ ops, ∃ k, op = .del k) : ∀ op ∈ ops.map (tag i), checks T op = false := by
  intro op hop
  obtain ⟨op', hop', rfl⟩ := mem_map.mp hop
  obtain ⟨k, rfl⟩ := h op' hop'
  rw [tag, checks, hShape]
  cases shape with
  | regular unique parts => exact absurd rfl (hOther unique parts)
  | fulltext cols tokenize | spatial col => rfl

theorem fulltext_ne_regular (cols : List ι) (tokenize : Bytes → List Bytes) (unique : Bool) (parts : List (KeyPart ι)) :
    IndexShape.fulltext cols tokenize ≠ .regular unique parts := by
  intro hEq
  cases hEq

theorem spatial_ne_regular (col : ι) (unique : Bool) (parts : List (KeyPart ι)) :
    IndexShape.spatial col ≠ .regular unique parts := by
  intro hEq
  cases hEq

theorem puts_ftsEntries (pk : Bytes) (wc : UInt32) (tf : List (Bytes × UInt16)) :
    ∀ op ∈ tf.map (putFtsEntry pk wc), ∃ k v, op = (.put k v : Op Bytes (Val ι)) := by
  intro op hop
  obtain ⟨kv, -, rfl⟩ := mem_map.mp hop
  exact ⟨_, _, rfl⟩

theorem dels_ftsEntries (pk : Bytes) (tf : List (Bytes × UInt16)) :
    ∀ op ∈ tf.map (delFtsEntry pk), ∃ k, op = (.del k : Op Bytes (Val ι)) := by
  intro op hop
  obtain ⟨kv, -, rfl⟩ := mem_map.mp hop
  exact ⟨_, rfl⟩

section

variable (T : Table ι β) (col : ι) (pk : Bytes) (record : Row ι)

theorem puts_spatialEntry : ∀ op ∈ putSpatialEntry T col pk record, ∃ k v, op = .put k v := by
  intro op hop
  rw [putSpatialEntry] at hop
  split at hop
  · exact ⟨_, _, mem_singleton.mp hop⟩
  · cases hop

theorem dels_spatialEntry : ∀ op ∈ delSpatialEntry T col pk record, ∃ k, op = .del k := by
  intro op hop
  rw [delSpatialEntry] at hop
  split at hop
  · exact ⟨_, mem_singleton.mp hop⟩
  · cases hop

end

theorem puts_writeIndex (T : Table ι β) (pk : Bytes) (buf : Row ι) (shape : IndexShape ι) :
    ∀ op ∈ writeIndex T pk buf shape, ∃ k v, op = .put k v := by
  cases shape with
  | regular unique parts => exact fun op hop => ⟨_, _, mem_singleton.mp hop⟩
  | fulltext cols tokenize => exact puts_ftsEntries pk _ _
  | spatial col => exact puts_spatialEntry T col pk buf

theorem issues_writeMaintainIndexes (pk : Bytes) (buf : Row ι) :
    Issues T t (Dml.writeMaintainIndexes T pk buf) (writeMaintainIndexes T t pk buf) :=
  issues_maintainIndexes fun _ shape _ => issues_checkAll (checks_puts (puts_writeIndex T pk buf shape))

theorem issues_regular {i : Nat} {unique : Bool} {parts : List (KeyPart ι)}
    (hShape : T.indexes[i]? = some (.regular unique parts)) (ops : List (Op Bytes (Val ι))) :
    Issues T t (ops.map (tag i)) (checkAll .success (inIndex t i ops)) := by
  refine issues_checkAll fun op hop => ?_
  obtain ⟨op', -, rfl⟩ := mem_map.mp hop
  exact checks_regular hShape op'

theorem issues_deleteMaintainIndexes (currentPk : Bytes) (buf : Row ι) :
    Issues T t (Dml.deleteMaintainIndexes T currentPk buf) (deleteMaintainIndexes T t currentPk buf) := by
  refine issues_maintainIndexes fun i shape hShape => ?_
  cases shape with
  | regular unique parts => exact issues_regular hShape _
  | fulltext cols tokenize =>
    exact issues_ignoreAll (checks_dels hShape (fulltext_ne_regular _ _) (dels_ftsEntries currentPk _))
  | spatial col =>
    exact issues_ignoreAll (checks_dels hShape (spatial_ne_regular col) (dels_spatialEntry T col currentPk buf))

theorem issues_updateFtsIndex {i : Nat} {cols : List ι} {tokenize : Bytes → List Bytes}
    (hShape : T.indexes[i]? = some (.fulltext cols tokenize)) (u : Update ι) :
    Issues T t ((Dml.updateFtsIndex u cols tokenize).map (tag i)) (updateFtsIndex t i u cols tokenize) := by
  rw [Dml.updateFtsIndex, updateFtsIndex]
  split
  · dsimp only
    split
    · rw [map_append]
      exact issues_ignoreAll_checkAll (checks_dels hShape (fulltext_ne_regular _ _) (dels_ftsEntries u.oldPk _))
        (checks_puts (puts_ftsEntries u.newPk _ _))
    · rw [Dml.updateFtsIndexDiff, map_append]
      exact issues_ignoreAll_checkAll (checks_dels hShape (fulltext_ne_regular _ _) (dels_ftsEntries u.oldPk _))
        (checks_puts (puts_ftsEntries u.newPk _ _))
  · exact rfl

theorem issues_updateSpatialIndex {i : Nat} {col : ι} (hShape : T.indexes[i]? = some (.spatial col)) (u : Update ι) :
    Issues T t ((Dml.updateSpatialIndex T u col).map (tag i)) (updateSpatialIndex T t i u col) := by
  rw [Dml.updateSpatialIndex, updateSpatialIndex]
  split
  · rw [map_append]
    exact issues_ignoreAll_checkAll
      (checks_dels hShape (spatial_ne_regular col) (dels_spatialEntry T col u.oldPk u.oldData))
      (checks_puts (puts_spatialEntry T col u.newPk u.newData))
  · exact rfl

theorem issues_updateMaintainIndexes (u : Update ι) :
    Issues T t (Dml.updateMaintainIndexes T u) (updateMaintainIndexes T t u) := by
  refine issues_maintainIndexes fun i shape hShape => ?_
  cases shape with
  | regular unique parts => exact issues_regular hShape _
  | fulltext cols tokenize => exact issues_updateFtsIndex hShape u
  | spatial col => exact issues_updateSpatialIndex hShape u

theorem keeps_answer (answer : Option HaErr) : Keeps (⟨[], answer⟩ : Plan τ ι) (.ret answer) := rfl

theorem keeps_orReturn {p q : M τ ι TdbRc} (hp : Issues (tables t) t ops p) (hq : Issues (tables t) t ops' q) :
    Keeps (planOf tables t (ops ++ ops')) (orReturn p (orReturn q (.ret none))) := by
  have hDone : Keeps (planOf tables t []) (.ret none : M τ ι (Option HaErr)) := rfl
  have hEnd := hq.keeps hDone
  rw [append_nil] at hEnd
  exact hp.keeps hEnd

theorem checks_dataTombstones (d : Deferral) (currentPk : Bytes) :
    ∀ op ∈ dataTombstones d currentPk, checks T op = true := by
  intro op hop
  rw [dataTombstones] at hop
  split at hop
  · dsimp only at hop
    split at hop
    · obtain ⟨pk, -, rfl⟩ := mem_map.mp hop
      rfl
    · cases hop
  · obtain rfl := mem_singleton.mp hop
    rfl

theorem checks_updateRewritePrimary (u : Update ι) : ∀ op ∈ Dml.updateRewritePrimary u, checks T op = true := by
  intro op hop
  rw [Dml.updateRewritePrimary, mem_append, mem_singleton] at hop
  obtain hop | rfl := hop
  · split at hop
    · obtain rfl := mem_singleton.mp hop
      rfl
    · cases hop
  · rfl

mutual

theorem keeps_run (tables : τ → Table ι β) : (c : RowCall τ ι) → Keeps (c.plan tables) (c.run tables)
  | .write t s view fkCheckChild pkAutoGenerated rowId buf => by
    rw [RowCall.plan, RowCall.run]
    have hData : Issues (tables t) t [.put (dataKey (writeBuildPk (tables t) rowId buf)) (.row buf)]
        (checkAll .success [.put (t, dataKey (writeBuildPk (tables t) rowId buf)) (.row buf)]) :=
      issues_checkAll fun op hop => by rw [mem_singleton.mp hop]; rfl
    exact keeps_orFail (keeps_answer _) (keeps_orReturn hData (issues_writeMaintainIndexes ..))
  | .update t s view fkCheckChild nested currentPk oldData newData writeSet => by
    rw [RowCall.plan, RowCall.run]
    exact keeps_orFail (keeps_answer _) (keeps_orFail (keeps_runAll tables nested)
      (keeps_orReturn (issues_checkAll (checks_updateRewritePrimary _)) (issues_updateMaintainIndexes _)))
  | .delete t nested d currentPk buf => by
    rw [RowCall.plan, RowCall.run]
    exact keeps_orFail (keeps_runAll tables nested)
      (keeps_orReturn (issues_checkAll (checks_dataTombstones d currentPk)) (issues_deleteMaintainIndexes ..))

theorem keeps_runAll (tables : τ → Table ι β) : (cs : List (RowCall τ ι)) → Keeps (planAll tables cs) (runAll tables cs)
  | [] => by
    rw [planAll, runAll]
    exact keeps_answer none
  | c :: cs => by
    rw [planAll, runAll]
    exact keeps_orFail (keeps_run tables c) (keeps_runAll tables cs)

end

end Follows

/-- A row call answers 0 only with all its puts and deletes made exactly when the failures, if any, have a put among
them, or a delete that is not one of a full-text or spatial entry. -/
theorem row_call_faithful_iff {τ ι β : Type} (tables : τ → Table ι β) (c : RowCall τ ι) (replies : List TdbRc)
    (hLength : (c.plan tables).steps.length ≤ replies.length) :
    Faithful .success (· = none) (c.run tables) replies ↔ ((c.plan tables).answer = none →
      (∃ z ∈ (c.plan tables).steps.zip replies, z.2 ≠ .success) →
        ∃ z ∈ (c.plan tables).steps.zip replies, z.1.checked = true ∧ z.2 ≠ .success) := by
  have hKeeps : Follows .success (· = (c.plan tables).answer) (· ≠ none) (c.plan tables).steps (c.run tables) :=
    keeps_run tables c
  by_cases hAnswer : (c.plan tables).answer = none
  · rw [hAnswer] at hKeeps
    rw [hKeeps.faithful_iff (fun _ hErr => hErr) hLength]
    exact ⟨fun h _ => h, fun h => h hAnswer⟩
  · obtain ⟨a, ha, hExec⟩ := hKeeps.exec_ends hLength ⟨[], false⟩
    have hErr : a ≠ none := ha.elim (fun h => h ▸ hAnswer) id
    exact ⟨fun _ h => absurd h hAnswer, fun _ => ⟨a, hExec, fun h => absurd h hErr, fun _ => hErr⟩⟩

def removal : RowCall Unit Column := .delete () [] ⟨false, []⟩ [1] (place 1 1)

theorem removal_fails :
    Faithful .success (· = none) (removal.run fun _ => places) [.locked, .success, .locked, .success] :=
  (row_call_faithful_iff (fun _ => places) removal [.locked, .success, .locked, .success] (by decide)).mpr
    fun _ _ => ⟨_, mem_cons_self, rfl, by decide⟩

/-- Only the delete of the full-text entry fails: `delete_row` answers 0, and the entry stays. -/
theorem removal_leaves_entry :
    ¬ ∀ replies : List TdbRc, ((removal.plan fun _ => places).steps.length ≤ replies.length) →
      Faithful .success (· = none) (removal.run fun _ => places) replies := by
  intro hAll
  obtain ⟨a, hAnswer, -, hFailed⟩ := hAll [.success, .success, .memoryLimit, .success] (by decide)
  have hZero : a = none := (Option.some.inj hAnswer).symm
  exact hFailed rfl hZero

end TideSql.WriteErrors
