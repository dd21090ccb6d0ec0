import TideSql.Handler.BulkCommit
import TideSql.Handler.DdlDeferred
import TideSql.Handler.FkCatalog

/-!
# DDL statements that are rolled back

A statement is a sequence of calls of `create`, `delete_table` and `rename_table`, with the rows a copying
`ALTER TABLE` writes in between.
-/

namespace TideSql.AtomicDdl
open CfName Lib Lib.Run FkCatalog List Nat
open DdlDeferred (Intent Key Entry Faults recordSurvived Takes get_drop_takes)
open Lifecycle (Families sweep renamedIdx)

/-- What the calls write into a family and read from one, and the server's `filename_to_tablename`. -/
structure Env (γ ρ : Type) where
  newFamily : γ
  tableOptionsStore : TableArg → γ → γ
  keyShapeStore : KeyDef → γ → γ
  writeAutoIncMeta : Nat → γ → γ
  keyShapeLoad : Str → γ → List UInt8
  putRow : ρ → γ → γ
  filenameToTablename : Str → Str

inductive Write (ρ : Type) where
  | record (e : Entry Str)
  | row (family : Str) (r : ρ)

structure Stmt (γ ρ : Type) where
  families : Families γ
  catalog : Catalog
  log : List (Entry Str)
  txn : List (Write ρ)
  stmtRecords : List (Entry Str)
  boot : Nat
  seq : Nat
  rc : Option HaErr

section Calls

variable {γ ρ : Type}

def ddlSplitPath (path : Str) : Bool :=
  let parts := splitTablePath path
  parts.hasDir && !parts.db.isEmpty && !parts.table.isEmpty

def ddlRecord (what : Intent) (path : Str) (ok : Bool) (s : Stmt γ ρ) : Stmt γ ρ × Bool :=
  if ddlSplitPath path then
    let e : Entry Str := ⟨⟨s.boot, s.seq⟩, what, path⟩
    let s := { s with seq := s.seq + 1 }
    if ok then ({ s with txn := s.txn ++ [.record e], stmtRecords := s.stmtRecords ++ [e] }, true) else (s, false)
  else (s, false)

def dropTableCfsNow (path : Str) (s : Stmt γ ρ) : Stmt γ ρ :=
  { s with
    catalog := fkPurgeCatalog (toCfName path) s.catalog
    families := Lifecycle.dropTableCfsNow path s.families }

def deleteTable (path : Str) (ok : Bool) (s : Stmt γ ρ) : Stmt γ ρ :=
  if ddlSplitPath path then
    let r := ddlRecord .drop path ok s
    { r.1 with rc := if r.2 then none else some .generic }
  else { dropTableCfsNow path s with rc := none }

def secondaryKeys (t : TableArg) : List KeyDef :=
  (t.keys.zipIdx.filter fun k => t.primaryKey ≠ some k.2).map Prod.fst

def createIfMissing (env : Env γ ρ) (cf : Str) (fs : Families γ) : Families γ :=
  if (fs.get cf).isNone then fs.put cf env.newFamily else fs

def createIndexFamily (env : Env γ ρ) (cf : Str) (fs : Families γ) (k : KeyDef) : Families γ :=
  if (fs.get (idxCfName cf k.name)).isNone then
    (fs.put (idxCfName cf k.name) env.newFamily).modify cf (env.keyShapeStore k)
  else fs

def createFamilies (env : Env γ ρ) (cf : Str) (t : TableArg) (fs : Families γ) : Families γ :=
  let fs := (createIfMissing env cf fs).modify cf (env.tableOptionsStore t)
  let fs := (secondaryKeys t).foldl (createIndexFamily env cf) fs
  if t.autoIncrementValue > 1 then fs.modify cf (env.writeAutoIncMeta t.autoIncrementValue) else fs

def fkParentKeyShape (env : Env γ ρ) (fs : Families γ) (parentCf parentIndexName : Str) : List UInt8 :=
  if parentCf.isEmpty || parentIndexName.isEmpty then []
  else ((fs.get parentCf).map (env.keyShapeLoad parentIndexName)).getD []

def create (env : Env γ ρ) (path : Str) (t : TableArg) (ok : Bool) (s : Stmt γ ρ) : Stmt γ ρ :=
  if t.optionsOk then
    let fs := createFamilies env (toCfName path) t s.families
    match fkPersistDefs (fkParentKeyShape env fs) path t s.catalog with
    | .error r => { s with families := fs, rc := some r.code }
    | .ok cat => { (ddlRecord .create path ok { s with families := fs, catalog := cat }).1 with rc := none }
  else { s with rc := some .wrongCreateOption }

def Write.moved (oldCf newCf : Str) : Write ρ → Write ρ
  | .record e => .record e
  | .row family r =>
    if family = oldCf then .row newCf r
    else if (oldCf ++ cfIndexInfix).isPrefixOf family then .row (renamedIdx oldCf newCf family) r
    else .row family r

def renameTable (env : Env γ ρ) (source target : Str) (s : Stmt γ ρ) : Stmt γ ρ :=
  { s with
    families := Lifecycle.renameTable source target s.families
    catalog := fkRenameCatalog env.filenameToTablename source target s.catalog
    txn := s.txn.map (Write.moved (toCfName source) (toCfName target))
    rc := none }

def Write.apply (env : Env γ ρ) (s : Stmt γ ρ) : Write ρ → Stmt γ ρ
  | .record e => { s with log := s.log ++ [e] }
  | .row family r => { s with families := s.families.modify family (env.putRow r) }

def commitTxn (env : Env γ ρ) (s : Stmt γ ρ) : Stmt γ ρ := { s.txn.foldl (Write.apply env) s with txn := [] }

def effect (env : Env γ ρ) (s : Stmt γ ρ) : BulkCommit.Effect (Write ρ) Unit → Stmt γ ρ
  | .write ws _ => { s with txn := s.txn ++ ws }
  | .maybeBulkCommit => commitTxn env s

def copyRow (env : Env γ ρ) (c : Stmt γ ρ × BulkCommit.Handler (Write ρ)) (puts : List (Str × ρ)) :
    Stmt γ ρ × BulkCommit.Handler (Write ρ) :=
  let r := c.2.call (.writeRow (puts.map fun p => .row p.1 p.2) [])
  (r.2.foldl (effect env) c.1, r.1)

def copyHandler (numSecondaryIndexes : Nat) : BulkCommit.Handler (Write ρ) :=
  ⟨numSecondaryIndexes, false, true, false, false, 0, []⟩

def copyRows (env : Env γ ρ) (numSecondaryIndexes : Nat) (rows : List (List (Str × ρ))) (s : Stmt γ ρ) : Stmt γ ρ :=
  { (rows.foldl (copyRow env) (s, copyHandler numSecondaryIndexes)).1 with rc := none }

inductive Call (ρ : Type) where
  | create (path : Str) (t : TableArg) (ok : Bool)
  | copyRows (numSecondaryIndexes : Nat) (rows : List (List (Str × ρ)))
  | deleteTable (path : Str) (ok : Bool)
  | renameTable (source target : Str)

def Call.run (env : Env γ ρ) (s : Stmt γ ρ) : Call ρ → Stmt γ ρ
  | .create path t ok => AtomicDdl.create env path t ok s
  | .copyRows n rows => AtomicDdl.copyRows env n rows s
  | .deleteTable path ok => AtomicDdl.deleteTable path ok s
  | .renameTable source target => AtomicDdl.renameTable env source target s

def step (env : Env γ ρ) (s : Stmt γ ρ) (c : Call ρ) : Option (Stmt γ ρ) :=
  if s.rc.isNone then some (c.run env s) else none

end Calls

section Hook

variable {γ ρ : Type}

def eraseRecord (f : Faults) (s : Stmt γ ρ) (k : Key) : Stmt γ ρ :=
  if f.eraseOk k then { s with log := s.log.filter fun e => e.key ≠ k } else s

def resolve (f : Faults) (s : Stmt γ ρ) (e : Entry Str) (committed : Bool) : Stmt γ ρ :=
  if decide (e.what = .drop) = committed then
    if f.removeOk e.key then eraseRecord f (dropTableCfsNow e.path s) e.key
    else { s with catalog := fkPurgeCatalog (toCfName e.path) s.catalog }
  else eraseRecord f s e.key

def resolveAll (f : Faults) (verdict : List (Entry Str) → Key → Bool) (es : List (Entry Str)) (s : Stmt γ ρ) :
    Stmt γ ρ :=
  es.foldl (fun s e => resolve f s e (verdict s.log e.key)) s

def recover (f : Faults) (s : Stmt γ ρ) : Stmt γ ρ :=
  if f.recoverOk then resolveAll f (fun _ _ => true) (s.log.filter fun e => e.key.boot ≠ s.boot) s else s

def postDdl (f : Faults) (recovered : Bool) (s : Stmt γ ρ) : Stmt γ ρ :=
  resolveAll f (recordSurvived f) s.stmtRecords { if recovered then s else recover f s with stmtRecords := [] }

def rolledBack (f : Faults) (recovered : Bool) (s : Stmt γ ρ) : Stmt γ ρ :=
  postDdl f recovered { s with txn := [] }

theorem eraseRecord_families (f : Faults) (s : Stmt γ ρ) (k : Key) : (eraseRecord f s k).families = s.families := by
  rw [eraseRecord]
  split
  · rfl
  · rfl

theorem eraseRecord_catalog (f : Faults) (s : Stmt γ ρ) (k : Key) : (eraseRecord f s k).catalog = s.catalog := by
  rw [eraseRecord]
  split
  · rfl
  · rfl

end Hook

section Taking

variable {γ ρ : Type}

theorem takes_data (path : Str) : Takes path (toCfName path) := Or.inl rfl

theorem takes_index (path name : Str) : Takes path (idxCfName (toCfName path) name) :=
  Or.inr (prefix_append _ _)

variable {path z : Str}

theorem ne_data_of_not_takes (h : ¬Takes path z) : z ≠ toCfName path := by
  rintro rfl
  exact h (takes_data path)

theorem get_modify_not_takes (h : ¬Takes path z) (fs : Families γ) (g : γ → γ) :
    (fs.modify (toCfName path) g).get z = fs.get z :=
  fs.get_modify_of_ne (ne_data_of_not_takes h) g

section

variable (env : Env γ ρ) (h : ¬Takes path z)
include h

theorem get_createIndexFamily (fs : Families γ) (k : KeyDef) :
    (createIndexFamily env (toCfName path) fs k).get z = fs.get z := by
  have hNe : z ≠ idxCfName (toCfName path) k.name := by
    rintro rfl
    exact h (takes_index path k.name)
  rw [createIndexFamily]
  split
  · rw [get_modify_not_takes h, Store.get_put, if_neg hNe]
  · rfl

theorem get_createIndexFamilies (ks : List KeyDef) (fs : Families γ) :
    (ks.foldl (createIndexFamily env (toCfName path)) fs).get z = fs.get z := by
  induction ks generalizing fs with
  | nil => rfl
  | cons k ks ih => rw [foldl_cons, ih, get_createIndexFamily env h]

theorem get_createFamilies (t : TableArg) (fs : Families γ) :
    (createFamilies env (toCfName path) t fs).get z = fs.get z := by
  have hData : (createIfMissing env (toCfName path) fs).get z = fs.get z := by
    rw [createIfMissing]
    split
    · rw [Store.get_put, if_neg (ne_data_of_not_takes h)]
    · rfl
  have hIndexes := get_createIndexFamilies env h (secondaryKeys t)
    ((createIfMissing env (toCfName path) fs).modify (toCfName path) (env.tableOptionsStore t))
  rw [get_modify_not_takes h, hData] at hIndexes
  rw [createFamilies]
  split
  · rw [get_modify_not_takes h, hIndexes]
  · exact hIndexes

end

end Taking

section Undo

variable {γ ρ : Type}

def Created (s : Stmt γ ρ) (z : Str) : Prop := ∃ e ∈ s.stmtRecords, e.what = .create ∧ Takes e.path z

def CreatedRecord (s : Stmt γ ρ) (v : Str) : Prop :=
  ∃ e ∈ s.stmtRecords, e.what = .create ∧ namesCf (toCfName e.path) v = true

/-- The statement has changed nothing but what goes with the tables it recorded as created, and none of
that was there before. -/
structure Undoable (s₀ s : Stmt γ ρ) : Prop where
  boot : s.boot = s₀.boot
  seq : s₀.seq ≤ s.seq
  log : s.log = s₀.log
  own : ∀ e ∈ s.stmtRecords, e.key.boot = s₀.boot ∧ s₀.seq ≤ e.key.seq
  kept : ∀ z, ¬Created s z → s.families.get z = s₀.families.get z
  fresh : ∀ z, Created s z → s₀.families.get z = none
  keptRecord : ∀ k, (∀ v, s.catalog.get k = some v → ¬CreatedRecord s v) → s.catalog.get k = s₀.catalog.get k
  freshRecord : ∀ k v, s.catalog.get k = some v → CreatedRecord s v → s₀.catalog.get k = none

/-- Nothing is recorded yet, and the records of this server run are numbered below the counter. -/
structure Begun (s : Stmt γ ρ) : Prop where
  noRecords : s.stmtRecords = []
  counted : ∀ r ∈ s.log, r.key.boot = s.boot → r.key.seq < s.seq

theorem undoable_begun {s : Stmt γ ρ} (h : Begun s) : Undoable s s where
  boot := rfl
  seq := le_refl _
  log := rfl
  own e he := by
    rw [h.noRecords] at he
    cases he
  kept _ _ := rfl
  fresh z hz := by
    obtain ⟨e, he, -⟩ := hz
    rw [h.noRecords] at he
    cases he
  keptRecord _ _ := rfl
  freshRecord k v _ hv := by
    obtain ⟨e, he, -⟩ := hv
    rw [h.noRecords] at he
    cases he

section Append

variable {s s' : Stmt γ ρ} {new : List (Entry Str)} (hRecords : s'.stmtRecords = s.stmtRecords ++ new)
include hRecords

theorem created_append (z : Str) : Created s' z ↔ Created s z ∨ ∃ e ∈ new, e.what = .create ∧ Takes e.path z := by
  simp only [Created, hRecords, mem_append, or_and_right, exists_or]

theorem createdRecord_append (v : Str) :
    CreatedRecord s' v ↔ CreatedRecord s v ∨ ∃ e ∈ new, e.what = .create ∧ namesCf (toCfName e.path) v = true := by
  simp only [CreatedRecord, hRecords, mem_append, or_and_right, exists_or]

theorem own_append {s₀ : Stmt γ ρ} (h : Undoable s₀ s) (hNew : ∀ e ∈ new, e.key = ⟨s.boot, s.seq⟩) {e : Entry Str}
    (he : e ∈ s'.stmtRecords) : e.key.boot = s₀.boot ∧ s₀.seq ≤ e.key.seq := by
  rw [hRecords] at he
  obtain hOld | hIn := mem_append.mp he
  · exact h.own e hOld
  · rw [hNew e hIn]
    exact ⟨h.boot, h.seq⟩

end Append

theorem Undoable.free {s₀ s : Stmt γ ρ} (h : Undoable s₀ s) {k : Str}
    (hk : ∀ v, s.catalog.get k = some v → CreatedRecord s v) : s₀.catalog.get k = none := by
  cases hGet : s.catalog.get k with
  | none =>
    rw [← h.keptRecord k fun v hv => by rw [hGet] at hv; cases hv]
    exact hGet
  | some v => exact h.freshRecord k v hGet (hk v hGet)

theorem Undoable.of_same {s₀ s s' : Stmt γ ρ} (h : Undoable s₀ s) (hBoot : s'.boot = s.boot) (hSeq : s.seq ≤ s'.seq)
    (hLog : s'.log = s.log) (hFamilies : ∀ z, s'.families.get z = s.families.get z)
    (hCatalog : s'.catalog = s.catalog)
    (new : List (Entry Str)) (hRecords : s'.stmtRecords = s.stmtRecords ++ new)
    (hNew : ∀ e ∈ new, e.what = .drop ∧ e.key = ⟨s.boot, s.seq⟩) : Undoable s₀ s' := by
  have hNone : ∀ P : Entry Str → Prop, ¬∃ e ∈ new, e.what = .create ∧ P e := by
    rintro P ⟨e, he, hWhat, -⟩
    rw [(hNew e he).1] at hWhat
    cases hWhat
  have hCreated : ∀ z, Created s' z ↔ Created s z := fun z => by
    rw [created_append hRecords, or_iff_left (hNone _)]
  have hCreatedRecord : ∀ v, CreatedRecord s' v ↔ CreatedRecord s v := fun v => by
    rw [createdRecord_append hRecords, or_iff_left (hNone _)]
  refine ⟨hBoot.trans h.boot, h.seq.trans hSeq, hLog.trans h.log,
    fun e he => own_append hRecords h (fun e he => (hNew e he).2) he, fun z hz => ?_, fun z hz => ?_,
    fun k hk => ?_, fun k v hv hRecord => ?_⟩
  · rw [hCreated] at hz
    exact (hFamilies z).trans (h.kept z hz)
  · exact h.fresh z ((hCreated z).mp hz)
  · simp only [hCatalog, hCreatedRecord] at hk ⊢
    exact h.keptRecord k hk
  · rw [hCatalog] at hv
    exact h.freshRecord k v hv ((hCreatedRecord v).mp hRecord)

end Undo

section Guard

variable {γ ρ : Type}

def newEntries (env : Env γ ρ) (path : Str) (t : TableArg) (s : Stmt γ ρ) : Except Reject (List FkCatalogEntry) :=
  fkEntries (fkParentKeyShape env (createFamilies env (toCfName path) t s.families)) path t t.foreignKeys 0

/-- The name can be read, the record is written, the foreign keys are accepted, and nothing of the table was there
before. -/
structure CreateOk (env : Env γ ρ) (path : Str) (t : TableArg) (ok : Bool) (s : Stmt γ ρ) : Prop where
  named : ddlSplitPath path = true
  recorded : ok = true
  accepted : ∀ spec ∈ t.foreignKeys, Accepted t spec
  fits : ∀ es, newEntries env path t s = .ok es → ∀ e ∈ es, e.Fits
  freeFamilies : ∀ z, Takes path z → s.families.get z ≠ none → Created s z
  freeNames : ∀ k v, s.catalog.get k = some v → namesCf (toCfName path) v = true → CreatedRecord s v
  freeKeys : ∀ es, newEntries env path t s = .ok es → ∀ e ∈ es, ∀ k ∈ e.keys, ∀ v, s.catalog.get k = some v →
    CreatedRecord s v

structure RenameIdle (source target : Str) (s : Stmt γ ρ) : Prop where
  noSource : ∀ z, Takes source z → s.families.get z = none
  noTarget : s.families.get (toCfName target) = none
  noConstraint : constraintsOf (toCfName source) s.catalog = []

def CallOk (env : Env γ ρ) (s : Stmt γ ρ) : Call ρ → Prop
  | .create path t ok => t.optionsOk = true → CreateOk env path t ok s
  | .copyRows n rows => rows.length * (1 + n) < BulkCommit.bulkInsertBatchOps
  | .deleteTable path _ => ddlSplitPath path = true
  | .renameTable source target => RenameIdle source target s

variable {path : Str}

theorem ddlRecord_of_named (h : ddlSplitPath path = true) (what : Intent) (s : Stmt γ ρ) : ddlRecord what path true s =
      ({ s with
        seq := s.seq + 1
        txn := s.txn ++ [.record ⟨⟨s.boot, s.seq⟩, what, path⟩]
        stmtRecords := s.stmtRecords ++ [⟨⟨s.boot, s.seq⟩, what, path⟩] }, true) := by
  rw [ddlRecord, if_pos h, if_pos rfl]

variable {s₀ s : Stmt γ ρ}

theorem Undoable.deleteTable (h : Undoable s₀ s) (hPath : ddlSplitPath path = true) (ok : Bool) :
    Undoable s₀ (deleteTable path ok s) := by
  rw [AtomicDdl.deleteTable, if_pos hPath]
  cases ok with
  | true =>
    rw [ddlRecord_of_named hPath]
    refine h.of_same rfl (le_succ _) rfl (fun _ => rfl) rfl [⟨⟨s.boot, s.seq⟩, .drop, path⟩] rfl fun e he => ?_
    rw [mem_singleton.mp he]
    exact ⟨rfl, rfl⟩
  | false =>
    rw [ddlRecord, if_pos hPath]
    exact h.of_same rfl (le_succ _) rfl (fun _ => rfl) rfl [] (append_nil _).symm fun e he => by cases he

theorem copyRows_below (env : Env γ ρ) (rows : List (List (Str × ρ))) (s : Stmt γ ρ)
    {h : BulkCommit.Handler (Write ρ)} (hBulk : h.inBulkInsert = true)
    (hBelow : h.bulkInsertOps + rows.length * h.weight < BulkCommit.bulkInsertBatchOps) :
    ∃ ws, (rows.foldl (copyRow env) (s, h)).1 = { s with txn := s.txn ++ ws } := by
  induction rows generalizing s h with
  | nil => exact ⟨[], by rw [append_nil]; rfl⟩
  | cons puts rows ih =>
    rw [length_cons, succ_mul] at hBelow
    have hRow : h.bulkInsertOps + h.weight < BulkCommit.bulkInsertBatchOps := by omega
    have hFirst : copyRow env (s, h) puts = ({ s with txn := s.txn ++ puts.map fun p => .row p.1 p.2 },
          { h with bulkInsertOps := h.bulkInsertOps + h.weight }) := by
      simp only [copyRow, BulkCommit.Handler.call, hBulk, if_true, BulkCommit.bulkFlushIfThreshold,
        if_neg (not_le.mpr hRow), foldl_cons, foldl_nil, effect]
    obtain ⟨ws, hRest⟩ := ih { s with txn := s.txn ++ puts.map fun p => .row p.1 p.2 }
      (h := { h with bulkInsertOps := h.bulkInsertOps + h.weight }) hBulk (by
        simp only [BulkCommit.Handler.weight] at hBelow ⊢
        omega)
    rw [foldl_cons, hFirst, hRest]
    exact ⟨_, by rw [append_assoc]⟩

theorem Undoable.copyRows (h : Undoable s₀ s) (env : Env γ ρ) {n : Nat} {rows : List (List (Str × ρ))}
    (hBelow : rows.length * (1 + n) < BulkCommit.bulkInsertBatchOps) : Undoable s₀ (copyRows env n rows s) := by
  have hStart : (copyHandler n : BulkCommit.Handler (Write ρ)).bulkInsertOps +
      rows.length * (copyHandler n : BulkCommit.Handler (Write ρ)).weight < BulkCommit.bulkInsertBatchOps := by
    simpa [copyHandler, BulkCommit.Handler.weight] using hBelow
  obtain ⟨ws, hRows⟩ := copyRows_below env rows s rfl hStart
  rw [AtomicDdl.copyRows, hRows]
  exact h.of_same rfl (le_refl _) rfl (fun _ => rfl) rfl [] (append_nil _).symm fun e he => by cases he

theorem Undoable.renameTable (h : Undoable s₀ s) (env : Env γ ρ) {source target : Str}
    (hIdle : RenameIdle source target s) : Undoable s₀ (renameTable env source target s) := by
  have hSource : s.families.get (toCfName source) = none := hIdle.noSource _ (takes_data source)
  have hMove : ∀ z, (s.families.moveOver (toCfName source) (toCfName target)).get z = s.families.get z := by
    intro z
    rcases s.families.get_moveOver_cases (toCfName source) (toCfName target) z with
      ⟨rfl, hGet⟩ | ⟨rfl, hGet⟩ | ⟨-, -, hGet⟩
    · rw [hGet, hSource]
    · rw [hGet, hSource, hIdle.noTarget]
    · exact hGet
  have hSweep :
    sweep (toCfName source ++ cfIndexInfix) (s.families.moveOver (toCfName source) (toCfName target)) = [] := by
    refine eq_nil_iff_forall_not_mem.mpr fun z hz => ?_
    obtain ⟨hMem, hPre⟩ := (Lifecycle.mem_sweep_iff _ _ z).mp hz
    rw [Store.mem_names_iff, hMove] at hMem
    exact hMem (hIdle.noSource z (Or.inr hPre))
  have hFamilies : ∀ z, (Lifecycle.renameTable source target s.families).get z = s.families.get z := by
    intro z
    simp only [Lifecycle.renameTable, hSweep, Store.moveAll_nil]
    exact hMove z
  exact h.of_same rfl (le_refl _) rfl hFamilies (fkRenameCatalog_of_unnamed _ hIdle.noConstraint) []
    (append_nil _).symm fun e he => by cases he

theorem Undoable.created {s₀ s s' : Stmt γ ρ} (h : Undoable s₀ s) (hBoot : s'.boot = s.boot) (hSeq : s.seq ≤ s'.seq)
    (hLog : s'.log = s.log) (hRecords : s'.stmtRecords = s.stmtRecords ++ [⟨⟨s.boot, s.seq⟩, .create, path⟩])
    (hFamilies : ∀ z, ¬Takes path z → s'.families.get z = s.families.get z)
    (hFree : ∀ z, Takes path z → s.families.get z ≠ none → Created s z)
    (hCatalog : ∀ k, s'.catalog.get k = s.catalog.get k ∨
      ((∃ v, s'.catalog.get k = some v ∧ namesCf (toCfName path) v = true) ∧
        ∀ v, s.catalog.get k = some v → CreatedRecord s v))
    (hNames : ∀ k v, s.catalog.get k = some v → namesCf (toCfName path) v = true → CreatedRecord s v) :
    Undoable s₀ s' := by
  have hCreated : ∀ z, Created s' z ↔ Created s z ∨ Takes path z := fun z => by
    rw [created_append hRecords]
    simp
  have hCreatedRecord : ∀ v, CreatedRecord s' v ↔ CreatedRecord s v ∨ namesCf (toCfName path) v = true := fun v => by
    rw [createdRecord_append hRecords]
    simp
  have hKey : ∀ e ∈ [(⟨⟨s.boot, s.seq⟩, .create, path⟩ : Entry Str)], e.key = ⟨s.boot, s.seq⟩ := fun e he => by
    rw [mem_singleton.mp he]
  refine ⟨hBoot.trans h.boot, h.seq.trans hSeq, hLog.trans h.log, fun e he => own_append hRecords h hKey he,
    fun z hz => ?_, fun z hz => ?_, fun k hk => ?_, fun k v hv hRecord => ?_⟩
  · rw [hCreated, not_or] at hz
    exact (hFamilies z hz.2).trans (h.kept z hz.1)
  · obtain hOld | hTakes := (hCreated z).mp hz
    · exact h.fresh z hOld
    · by_cases hOld : Created s z
      · exact h.fresh z hOld
      · rw [← h.kept z hOld]
        by_contra hThere
        exact hOld (hFree z hTakes hThere)
  · obtain hSame | ⟨⟨v, hv, hNamed⟩, -⟩ := hCatalog k
    · rw [hSame] at hk ⊢
      exact h.keptRecord k fun v hv hRecord => hk v hv ((hCreatedRecord v).mpr (Or.inl hRecord))
    · exact absurd ((hCreatedRecord v).mpr (Or.inr hNamed)) (hk v hv)
  · obtain hSame | ⟨-, hTaken⟩ := hCatalog k
    · rw [hSame] at hv
      obtain hOld | hNamed := (hCreatedRecord v).mp hRecord
      · exact h.freshRecord k v hv hOld
      · exact h.freshRecord k v hv (hNames k v hv hNamed)
    · exact h.free hTaken

theorem Undoable.create (h : Undoable s₀ s) (env : Env γ ρ) {t : TableArg} {ok : Bool}
    (hOk : t.optionsOk = true → CreateOk env path t ok s) : Undoable s₀ (create env path t ok s) := by
  rw [AtomicDdl.create]
  split
  · rename_i hOptions
    have hCreate := hOk hOptions
    obtain ⟨es, hEntries⟩ := (fkEntries_isOk_iff
      (fkParentKeyShape env (createFamilies env (toCfName path) t s.families)) path t t.foreignKeys 0).mpr
        hCreate.accepted
    have hPersist : fkPersistDefs (fkParentKeyShape env (createFamilies env (toCfName path) t s.families)) path t
        s.catalog = .ok (s.catalog.putAll (es.flatMap FkCatalogEntry.records)) := by
      rw [fkPersistDefs, hEntries]
    dsimp only
    rw [hPersist, hCreate.recorded]
    dsimp only
    rw [ddlRecord_of_named hCreate.named]
    refine h.created rfl (le_succ _) rfl rfl (fun z hz => get_createFamilies env hz t s.families)
      hCreate.freeFamilies (fun k => ?_) hCreate.freeNames
    obtain ⟨v, hMem, hGet⟩ | ⟨-, hGet⟩ := s.catalog.get_putAll_cases (es.flatMap FkCatalogEntry.records) k
    · obtain ⟨e, he, hRecord⟩ := mem_flatMap.mp hMem
      obtain ⟨hKey, rfl⟩ := (mem_records_iff e k v).mp hRecord
      have hNamed := namesCf_fkSerialize (hCreate.fits es hEntries e he)
      rw [childCf_of_fkEntries _ path t hEntries he] at hNamed
      exact Or.inr ⟨⟨_, hGet, hNamed⟩, hCreate.freeKeys es hEntries e he k hKey⟩
    · exact Or.inl hGet
  · exact h.of_same rfl (le_refl _) rfl (fun _ => rfl) rfl [] (append_nil _).symm fun e he => by cases he

theorem Undoable.call (h : Undoable s₀ s) (env : Env γ ρ) {c : Call ρ} (hOk : CallOk env s c) :
    Undoable s₀ (c.run env s) := by
  cases c with
  | create path t ok => exact h.create env hOk
  | copyRows n rows => exact h.copyRows env hOk
  | deleteTable path ok => exact h.deleteTable hOk ok
  | renameTable source target => exact h.renameTable env hOk

theorem undoable_of_reach (env : Env γ ρ) (hBegun : Begun s₀) (hReach : Reach (step env) (CallOk env) s₀ s) :
    Undoable s₀ s := by
  refine hReach.invariant (Undoable s₀) (undoable_begun hBegun) fun s c s' h hOk hStep => ?_
  rw [step] at hStep
  split at hStep
  · cases hStep
    exact h.call env hOk
  · cases hStep

end Guard

section RolledBack

variable {γ ρ : Type} (f : Faults)

variable {s : Stmt γ ρ}

theorem mem_of_mem_eraseRecord {k : Key} {r : Entry Str} (h : r ∈ (eraseRecord f s k).log) : r ∈ s.log := by
  rw [eraseRecord] at h
  split at h
  · exact (mem_filter.mp h).1
  · exact h

variable {e : Entry Str}

theorem mem_of_mem_resolve {committed : Bool} {r : Entry Str} (h : r ∈ (resolve f s e committed).log) : r ∈ s.log := by
  rw [resolve] at h
  split at h
  · split at h
    · exact mem_of_mem_eraseRecord f (s := dropTableCfsNow e.path s) h
    · exact h
  · exact mem_of_mem_eraseRecord f h

theorem resolve_lost (hRemove : f.removeOk e.key = true) : (∀ z, (resolve f s e false).families.get z =
        if e.what = .create ∧ Takes e.path z then none else s.families.get z) ∧
      ∀ k, (resolve f s e false).catalog.get k =
        if e.what = .create ∧ (s.catalog.get k).any (namesCf (toCfName e.path)) then none else s.catalog.get k := by
  cases hWhat : e.what with
  | drop => simp [resolve, hWhat, eraseRecord_families, eraseRecord_catalog]
  | create =>
    simp only [resolve, hWhat, reduceCtorEq, decide_false, if_true, hRemove, eraseRecord_families, eraseRecord_catalog,
      dropTableCfsNow, true_and]
    exact ⟨get_drop_takes e.path s.families, get_fkPurgeCatalog (toCfName e.path) s.catalog⟩

theorem recordSurvived_of_lost {log : List (Entry Str)} {k : Key} (h : ∀ r ∈ log, r.key ≠ k) :
    recordSurvived f log k = false := by
  rw [Bool.eq_false_iff]
  intro hSurvived
  obtain ⟨-, r, hr, hKey⟩ := (DdlDeferred.recordSurvived_eq_true_iff f log k).mp hSurvived
  exact h r hr hKey

section

variable (es : List (Entry Str))

theorem resolveAll_cons_lost (hLost : ∀ e' ∈ e :: es, ∀ r ∈ s.log, r.key ≠ e'.key) :
    resolveAll f (recordSurvived f) (e :: es) s = resolveAll f (recordSurvived f) es (resolve f s e false) ∧
      ∀ e' ∈ es, ∀ r ∈ (resolve f s e false).log, r.key ≠ e'.key := by
  have hHead := recordSurvived_of_lost f (hLost e mem_cons_self)
  refine ⟨?_, fun e' he' r hr => hLost e' (mem_cons_of_mem e he') r (mem_of_mem_resolve f hr)⟩
  rw [resolveAll, foldl_cons, hHead]
  rfl

theorem families_resolveAll_lost (hRemove : ∀ k, f.removeOk k = true) (hLost : ∀ e ∈ es, ∀ r ∈ s.log, r.key ≠ e.key)
    (z : Str) : (resolveAll f (recordSurvived f) es s).families.get z =
      if ∃ e ∈ es, e.what = .create ∧ Takes e.path z then none else s.families.get z := by
  induction es generalizing s with
  | nil => simp [resolveAll]
  | cons e es ih =>
    obtain ⟨hCons, hRest⟩ := resolveAll_cons_lost f es hLost
    rw [hCons, ih hRest, (resolve_lost f (hRemove e.key)).1 z]
    by_cases hHead : e.what = .create ∧ Takes e.path z
    · simp [hHead]
    · simp [hHead]

theorem catalog_resolveAll_lost (hRemove : ∀ k, f.removeOk k = true) (hLost : ∀ e ∈ es, ∀ r ∈ s.log, r.key ≠ e.key)
    (k : Str) : (resolveAll f (recordSurvived f) es s).catalog.get k =
      if ∃ e ∈ es, e.what = .create ∧ (s.catalog.get k).any (namesCf (toCfName e.path)) = true then none
      else s.catalog.get k := by
  induction es generalizing s with
  | nil => simp [resolveAll]
  | cons e es ih =>
    obtain ⟨hCons, hRest⟩ := resolveAll_cons_lost f es hLost
    rw [hCons, ih hRest, (resolve_lost f (hRemove e.key)).2 k]
    by_cases hHead : e.what = .create ∧ (s.catalog.get k).any (namesCf (toCfName e.path)) = true
    · simp [hHead]
    · simp [hHead]

end

theorem recover_of_own (h : ∀ r ∈ s.log, r.key.boot = s.boot) : recover f s = s := by
  have hNone : (s.log.filter fun e => e.key.boot ≠ s.boot) = [] := by
    refine filter_eq_nil_iff.mpr fun r hr => ?_
    simp [h r hr]
  rw [recover, hNone]
  split
  · rfl
  · rfl

theorem rolledBack_eq {recovered : Bool} (h : recovered = true ∨ ∀ r ∈ s.log, r.key.boot = s.boot) :
    rolledBack f recovered s = resolveAll f (recordSurvived f) s.stmtRecords
      { s with txn := [], stmtRecords := [] } := by
  rw [rolledBack, postDdl]
  cases recovered with
  | true => rfl
  | false =>
    have hOwn := h.resolve_left Bool.false_ne_true
    have hRecover := recover_of_own f (s := ({ s with txn := [] } : Stmt γ ρ)) hOwn
    rw [if_neg Bool.false_ne_true, hRecover]

theorem Undoable.lost {s₀ s : Stmt γ ρ} (h : Undoable s₀ s) (hBegun : Begun s₀) :
    ∀ e ∈ s.stmtRecords, ∀ r ∈ s.log, r.key ≠ e.key := by
  intro e he r hr hKey
  rw [h.log] at hr
  obtain ⟨hBoot, hSeq⟩ := h.own e he
  have hBelow := hBegun.counted r hr (hKey ▸ hBoot)
  rw [hKey] at hBelow
  omega

theorem Undoable.restores {s₀ s : Stmt γ ρ} (h : Undoable s₀ s) (hBegun : Begun s₀)
    (hRemove : ∀ k, f.removeOk k = true) {recovered : Bool}
    (hOwn : recovered = true ∨ ∀ r ∈ s₀.log, r.key.boot = s₀.boot) :
    (∀ z, (rolledBack f recovered s).families.get z = s₀.families.get z) ∧
      ∀ k, (rolledBack f recovered s).catalog.get k = s₀.catalog.get k := by
  rw [← h.log, ← h.boot] at hOwn
  have hLost : ∀ e ∈ s.stmtRecords, ∀ r ∈ ({ s with txn := [], stmtRecords := [] } : Stmt γ ρ).log, r.key ≠ e.key :=
    h.lost hBegun
  rw [rolledBack_eq f hOwn]
  refine ⟨fun z => ?_, fun k => ?_⟩
  · rw [families_resolveAll_lost f _ hRemove hLost]
    split
    · rename_i hCreated
      exact (h.fresh z hCreated).symm
    · rename_i hCreated
      exact h.kept z hCreated
  · rw [catalog_resolveAll_lost f _ hRemove hLost]
    dsimp only
    cases hGet : s.catalog.get k with
    | none =>
      have hKept := h.keptRecord k fun v hv => by rw [hGet] at hv; cases hv
      simp [← hKept, hGet]
    | some v =>
      by_cases hRecord : CreatedRecord s v
      · rw [h.freshRecord k v hGet hRecord]
        exact if_pos hRecord
      · have hKept := h.keptRecord k fun w hw => by
          rw [hGet] at hw
          cases hw
          exact hRecord
        rw [← hKept, hGet]
        exact if_neg hRecord

/-- A statement is undone at every point at which it may be rolled back when its calls only drop tables and
create tables of which nothing is there. -/
theorem rollback_undoes_ddl (env : Env γ ρ) {s₀ s : Stmt γ ρ} (hBegun : Begun s₀) (hRemove : ∀ k, f.removeOk k = true)
    (recovered : Bool) (hOwn : recovered = true ∨ ∀ r ∈ s₀.log, r.key.boot = s₀.boot)
    (hReach : Reach (step env) (CallOk env) s₀ s) :
    (∀ z, (rolledBack f recovered s).families.get z = s₀.families.get z) ∧
      ∀ k, (rolledBack f recovered s).catalog.get k = s₀.catalog.get k :=
  (undoable_of_reach env hBegun hReach).restores f hBegun hRemove hOwn

end RolledBack

section Samples

def plainEnv : Env (List Nat) Nat where
  newFamily := []
  tableOptionsStore _ c := c
  keyShapeStore _ c := c
  writeAutoIncMeta _ c := c
  keyShapeLoad _ _ := []
  putRow r c := c ++ [r]
  filenameToTablename s := s

def pathT : Str := ['.', '/', 'd', '/', 't']
def pathU : Str := ['.', '/', 'd', '/', 'u']
def pathNew : Str := ['.', '/', 'd', '/', '#', 'n']
def pathOld : Str := ['.', '/', 'd', '/', '#', 'o']

def cfT : Str := ['d', '_', '_', 't']

def oneTable : Stmt (List Nat) Nat where
  families := Store.empty.put cfT [7]
  catalog := Store.empty
  log := []
  txn := []
  stmtRecords := []
  boot := 1
  seq := 0
  rc := none

def plainTable : TableArg := ⟨['d'], ['t'], true, [], [], none, [], 0⟩

def copyAlter : List (Call Nat) :=
  [.create pathNew plainTable true, .copyRows 0 [[(toCfName pathNew, 7)]], .renameTable pathT pathOld,
    .renameTable pathNew pathT]

theorem begun_oneTable : Begun oneTable := ⟨rfl, fun _ h => by cases h⟩

/-- Rolled back before the old table is dropped, the `ALTER` leaves an empty table, and its row under
the name of the old one. -/
theorem rollback_leaves_renamed : Begun oneTable ∧ oneTable.families.get (toCfName pathT) = some [7] ∧
      ∃ s, run (step plainEnv) oneTable copyAlter = some s ∧
        (rolledBack DdlDeferred.allOk true s).families.get (toCfName pathT) = some [] ∧
        (rolledBack DdlDeferred.allOk true s).families.get (toCfName pathOld) = some [7] :=
  ⟨begun_oneTable, rfl, _, rfl, rfl, rfl⟩

def childTable : TableArg where
  db := ['d']
  tableName := ['u']
  optionsOk := true
  fields := [⟨['a'], true⟩]
  keys := [⟨['k'], [⟨['a'], false⟩]⟩]
  primaryKey := none
  foreignKeys := [⟨['f'], [['a']], [], ['t'], [['i']], primaryKeyName, 1, 1⟩]
  autoIncrementValue := 0

def childEntry : FkCatalogEntry :=
  ⟨['f'], toCfName pathU, ['d'], ['u'], [['a']], [1], ['d'], ['t'], cfT, [['i']], ['k'], primaryKeyName, [], 1, 1, 1⟩

theorem childEntry_fits : childEntry.Fits := by
  constructor
  all_goals decide

theorem createOk_childTable : CreateOk plainEnv pathU childTable true oneTable := by
  have hEntries : newEntries plainEnv pathU childTable oneTable = .ok [childEntry] := rfl
  refine ⟨rfl, rfl, by decide, fun es hes e he => ?_, fun z hTakes hThere => ?_, fun k v hv => (by cases hv),
    fun es hes e he k hk v hv => (by cases hv)⟩
  · rw [hEntries] at hes
    cases hes
    rw [mem_singleton.mp he]
    exact childEntry_fits
  · have hName : z = cfT := by
      by_contra hNe
      refine hThere ?_
      rw [oneTable, Store.get_put, if_neg hNe]
      rfl
    rw [hName] at hTakes
    exact absurd hTakes (by decide)

theorem rollback_undoes_ddl_child :
    ∃ s, run (step plainEnv) oneTable [.create pathU childTable true, .deleteTable pathT true] = some s ∧
      (∀ z, (rolledBack DdlDeferred.allOk false s).families.get z = oneTable.families.get z) ∧
      ∀ k, (rolledBack DdlDeferred.allOk false s).catalog.get k = oneTable.catalog.get k := by
  refine ⟨_, rfl, rollback_undoes_ddl DdlDeferred.allOk plainEnv begun_oneTable (fun _ => rfl) false
    (Or.inr fun _ h => by cases h) ?_⟩
  refine Reach.step (.deleteTable pathT true) (Reach.step (.create pathU childTable true) .init ?_ rfl) rfl rfl
  exact fun _ => createOk_childTable

end Samples

end TideSql.AtomicDdl
