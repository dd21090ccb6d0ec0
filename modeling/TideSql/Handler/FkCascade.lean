import TideSql.Lib.Bounded
import TideSql.Handler.ForeignKeys

/-!
# Referential actions

`delete_row` and `update_row` of a parent row run the actions of its constraints before they write their own
change.
-/

namespace TideSql.FkCascade
open KeyCodec SortKey Dml Lib Lib.Bounded ForeignKeys List Function Nat

structure Handle (ι : Type) where
  record0 : Row ι
  record1 : Row ι
  rowBuf : Row ι
  currentPk : Bytes
  fkInCascade : Bool

def Handle.setInCascade {ι : Type} (b : Bool) (c : Handle ι) : Handle ι := { c with fkInCascade := b }

structure State (τ ι : Type) where
  rows : Rows τ ι
  handles : Nat → Handle ι

def State.modify {τ ι : Type} (st : State τ ι) (h : Nat) (f : Handle ι → Handle ι) : State τ ι :=
  { st with handles := update st.handles h (f (st.handles h)) }

inductive HaError where
  | foundDuppKey
  | noReferencedRow
  | rowIsReferenced
  /-- What a check for rows a call is under way for would report. No call of the source makes one. -/
  | rowUnderWay
  deriving DecidableEq, Repr

inductive RowOp where
  | delete
  | update
  deriving DecidableEq, Repr

structure Stmt (τ : Type) where
  /-- The tables of the statement in the order of `next_global`. -/
  opened : List τ
  /-- `TDB_TABLE_WRITABLE_IN_STMT`. -/
  writable : Nat → Bool
  skipUnique : Bool

def RowOp.oldRow {ι : Type} : RowOp → Handle ι → Row ι
  | .delete => Handle.record0
  | .update => Handle.record1

def RowOp.action {τ ι : Type} (op : RowOp) (d : FkDef τ ι) : FkOption :=
  match op with
  | .delete => d.onDelete
  | .update => d.onUpdate

section Model

variable {τ ι β : Type} [DecidableEq τ] [DecidableEq ι] (E : Schema τ ι β) (S : Stmt τ)

def fkFindOpenTable (opened : List τ) (self : Nat) (t : τ) : Option Nat :=
  (range opened.length).find? fun j => decide (self ≤ j) && decide (opened[j]? = some t)

def fkFindChild (h : Nat) (d : FkDef τ ι) : Option Nat :=
  (fkFindOpenTable S.opened h d.child).filter fun ct => S.writable ct

/-- The key columns of the child's record from a record of the parent, which may be the same one. -/
def setFields (d : FkDef τ ι) (h ct : Nat) (src : Handle ι → Row ι) (st : State τ ι) : State τ ι :=
  ((fkParts E d.toFkSpec d.childKeyNo).zip d.refColumns).foldl
    (fun st x => st.modify ct fun c => { c with
      record0 := update c.record0 x.1.col
        (some (E.fieldConv x.1 x.2 ((src (st.handles h) x.2).getD (E.nullValue x.2)))) }) st

def readSame (rows : Rows τ ι) (t : τ) (k : KeyRef) (parts : List (KeyPart ι)) (comp : Bytes) : List (Bytes × Row ι) :=
  match k with
  | .secondary _ =>
    ((tableRows rows t).filter fun x => comp.isPrefixOf (secIdxKey (E.table t) parts x.1 x.2)).insertionSort
      fun x y => secIdxKey (E.table t) parts x.1 x.2 ≤ secIdxKey (E.table t) parts y.1 y.2
  | .primary =>
    if comparableKeyLength parts ≤ comp.length then
      match rows.get (t, comp) with
      | some r => [(comp, r)]
      | none => []
    else
      match ((tableRows rows t).filter fun x => decide (comp ≤ x.1)).insertionSort fun x y => x.1 ≤ y.1 with
      | [] => []
      -- the row the iterator is set on is not compared with the key
      | x :: xs => x :: xs.takeWhile fun y => comp.isPrefixOf y.1

def afterReads (key : List (KeyPart ι)) (read : List (Bytes × Row ι)) (c : Handle ι) : Handle ι :=
  let c := { c with record1 := fun col => if col ∈ key.map KeyPart.col then c.record0 col else c.record1 col }
  match read.getLast? with
  | some x => { c with record0 := x.2, currentPk := x.1 }
  | none => c

def fkCollectChildRefs (d : FkDef τ ι) (ct : Nat) (parts : List (KeyPart ι)) (st : State τ ι) :
    List Bytes × State τ ι :=
  let key := fkParts E d.toFkSpec d.childKeyNo
  let read := readSame E st.rows d.child d.childKeyNo parts
    (makeComparableKey (E.table d.child).sorts key (st.handles ct).record0)
  (read.map fun x => pkFromRecord (E.table d.child) x.1 x.2, st.modify ct (afterReads key read))

abbrev Call (τ ι : Type) := RowOp → τ → Nat → State τ ι → Comp HaError (State τ ι)

def applyRef (call : Call τ ι) (d : FkDef τ ι) (h ct : Nat) (op : RowOp) (ref : Bytes) (st : State τ ι) :
    Comp HaError (State τ ι) :=
  match st.rows.get (d.child, ref) with
  | none => some (none, st)
  | some row =>
    let st := st.modify ct fun c => { c with record0 := row, currentPk := ref }
    let key := fkParts E d.toFkSpec d.childKeyNo
    if op.action d = .setNull then
      call .update d.child ct (st.modify ct fun c => { c with
        record1 := c.record0
        record0 := fun col => if col ∈ key.map KeyPart.col then none else c.record0 col })
    else
      match op with
      | .delete => call .delete d.child ct st
      | .update =>
        call .update d.child ct
          (setFields E d h ct Handle.record0 (st.modify ct fun c => { c with record1 := c.record0 }))

def fkApplyCascade (call : Call τ ι) (d : FkDef τ ι) (h ct : Nat) (op : RowOp) (refs : List Bytes)
    (st : State τ ι) : Comp HaError (State τ ι) :=
  lastly (walk (applyRef E call d h ct op) refs (st.modify ct (.setInCascade true))) fun st =>
    st.modify ct (.setInCascade false)

def restrict (d : FkDef τ ι) (oldRow : Row ι) (st : State τ ι) : Comp HaError (State τ ι) :=
  if fkChildRefExists E st.rows d oldRow then some (some .rowIsReferenced, st) else some (none, st)

def fkCascadeChildren (call : Call τ ι) (d : FkDef τ ι) (h : Nat) (op : RowOp) (st : State τ ι) :
    Comp HaError (State τ ι) :=
  match fkFindChild S h d with
  | none => restrict E d (op.oldRow (st.handles h)) st
  | some ct =>
    match keyParts (E.table d.child) d.childKeyNo with
    | none => some (none, st)
    | some parts =>
      let x := fkCollectChildRefs E d ct parts (setFields E d h ct op.oldRow st)
      fkApplyCascade E call d h ct op x.1 x.2

/-- One turn of `fk_enforce_parent_delete` or of `fk_enforce_parent_update`. -/
def fkEnforceParent (call : Call τ ι) (h : Nat) (op : RowOp) (d : FkDef τ ι) (st : State τ ι) :
    Comp HaError (State τ ι) :=
  if op = .update ∧ fkEncodeChildPrefix E d (st.handles h).record1 = fkEncodeChildPrefix E d (st.handles h).record0 then
    some (none, st)
  else if (op.action d).acts then fkCascadeChildren E S call d h op st
  else restrict E d (op.oldRow (st.handles h)) st

def deleteRow (call : Call τ ι) (t : τ) (h : Nat) (st : State τ ι) : Comp HaError (State τ ι) :=
  andThen (walk (fkEnforceParent E S call h .delete) (fkParent E t) st) fun st =>
    some (none, { st with rows := st.rows.drop (t, (st.handles h).currentPk) })

/-- `update_check_unique`, which passes over an index whose key stays the same. -/
def updateCheckUnique (rows : Rows τ ι) (t : τ) (old new : Row ι) (oldPk newPk : Bytes) : Bool :=
  (decide (newPk = oldPk) || (rows.get (t, newPk)).isNone) &&
    (E.table t).indexes.all fun x =>
      match x with
      | .regular true parts =>
        let newKey := makeComparableKey (E.table t).sorts parts new
        anyNull parts new || decide (makeComparableKey (E.table t).sorts parts old = newKey) ||
          (tableRows rows t).all fun x => !newKey.isPrefixOf (secIdxKey (E.table t) parts x.1 x.2)
      | _ => true

def updateRow (call : Call τ ι) (t : τ) (h : Nat) (st : State τ ι) : Comp HaError (State τ ι) :=
  let c := st.handles h
  let newPk := pkFromRecord (E.table t) c.currentPk c.record0
  if !S.skipUnique && !updateCheckUnique E st.rows t c.record1 c.record0 c.currentPk newPk then
    some (some .foundDuppKey, st)
  else if !c.fkInCascade && !fkCheckChild E st.rows t c.record0 then some (some .noReferencedRow, st)
  else
    andThen
      (walk (fkEnforceParent E S call h .update) (fkParent E t) (st.modify h fun c => { c with rowBuf := c.record0 }))
      fun st' =>
        let rows := if newPk = c.currentPk then st'.rows else st'.rows.drop (t, c.currentPk)
        some (none, { st' with rows := rows.put (t, newPk) (st'.handles h).rowBuf }.modify h fun c => { c with
          currentPk := newPk })

def rowCall (call : Call τ ι) : Call τ ι
  | .delete => deleteRow E S call
  | .update => updateRow E S call

/-- `delete_row` and `update_row` with a bound on how deep their calls of each other may be nested. -/
def run : Nat → Call τ ι
  | 0 => fun _ _ _ _ => none
  | n + 1 => rowCall E S (run n)

end Model

section Handles

variable {τ ι : Type} (st : State τ ι) (h : Nat) (f : Handle ι → Handle ι)

@[simp] theorem rows_modify : (st.modify h f).rows = st.rows := rfl

@[simp] theorem handles_modify_self : (st.modify h f).handles h = f (st.handles h) := update_self ..

end Handles

section Samples

inductive Column where
  | id
  | code
  | boss
  deriving DecidableEq, Repr

def tinyPart (nullable : Bool) (col : Column) : KeyPart Column := ⟨⟨col, nullable, .tiny, true, .other, 1⟩, 1, false⟩

def padded : SortStrings Column := ⟨fun _ n v => (v ++ replicate n 0).take n, fun _ n v => by simp⟩

def staffTable : Table Column Unit where
  sorts := padded
  pkParts := some [tinyPart false .id]
  indexes := [.regular true [tinyPart true .code], .regular true [tinyPart true .boss]]
  computeMbr _ := none
  hilbert _ := 0
  buildValue _ := []

def staff (specs : List (FkSpec Unit Column)) : Schema Unit Column Unit where
  table _ := staffTable
  sortString := padded
  fieldConv _ _ v := v
  nullValue _ := [0]
  cfNamed := some
  parentKeyShape _ _ := [true]
  inRange lo hi k := decide (lo ≤ k) && decide (k < hi)
  specs := specs

def selfSpec (col ref : Column) (parentIndex : KeyRef) (onDelete onUpdate : FkOption) : FkSpec Unit Column :=
  ⟨(), (), [col], [ref], parentIndex, onDelete, onUpdate, rfl⟩

def person (id : UInt8) (code boss : Option UInt8) : Row Column
  | .id => some [id]
  | .code => code.map fun v => [v]
  | .boss => boss.map fun v => [v]

def alone : Stmt Unit := ⟨[()], fun _ => true, false⟩

def positioned (rows : Rows Unit Column) (pk : Bytes) (old new : Row Column) : State Unit Column :=
  ⟨rows, fun _ => ⟨new, old, new, pk, false⟩⟩

end Samples

end TideSql.FkCascade
