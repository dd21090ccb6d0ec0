import TideSql.Handler.Dml

/-!
# Foreign keys as the engine records and probes them

`fk_persist_defs` and `fk_load` turn a constraint of the statement into the record both tables enforce.
-/

namespace TideSql.ForeignKeys
open KeyCodec SortKey Dml Lib List

inductive FkOption where
  | undef
  | restrict
  | cascade
  | setNull
  | noAction
  | setDefault
  deriving DecidableEq, Repr

def FkOption.acts (o : FkOption) : Bool := decide (o = .cascade) || decide (o = .setNull)

inductive KeyRef where
  | primary
  | secondary (i : Nat)
  deriving DecidableEq, Repr

section Keys

variable {ι β : Type} [DecidableEq ι] (T : Table ι β)

def keyParts : KeyRef → Option (List (KeyPart ι))
  | .primary => T.pkParts
  | .secondary i =>
    match T.indexes[i]? with
    | some (.regular _ parts) => some parts
    | _ => none

def keyInfo : List KeyRef := .primary :: (range T.indexes.length).map .secondary

def leadsWith (cols : List ι) (k : KeyRef) : Bool :=
  match keyParts T k with
  | some parts => cols.isPrefixOf (parts.map KeyPart.col)
  | none => false

def fkFindCoveringIndex (cols : List ι) : Option KeyRef := (keyInfo T).find? (leadsWith T cols)

end Keys

structure FkSpec (τ ι : Type) where
  child : τ
  parent : τ
  childColumns : List ι
  refColumns : List ι
  parentIndex : KeyRef
  onDelete : FkOption
  onUpdate : FkOption
  length_eq : refColumns.length = childColumns.length

/-- `tdb_fk_def` with what the open of the child and of the parent add to it. -/
structure FkDef (τ ι : Type) extends FkSpec τ ι where
  parentCf : Option τ
  childKeyNo : KeyRef
  parentKeyNo : Option KeyRef
  childNullable : List Bool
  parentNullable : List Bool

structure Schema (τ ι β : Type) where
  table : τ → Table ι β
  /-- `Field::sort_string`; `make_comparable_key` has a form of its own for VARBINARY. -/
  sortString : SortStrings ι
  fieldConv : KeyPart ι → ι → Bytes → Bytes
  nullValue : ι → Bytes
  /-- The table whose family has the name that `path_to_cf_name` makes of the statement's words. -/
  cfNamed : τ → Option τ
  /-- `tdb_fk_parent_key_shape`. -/
  parentKeyShape : τ → KeyRef → List Bool
  /-- Whether an iterator over a range opens the tables that hold a key. -/
  inRange : Bytes → Bytes → Bytes → Bool
  specs : List (FkSpec τ ι)

abbrev Rows (τ ι : Type) := Store (τ × Bytes) (Row ι)

section Catalog

variable {τ ι β : Type} [DecidableEq ι] (E : Schema τ ι β)

def fkParts (spec : FkSpec τ ι) (k : KeyRef) : List (KeyPart ι) :=
  ((keyParts (E.table spec.child) k).getD []).take spec.childColumns.length

/-- One turn of `fk_persist_defs`, and of `fk_load` on both sides. -/
def fkPersistDef (spec : FkSpec τ ι) : Option (FkDef τ ι) :=
  match fkFindCoveringIndex (E.table spec.child) spec.childColumns with
  | none => none
  | some k =>
    if (fkParts E spec k).any KeyPart.desc then none
    else some { spec with
      parentCf := E.cfNamed spec.parent
      childKeyNo := k
      parentKeyNo := (E.cfNamed spec.parent).bind fun p => fkFindCoveringIndex (E.table p) spec.refColumns
      childNullable := (fkParts E spec k).map fun p => p.field.nullable
      parentNullable :=
        match spec.parentIndex, E.cfNamed spec.parent with
        | .secondary i, some p => E.parentKeyShape p (.secondary i)
        | _, _ => [] }

def fkDefs : List (FkDef τ ι) := E.specs.filterMap (fkPersistDef E)

def fkChild [DecidableEq τ] (t : τ) : List (FkDef τ ι) := (fkDefs E).filter fun d => decide (d.child = t)

/-- The constraints that enforcement does not pass over, `parent_key_no` being there. -/
def fkParent [DecidableEq τ] (t : τ) : List (FkDef τ ι) :=
  (fkDefs E).filter fun d => decide (d.parentCf = some t) && d.parentKeyNo.isSome

end Catalog

section Probe

variable {τ ι β : Type} [DecidableEq τ] (E : Schema τ ι β)

def tableRows {τ ι : Type} [DecidableEq τ] (rows : Rows τ ι) (t : τ) : List (Bytes × Row ι) :=
  rows.entries.filterMap fun e => if e.1.1 = t then some (e.1.2, e.2) else none

def idxFamily (rows : Rows τ ι) (t : τ) : KeyRef → Option (List Bytes)
  | .primary => none
  | .secondary i => (keyParts (E.table t) (.secondary i)).map fun parts =>
      (tableRows rows t).map fun x => secIdxKey (E.table t) parts x.1 x.2

/-- Both scans take a key that begins with `comp` and go through the range up to `comp` and one byte more. -/
def rangeHas (comp : Bytes) (keys : List Bytes) : Bool :=
  keys.any fun k => E.inRange comp (comp ++ [0xff]) k && comp.isPrefixOf k

/-- `make_comparable_key` with `fk_ref_nullable`. -/
def fkRefKey (refNullable : List Bool) (S : SortStrings ι) (parts : List (KeyPart ι)) (row : Row ι) : Bytes :=
  parts.zipIdx.flatMap fun x =>
    let span := (if refNullable.getD x.2 false then [sortKeyNotNull] else []) ++
      S.write x.1.field x.1.length ((row x.1.col).getD [])
    if x.1.desc then invertKeyPart span else span

def fkParentPresent (rows : Rows τ ι) (d : FkDef τ ι) (newRow : Row ι) : Bool :=
  match d.parentCf with
  | none => true
  | some p =>
    let comp := fkRefKey d.parentNullable (E.table d.child).sorts (fkParts E d.toFkSpec d.childKeyNo) newRow
    match d.parentIndex with
    | .primary => (rows.get (p, comp)).isSome
    | .secondary i =>
      match idxFamily E rows p (.secondary i) with
      | none => true
      | some keys => rangeHas E comp keys

def anyColumnNull {ι : Type} (cols : List ι) (row : Row ι) : Bool := cols.any fun c => (row c).isNone

/-- `fk_check_child` outside of a cascade: does every constraint let the row pass? -/
def fkCheckChild [DecidableEq ι] (rows : Rows τ ι) (t : τ) (newRow : Row ι) : Bool :=
  (fkChild E t).all fun d => anyColumnNull d.childColumns newRow || fkParentPresent E rows d newRow

def fkParentParts (d : FkDef τ ι) : List (KeyPart ι) :=
  match d.parentCf, d.parentKeyNo with
  | some p, some k => ((keyParts (E.table p) k).getD []).take d.refColumns.length
  | _, _ => []

/-- A descending part and the form for VARBINARY are left out here, as they are in the source. -/
def fkEncodeChildPrefix (d : FkDef τ ι) (row : Row ι) : Bytes :=
  (fkParentParts E d).zipIdx.flatMap fun x =>
    (if d.childNullable.getD x.2 false then [sortKeyNotNull] else []) ++
      E.sortString.write x.1.field x.1.length ((row x.1.col).getD (E.nullValue x.1.col))

def fkChildRefExists (rows : Rows τ ι) (d : FkDef τ ι) (oldRow : Row ι) : Bool :=
  match idxFamily E rows d.child d.childKeyNo with
  | none => false
  | some keys => rangeHas E (fkEncodeChildPrefix E d oldRow) keys

end Probe

section Accepted

variable {τ ι β : Type} [DecidableEq ι] {E : Schema τ ι β} {d : FkDef τ ι}

section

variable (h : d ∈ fkDefs E)
include h

end

variable [DecidableEq τ]

end Accepted

end TideSql.ForeignKeys
