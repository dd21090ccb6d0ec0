import TideSql.Core.CfName
import TideSql.Lib.Reader
import TideSql.Lib.Store
import Mathlib.Data.List.Sort

/-!
# The foreign-key catalog

One family holds the constraints of all tables.
-/

namespace TideSql.FkCatalog
open CfName Lib Reader List

structure FkCatalogEntry where
  name : Str
  childCf : Str
  childDb : Str
  childTable : Str
  childColumns : List Str
  childNullable : List UInt8
  refDb : Str
  refTable : Str
  parentCf : Str
  refColumns : List Str
  childIndexName : Str
  parentIndexName : Str
  parentNullable : List UInt8
  parentIsPk : UInt8
  onDelete : UInt8
  onUpdate : UInt8
  deriving DecidableEq

section Serialization

def fkSerVersion : UInt8 := 2

def toChar (b : UInt8) : Char := Char.ofNat b.toNat

def ofChar (c : Char) : UInt8 := UInt8.ofNat c.toNat

def fkPutLen (n : Nat) : Str := [Char.ofNat (n % 256), Char.ofNat (n / 256 % 256)]

def fkPutStr (s : Str) : Str := fkPutLen s.length ++ s

def fkPutNames (v : List Str) : Str := fkPutLen v.length ++ v.flatMap fkPutStr

def fkPutBytes (v : List UInt8) : Str := fkPutLen v.length ++ v.map toChar

def fkGetLen : Reader Char Nat := do
  let lo ← item
  let hi ← item
  return (ofChar lo).toNat + 256 * (ofChar hi).toNat

def fkGetStr : Reader Char Str := do
  let n ← fkGetLen
  take n

def fkGetNames : Reader Char (List Str) := do
  let n ← fkGetLen
  times fkGetStr n

def fkGetByte : Reader Char UInt8 := do
  let c ← item
  return ofChar c

def fkGetBytes : Reader Char (List UInt8) := do
  let n ← fkGetLen
  times fkGetByte n

def fkSerialize (e : FkCatalogEntry) : Str :=
  toChar fkSerVersion :: (fkPutStr e.name ++ (fkPutStr e.childCf ++ (fkPutStr e.childDb ++ (fkPutStr e.childTable ++
    (fkPutNames e.childColumns ++ (fkPutStr e.refDb ++ (fkPutStr e.refTable ++ (fkPutStr e.parentCf ++
    (fkPutNames e.refColumns ++ (fkPutStr e.childIndexName ++ (fkPutStr e.parentIndexName ++
    ([toChar e.parentIsPk] ++ ([toChar e.onDelete] ++ ([toChar e.onUpdate] ++
    (fkPutBytes e.childNullable ++ (fkPutBytes e.parentNullable ++ []))))))))))))))))

def fkReadEntry : Reader Char FkCatalogEntry := do
  let name ← fkGetStr
  let childCf ← fkGetStr
  let childDb ← fkGetStr
  let childTable ← fkGetStr
  let childColumns ← fkGetNames
  let refDb ← fkGetStr
  let refTable ← fkGetStr
  let parentCf ← fkGetStr
  let refColumns ← fkGetNames
  let childIndexName ← fkGetStr
  let parentIndexName ← fkGetStr
  let parentIsPk ← fkGetByte
  let onDelete ← fkGetByte
  let onUpdate ← fkGetByte
  let childNullable ← fkGetBytes
  let parentNullable ← fkGetBytes
  return { name, childCf, childDb, childTable, childColumns, childNullable, refDb, refTable, parentCf, refColumns
           childIndexName, parentIndexName, parentNullable, parentIsPk, onDelete, onUpdate }

/-- A record of another version is refused, and what follows a complete record is not looked at. -/
def fkDeserialize : Str → Option FkCatalogEntry
  | [] => none
  | v :: p => if ofChar v = fkSerVersion then (fkReadEntry p).map Prod.fst else none

end Serialization

section Fits

def lenBound : Nat := 65536

def StrFits (s : Str) : Prop := s.length < lenBound

def NamesFit (v : List Str) : Prop := v.length < lenBound ∧ ∀ s ∈ v, StrFits s

instance (s : Str) : Decidable (StrFits s) := inferInstanceAs (Decidable (_ < _))

instance (v : List Str) : Decidable (NamesFit v) := inferInstanceAs (Decidable (_ ∧ _))

structure FkCatalogEntry.Fits (e : FkCatalogEntry) : Prop where
  name : StrFits e.name
  childCf : StrFits e.childCf
  childDb : StrFits e.childDb
  childTable : StrFits e.childTable
  childColumns : NamesFit e.childColumns
  childNullable : e.childNullable.length < lenBound
  refDb : StrFits e.refDb
  refTable : StrFits e.refTable
  parentCf : StrFits e.parentCf
  refColumns : NamesFit e.refColumns
  childIndexName : StrFits e.childIndexName
  parentIndexName : StrFits e.parentIndexName
  parentNullable : e.parentNullable.length < lenBound

theorem toNat_ofChar_ofNat {n : Nat} (h : n < 256) : (ofChar (Char.ofNat n)).toNat = n := by
  have hValid : n.isValidChar := Or.inl (by omega)
  have hNat : (Char.ofNat n).toNat = n := by
    rw [Char.ofNat, dif_pos hValid]
    rfl
  rw [ofChar, hNat, UInt8.toNat_ofNat', Nat.mod_eq_of_lt h]

theorem ofChar_toChar (b : UInt8) : ofChar (toChar b) = b :=
  UInt8.toNat_inj.mp (toNat_ofChar_ofNat b.toNat_lt)

theorem reads_len {n : Nat} (h : n < lenBound) : Reads fkGetLen (fkPutLen n) n := by
  intro rest
  have hLo := toNat_ofChar_ofNat (Nat.mod_lt n (show 256 > 0 by decide))
  have hHi := toNat_ofChar_ofNat (Nat.mod_lt (n / 256) (show 256 > 0 by decide))
  rw [lenBound] at h
  have hSum : n % 256 + 256 * (n / 256 % 256) = n := by omega
  change some ((ofChar (Char.ofNat (n % 256))).toNat + 256 * (ofChar (Char.ofNat (n / 256 % 256))).toNat, rest) = _
  rw [hLo, hHi, hSum]

theorem reads_str {s : Str} (h : StrFits s) : Reads fkGetStr (fkPutStr s) s :=
  (reads_len h).bind (reads_take rfl)

theorem reads_names {v : List Str} (h : NamesFit v) : Reads fkGetNames (fkPutNames v) v :=
  (reads_len h.1).bind (reads_times v fun s hs => reads_str (h.2 s hs))

theorem reads_byte (b : UInt8) : Reads fkGetByte [toChar b] b := by
  have hByte : Reads fkGetByte [toChar b] (ofChar (toChar b)) := (reads_item (toChar b)).bind (Reads.pure _)
  rwa [ofChar_toChar] at hByte

theorem reads_bytes {v : List UInt8} (h : v.length < lenBound) : Reads fkGetBytes (fkPutBytes v) v := by
  have hMap : v.map toChar = v.flatMap fun b => [toChar b] := (flatMap_pure_eq_map toChar v).symm
  rw [fkPutBytes, hMap]
  exact (reads_len h).bind (reads_times v fun b _ => reads_byte b)

theorem fkDeserialize_fkSerialize {e : FkCatalogEntry} (h : e.Fits) : fkDeserialize (fkSerialize e) = some e := by
  have hReads : Reads fkReadEntry (fkSerialize e).tail e := by
    refine (reads_str h.name).bind ?_
    refine (reads_str h.childCf).bind ?_
    refine (reads_str h.childDb).bind ?_
    refine (reads_str h.childTable).bind ?_
    refine (reads_names h.childColumns).bind ?_
    refine (reads_str h.refDb).bind ?_
    refine (reads_str h.refTable).bind ?_
    refine (reads_str h.parentCf).bind ?_
    refine (reads_names h.refColumns).bind ?_
    refine (reads_str h.childIndexName).bind ?_
    refine (reads_str h.parentIndexName).bind ?_
    refine (reads_byte e.parentIsPk).bind ?_
    refine (reads_byte e.onDelete).bind ?_
    refine (reads_byte e.onUpdate).bind ?_
    refine (reads_bytes h.childNullable).bind ?_
    refine (reads_bytes h.parentNullable).bind ?_
    exact Reads.pure e
  have hAll := hReads []
  rw [append_nil] at hAll
  change
    (if ofChar (toChar fkSerVersion) = fkSerVersion then (fkReadEntry (fkSerialize e).tail).map Prod.fst else none) = _
  rw [ofChar_toChar, if_pos rfl, hAll, Option.map_some]

end Fits

section Operations

def fkRecChild : Char := 'c'
def fkRecParent : Char := 'p'
def nul : Char := '\x00'

def fkChildKey (childCf name : Str) : Str := fkRecChild :: (childCf ++ nul :: name)

def fkParentKey (parentCf childCf name : Str) : Str := fkRecParent :: (parentCf ++ nul :: (childCf ++ nul :: name))

abbrev Catalog := Store Str Str

def keyLe : Str → Str → Bool
  | [], _ => true
  | _ :: _, [] => false
  | a :: as, b :: bs => if a = b then keyLe as bs else decide (a.toNat < b.toNat)

def scan (cat : Catalog) : List (Str × Str) := cat.entries.insertionSort fun a b => keyLe a.1 b.1

def namesCf (cf record : Str) : Bool := (fkDeserialize record).any fun e => e.childCf = cf || e.parentCf = cf

def fkPurgeCatalog (cf : Str) (cat : Catalog) : Catalog :=
  cat.dropAll (((scan cat).filter fun kv => namesCf cf kv.2).map Prod.fst)

def FkCatalogEntry.renamed (oldCf newCf newDb newTable : Str) (e : FkCatalogEntry) : FkCatalogEntry :=
  let e := if e.childCf = oldCf then { e with childCf := newCf, childDb := newDb, childTable := newTable } else e
  if e.parentCf = oldCf then { e with parentCf := newCf, refDb := newDb, refTable := newTable } else e

def FkCatalogEntry.keys (e : FkCatalogEntry) : List Str :=
  [fkChildKey e.childCf e.name, fkParentKey e.parentCf e.childCf e.name]

def FkCatalogEntry.records (e : FkCatalogEntry) : List (Str × Str) := e.keys.map fun k => (k, fkSerialize e)

def constraintsOf (cf : Str) (cat : Catalog) : List FkCatalogEntry :=
  ((scan cat).filter fun kv => kv.1.head? = some fkRecChild && namesCf cf kv.2).filterMap fun kv => fkDeserialize kv.2

/-- Every stale key goes before any fresh one is written. `decode` is the server's
`filename_to_tablename`. -/
def fkRenameCatalog (decode : Str → Str) (source target : Str) (cat : Catalog) : Catalog :=
  let oldCf := toCfName source
  let newCf := toCfName target
  if oldCf = newCf then cat
  else
    let dest := splitTablePath target
    let moved := constraintsOf oldCf cat
    let fresh := moved.map (FkCatalogEntry.renamed oldCf newCf (decode dest.db) (decode dest.table))
    (cat.dropAll (moved.flatMap FkCatalogEntry.keys)).putAll (fresh.flatMap FkCatalogEntry.records)

end Operations

section Definitions

structure FieldDef where
  name : Str
  nullable : Bool

structure KeyPart where
  field : Str
  reverseSort : Bool

structure KeyDef where
  name : Str
  parts : List KeyPart

structure FkSpec where
  name : Str
  childColumns : List Str
  refDb : Str
  refTable : Str
  refColumns : List Str
  parentIndexName : Str
  onDelete : UInt8
  onUpdate : UInt8

/-- What `create` reads of the table. The server's own checks of the option strings are an input. -/
structure TableArg where
  db : Str
  tableName : Str
  optionsOk : Bool
  fields : List FieldDef
  keys : List KeyDef
  primaryKey : Option Nat
  foreignKeys : List FkSpec
  autoIncrementValue : Nat

inductive HaErr where
  | generic
  | unsupported
  | wrongCreateOption
  deriving DecidableEq

structure Reject where
  code : HaErr
  text : String

def fkFindCoveringIndex (keys : List KeyDef) (cols : List Str) : Option KeyDef :=
  keys.find? fun k => cols.isPrefixOf (k.parts.map KeyPart.field)

def fkFieldNullable (fields : List FieldDef) (col : Str) : UInt8 :=
  if (fields.find? fun f => f.name = col).any FieldDef.nullable then 1 else 0

def ibfkInfix : Str := ['_', 'i', 'b', 'f', 'k', '_']

def anonNameLen : Nat := 63

def fkAnonName (tableName : Str) (anon : Nat) : Str := (tableName ++ ibfkInfix ++ Nat.toDigits 10 anon).take anonNameLen

def primaryKeyName : Str := ['p', 'r', 'i', 'm', 'a', 'r', 'y']

def fkParentIsPk (parentIndexName : Str) : Bool :=
  parentIndexName.isEmpty || parentIndexName.map Char.toLower = primaryKeyName

/-- One constraint of the table at `path`. `shape` looks up how a parent stored a key. -/
def fkEntry (shape : Str → Str → List UInt8) (path : Str) (t : TableArg) (name : Str) (spec : FkSpec) :
    Except Reject FkCatalogEntry :=
  let refDb := if spec.refDb.isEmpty then t.db else spec.refDb
  let parentCf := toCfName (relPathPrefix ++ refDb ++ ['/'] ++ spec.refTable)
  match fkFindCoveringIndex t.keys spec.childColumns with
  | none => .error ⟨.unsupported, "TidesDB requires an index on the foreign key columns of " ++ String.ofList name⟩
  | some k =>
    if (k.parts.take spec.childColumns.length).any KeyPart.reverseSort then
      .error ⟨.unsupported, "TidesDB does not support a descending column in the foreign key " ++ String.ofList name⟩
    else
      .ok {
        name, childCf := toCfName path, childDb := t.db, childTable := t.tableName
        childColumns := spec.childColumns, childNullable := spec.childColumns.map (fkFieldNullable t.fields)
        refDb, refTable := spec.refTable, parentCf, refColumns := spec.refColumns
        childIndexName := k.name, parentIndexName := spec.parentIndexName
        parentNullable := if fkParentIsPk spec.parentIndexName then [] else shape parentCf spec.parentIndexName
        parentIsPk := if fkParentIsPk spec.parentIndexName then 1 else 0
        onDelete := spec.onDelete, onUpdate := spec.onUpdate }

def fkEntries (shape : Str → Str → List UInt8) (path : Str) (t : TableArg) :
    List FkSpec → Nat → Except Reject (List FkCatalogEntry)
  | [], _ => .ok []
  | spec :: specs, anon =>
    let anon := if spec.name.isEmpty then anon + 1 else anon
    let name := if spec.name.isEmpty then fkAnonName t.tableName anon else spec.name
    match fkEntry shape path t name spec with
    | .error r => .error r
    | .ok e =>
      match fkEntries shape path t specs anon with
      | .error r => .error r
      | .ok es => .ok (e :: es)

/-- The records of all constraints are put in one transaction, so none is when one is rejected. -/
def fkPersistDefs (shape : Str → Str → List UInt8) (path : Str) (t : TableArg) (cat : Catalog) :
    Except Reject Catalog :=
  match fkEntries shape path t t.foreignKeys 0 with
  | .error r => .error r
  | .ok es => .ok (cat.putAll (es.flatMap FkCatalogEntry.records))

end Definitions

section Purge

theorem mem_scan_iff (cat : Catalog) (k v : Str) : (k, v) ∈ scan cat ↔ cat.get k = some v := by
  rw [scan, mem_insertionSort]
  exact cat.mem_entries_iff k v

theorem get_fkPurgeCatalog (cf : Str) (cat : Catalog) (k : Str) :
    (fkPurgeCatalog cf cat).get k = if (cat.get k).any (namesCf cf) then none else cat.get k := by
  have hTaken : k ∈ ((scan cat).filter fun kv => namesCf cf kv.2).map Prod.fst ↔
    (cat.get k).any (namesCf cf) = true := by
    simp only [mem_map, mem_filter, Prod.exists, exists_and_right, exists_eq_right, mem_scan_iff]
    cases cat.get k with
    | none | some v => simp
  rw [fkPurgeCatalog, Store.get_dropAll]
  simp only [hTaken]

theorem fkRenameCatalog_of_unnamed (decode : Str → Str) {source target : Str} {cat : Catalog}
    (h : constraintsOf (toCfName source) cat = []) : fkRenameCatalog decode source target cat = cat := by
  rw [fkRenameCatalog]
  simp only [h]
  split
  · rfl
  · rfl

end Purge

section Persist

variable (shape : Str → Str → List UInt8) (path : Str) (t : TableArg)

def Accepted (spec : FkSpec) : Prop :=
  (fkFindCoveringIndex t.keys spec.childColumns).any fun k =>
    !(k.parts.take spec.childColumns.length).any KeyPart.reverseSort

instance (spec : FkSpec) : Decidable (Accepted t spec) := inferInstanceAs (Decidable (_ = true))

theorem fkEntry_isOk_iff (name : Str) (spec : FkSpec) :
    (∃ e, fkEntry shape path t name spec = .ok e) ↔ Accepted t spec := by
  rw [fkEntry, Accepted]
  cases fkFindCoveringIndex t.keys spec.childColumns with
  | none => simp
  | some k =>
    dsimp only
    split
    · rename_i hDesc
      simp [hDesc]
    · rename_i hAsc
      simp [hAsc]

theorem childCf_of_fkEntry {name : Str} {spec : FkSpec} {e : FkCatalogEntry}
    (h : fkEntry shape path t name spec = .ok e) : e.childCf = toCfName path := by
  rw [fkEntry] at h
  split at h
  · cases h
  · split at h
    · cases h
    · cases h
      rfl

theorem fkEntries_isOk_iff (specs : List FkSpec) (anon : Nat) :
    (∃ es, fkEntries shape path t specs anon = .ok es) ↔ ∀ spec ∈ specs, Accepted t spec := by
  induction specs generalizing anon with
  | nil => simp [fkEntries]
  | cons spec specs ih =>
    rw [forall_mem_cons, fkEntries]
    generalize (if spec.name.isEmpty then anon + 1 else anon) = anon'
    generalize (if spec.name.isEmpty then fkAnonName t.tableName anon' else spec.name) = name
    rw [← fkEntry_isOk_iff shape path t name spec, ← ih anon']
    cases fkEntry shape path t name spec with
    | error r => simp
    | ok e =>
      cases fkEntries shape path t specs anon' with
      | error r | ok es => simp

theorem childCf_of_fkEntries {specs : List FkSpec} {anon : Nat} {es : List FkCatalogEntry}
    (h : fkEntries shape path t specs anon = .ok es) {e : FkCatalogEntry} (he : e ∈ es) :
      e.childCf = toCfName path := by
  induction specs generalizing anon es with
  | nil =>
    cases h
    cases he
  | cons spec specs ih =>
    rw [fkEntries] at h
    split at h
    · cases h
    · rename_i hEntry
      split at h
      · cases h
      · rename_i hRest
        cases h
        obtain rfl | hIn := mem_cons.mp he
        · exact childCf_of_fkEntry shape path t hEntry
        · exact ih hRest hIn

theorem namesCf_fkSerialize {e : FkCatalogEntry} (hFits : e.Fits) : namesCf e.childCf (fkSerialize e) = true := by
  rw [namesCf, fkDeserialize_fkSerialize hFits]
  simp

theorem mem_records_iff (e : FkCatalogEntry) (k v : Str) : (k, v) ∈ e.records ↔ k ∈ e.keys ∧ v = fkSerialize e := by
  rw [FkCatalogEntry.records, mem_map]
  constructor
  · rintro ⟨k', hk', hEq⟩
    cases hEq
    exact ⟨hk', rfl⟩
  · rintro ⟨hk, rfl⟩
    exact ⟨k, hk, rfl⟩

end Persist

end TideSql.FkCatalog
