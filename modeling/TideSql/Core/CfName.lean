import TideSql.Lib.Join

/-!
# Column-family names

The engine keeps a table's rows in one column family and each of its secondary indexes in another, and finds
all of them by name.
-/

namespace TideSql.CfName
open Lib.Join List

abbrev Str := List Char

def relPathPrefix : Str := ['.', '/']
def dbTableSep : Str := ['_', '_']
def cfIndexInfix : Str := ['_', '_', 'i', 'd', 'x', '_']
def tempNameMarker : Char := '#'
def tempNameReplacement : Char := '_'

structure TablePath where
  db : Str
  table : Str
  hasDir : Bool
  deriving DecidableEq, Repr

def rsplit (c : Char) : Str → Option (Str × Str)
  | [] => none
  | x :: xs =>
    match rsplit c xs with
    | some (before, after) => some (x :: before, after)
    | none => if x = c then some ([], xs) else none

def splitTablePath (path : Str) : TablePath :=
  let p := if relPathPrefix.isPrefixOf path then path.drop relPathPrefix.length else path
  match rsplit '/' p with
  | none => ⟨[], p, false⟩
  | some (dir, table) =>
    match rsplit '/' dir with
    | none => ⟨dir, table, true⟩
    | some (_, db) => ⟨db, table, true⟩

def substituteMarker (s : Str) : Str :=
  s.map fun c => if c = tempNameMarker then tempNameReplacement else c

def toCfName (path : Str) : Str :=
  let tp := splitTablePath path
  if tp.hasDir then substituteMarker (tp.db ++ dbTableSep ++ tp.table) else tp.table

/-- The name `resolve_idx_cf` looks a secondary index's family up under. -/
def idxCfName (tableCf keyName : Str) : Str := tableCf ++ cfIndexInfix ++ keyName

/-- One component of a server path. The server writes identifiers in its file-name encoding, so
a component is never empty and holds neither kind of slash. -/
structure Component where
  chars : Str
  ne_nil : chars ≠ []
  noSlash : '/' ∉ chars
  noBackslash : '\\' ∉ chars
  deriving DecidableEq

@[ext] structure TableName where
  db : Component
  table : Component
  deriving DecidableEq

namespace TableName

def path (n : TableName) : Str := relPathPrefix ++ n.db.chars ++ ['/'] ++ n.table.chars

def cfDb (n : TableName) : Str := substituteMarker n.db.chars
def cfTable (n : TableName) : Str := substituteMarker n.table.chars

end TableName

theorem rsplit_eq_none_of_notMem (c : Char) (s : Str) (h : c ∉ s) : rsplit c s = none := by
  induction s with
  | nil => rfl
  | cons x xs ih =>
    obtain ⟨hx, hxs⟩ := not_or.mp (mt List.mem_cons.mpr h)
    simp only [rsplit, ih hxs]
    rw [if_neg (Ne.symm hx)]

theorem rsplit_append (c : Char) (s t : Str) (h : c ∉ t) : rsplit c (s ++ c :: t) = some (s, t) := by
  induction s with
  | nil => simp [rsplit, rsplit_eq_none_of_notMem c t h]
  | cons x xs ih => simp [rsplit, ih]

@[simp] theorem substituteMarker_append (s t : Str) :
    substituteMarker (s ++ t) = substituteMarker s ++ substituteMarker t := map_append

@[simp] theorem substituteMarker_sep : substituteMarker dbTableSep = dbTableSep := by decide

theorem splitTablePath_path (n : TableName) : splitTablePath n.path = ⟨n.db.chars, n.table.chars, true⟩ := by
  have hPrefix : relPathPrefix.isPrefixOf n.path = true := by
    simp [TableName.path, relPathPrefix]
  have hDrop : n.path.drop relPathPrefix.length = n.db.chars ++ '/' :: n.table.chars := by
    simp [TableName.path, relPathPrefix]
  simp only [splitTablePath, hPrefix, if_true, hDrop, rsplit_append '/' _ _ n.table.noSlash,
    rsplit_eq_none_of_notMem '/' _ n.db.noSlash]

theorem toCfName_path (n : TableName) : toCfName n.path = n.cfDb ++ (dbTableSep ++ n.cfTable) := by
  simp [toCfName, splitTablePath_path, TableName.cfDb, TableName.cfTable, append_assoc]

/-- What owns a column family: a table's rows, or one secondary index of a table. -/
inductive StorageObject where
  | data (n : TableName)
  | index (n : TableName) (keyName : Str)
  deriving DecidableEq

namespace StorageObject

def owner : StorageObject → TableName
  | data n => n
  | index n _ => n

def familyName : StorageObject → Str
  | data n => toCfName n.path
  | index n keyName => idxCfName (toCfName n.path) keyName

def tail : StorageObject → Str
  | data n => n.cfTable
  | index n keyName => n.cfTable ++ (cfIndexInfix ++ keyName)

theorem familyName_eq (o : StorageObject) : o.familyName = o.owner.cfDb ++ (dbTableSep ++ o.tail) := by
  cases o with
  | data n => exact toCfName_path n
  | index n keyName =>
    simp only [familyName, idxCfName, toCfName_path, owner, tail, append_assoc]

end StorageObject

/-- A database and table name cut one separator further right. The separator overlaps itself
in one character, so a single underscore may move across it too. -/
inductive DbCutRight (d t d' t' : Str) : Prop where
  | overlap : d' = d ++ ['_'] → t = '_' :: t' → DbCutRight d t d' t'
  | whole (x : Str) : d' = d ++ (dbTableSep ++ x) → t = x ++ (dbTableSep ++ t') → DbCutRight d t d' t'

inductive IdxCutRight (t k t' k' : Str) : Prop where
  | overlap : t' = t ++ ['_', '_', 'i', 'd', 'x'] → k = ['_', 'i', 'd', 'x', '_'] ++ k' →
      IdxCutRight t k t' k'
  | whole (x : Str) : t' = t ++ (cfIndexInfix ++ x) → k = x ++ (cfIndexInfix ++ k') →
      IdxCutRight t k t' k'

theorem shift_dbTableSep_iff (d t d' t' : Str) : Shift dbTableSep d t d' t' ↔ DbCutRight d t d' t' := by
  constructor
  · rintro ⟨w, hw, hLeft, hBlock⟩
    rcases block_cases hBlock with ⟨x, rfl, hRight⟩ | ⟨r, hr, hSep, hRight⟩
    · exact .whole x hLeft hRight
    · rcases w with _ | ⟨c, _ | ⟨c', w⟩⟩
      · exact absurd rfl hw
      · simp only [dbTableSep, cons_append, nil_append, List.cons.injEq] at hSep
        obtain ⟨rfl, rfl⟩ := hSep
        exact .overlap hLeft (by simpa [dbTableSep] using hRight)
      · simp_all [dbTableSep]
  · rintro (⟨hLeft, hRight⟩ | ⟨x, hLeft, hRight⟩)
    · exact ⟨['_'], by simp, hLeft, by simp [dbTableSep, hRight]⟩
    · exact ⟨dbTableSep ++ x, by simp [dbTableSep], hLeft, by simp [hRight]⟩

theorem shift_cfIndexInfix_iff (t k t' k' : Str) : Shift cfIndexInfix t k t' k' ↔ IdxCutRight t k t' k' := by
  constructor
  · rintro ⟨w, hw, hLeft, hBlock⟩
    rcases block_cases hBlock with ⟨x, rfl, hRight⟩ | ⟨r, hr, hInfix, hRight⟩
    · exact .whole x hLeft hRight
    · -- only the last character of the infix is also its first
      rcases w with _ | ⟨c₁, _ | ⟨c₂, _ | ⟨c₃, _ | ⟨c₄, _ | ⟨c₅, _ | ⟨c₆, w⟩⟩⟩⟩⟩⟩
      · exact absurd rfl hw
      · simp_all [cfIndexInfix]
      · simp_all [cfIndexInfix]
      · simp_all [cfIndexInfix]
      · simp_all [cfIndexInfix]
      · simp only [cfIndexInfix, cons_append, nil_append, List.cons.injEq] at hInfix
        obtain ⟨rfl, rfl, rfl, rfl, rfl, rfl⟩ := hInfix
        exact .overlap hLeft (by simpa [cfIndexInfix] using hRight)
      · simp_all [cfIndexInfix]
  · rintro (⟨hLeft, hRight⟩ | ⟨x, hLeft, hRight⟩)
    · exact ⟨['_', '_', 'i', 'd', 'x'], by simp, hLeft, by simp [cfIndexInfix, hRight]⟩
    · exact ⟨cfIndexInfix ++ x, by simp [cfIndexInfix], hLeft, by simp [hRight]⟩

def TailClash : StorageObject → StorageObject → Prop
  | .data n, .data n' => n.cfTable = n'.cfTable
  | .data n, .index n' k' => n.cfTable = n'.cfTable ++ (cfIndexInfix ++ k')
  | .index n k, .data n' => n'.cfTable = n.cfTable ++ (cfIndexInfix ++ k)
  | .index n k, .index n' k' => (n.cfTable = n'.cfTable ∧ k = k') ∨
      IdxCutRight n.cfTable k n'.cfTable k' ∨ IdxCutRight n'.cfTable k' n.cfTable k

/-- The joined name of one object can also be cut into the other object's components. -/
def Ambiguous (o o' : StorageObject) : Prop :=
  (o.owner.cfDb = o'.owner.cfDb ∧ TailClash o o') ∨ DbCutRight o.owner.cfDb o.tail o'.owner.cfDb o'.tail ∨
    DbCutRight o'.owner.cfDb o'.tail o.owner.cfDb o.tail

theorem tail_eq_iff (o o' : StorageObject) : o.tail = o'.tail ↔ TailClash o o' := by
  cases o with
  | data n =>
    cases o' with
    | data n' | index n' k' => exact Iff.rfl
  | index n k =>
    cases o' with
    | data n' => exact eq_comm
    | index n' k' =>
      rw [StorageObject.tail, StorageObject.tail, join_eq_iff, shift_cfIndexInfix_iff,
        shift_cfIndexInfix_iff, TailClash]

theorem familyName_eq_iff (o o' : StorageObject) : o.familyName = o'.familyName ↔ Ambiguous o o' := by
  rw [o.familyName_eq, o'.familyName_eq, join_eq_iff, shift_dbTableSep_iff, shift_dbTableSep_iff,
    tail_eq_iff, Ambiguous]

/-- Two distinct objects have storage of their own exactly when neither name can be cut into the
other's components. -/
theorem distinct_families_iff (o o' : StorageObject) (_hNe : o ≠ o') : o.familyName ≠ o'.familyName ↔ ¬Ambiguous o o' :=
  not_congr (familyName_eq_iff o o')

def dbA : Component := ⟨['a'], by decide, by decide, by decide⟩
def dbAB : Component := ⟨['a', '_', '_', 'b'], by decide, by decide, by decide⟩
def tableB : Component := ⟨['b'], by decide, by decide, by decide⟩
def tableC : Component := ⟨['c'], by decide, by decide, by decide⟩
def tableBC : Component := ⟨['b', '_', '_', 'c'], by decide, by decide, by decide⟩

theorem distinct_families_ab_ac :
    (StorageObject.data ⟨dbA, tableB⟩).familyName ≠ (StorageObject.data ⟨dbA, tableC⟩).familyName ↔
      ¬Ambiguous (.data ⟨dbA, tableB⟩) (.data ⟨dbA, tableC⟩) :=
  distinct_families_iff _ _ (by decide)

/-- Table `b__c` of database `a` and table `c` of database `a__b` share one family. -/
theorem shared_family_cut_right : StorageObject.data ⟨dbA, tableBC⟩ ≠ StorageObject.data ⟨dbAB, tableC⟩ ∧
      (StorageObject.data ⟨dbA, tableBC⟩).familyName = (StorageObject.data ⟨dbAB, tableC⟩).familyName := by
  decide

end TideSql.CfName
