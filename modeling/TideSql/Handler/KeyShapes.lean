import TideSql.Handler.AtomicDdl

/-!
# The records of how keys were written

A part of a key has a byte for NULL exactly when its column is nullable.
-/

namespace TideSql.KeyShapes
open CfName Lib Lib.Run Lib.Bytes FkCatalog AtomicDdl List Option
open Lifecycle (Families sweep renamedIdx)
open DdlDeferred (Takes Apart apart_of_not_prefix get_drop_takes)

def keyshapeMetaPrefix : Str := [nul, 'K', 'S', 'H', 'P']
def optionsMetaKey : Str := [nul, 'O', 'P', 'T', 'S']
def autoincMetaKey : Str := [nul, 'A', 'I', 'N', 'C']
def keyshapeVersion : UInt8 := 1

abbrev Records := Store Str (List UInt8)

section Records

def keyShapeMetaKey (indexName : Str) : Str := keyshapeMetaPrefix ++ indexName

/-- A part without a field, as the server may hand one to the engine, counts as not nullable. -/
def partByte (field : Option Bool) : UInt8 := if field = some true then 1 else 0

/-- `ok` tells whether the put commits; the caller is not told. -/
def tdbKeyShapeStore (indexName : Str) (parts : List (Option Bool)) (ok : Bool) (m : Records) : Records :=
  if indexName.isEmpty then m
  else if ok then
    m.put (keyShapeMetaKey indexName)
      (keyshapeVersion :: (toLE 2 parts.length ++ (parts.take (parts.length % 65536)).map partByte))
  else m

def tdbKeyShapeLoad (indexName : Str) (m : Records) : Option (List UInt8) :=
  if indexName.isEmpty then none
  else
    match m.get (keyShapeMetaKey indexName) with
    | some (version :: lo :: hi :: rest) =>
      if version = keyshapeVersion ∧ lo.toNat + 256 * hi.toNat ≤ rest.length then
        some (rest.take (lo.toNat + 256 * hi.toNat))
      else none
    | _ => none

theorem tdbKeyShapeLoad_store {name : Str} {parts : List (Option Bool)} (hName : name ≠ [])
    (hParts : parts.length < 65536) (m : Records) :
    tdbKeyShapeLoad name (tdbKeyShapeStore name parts true m) = some (parts.map partByte) := by
  have hFilled : name.isEmpty = false := by simpa using hName
  have hLen : toLE 2 parts.length = [UInt8.ofNat parts.length, UInt8.ofNat (parts.length / 256)] := by
    simp [toLE, toBE]
  have hCount : (UInt8.ofNat parts.length).toNat + 256 * (UInt8.ofNat (parts.length / 256)).toNat = parts.length := by
    rw [UInt8.toNat_ofNat', UInt8.toNat_ofNat']
    omega
  simp only [tdbKeyShapeLoad, tdbKeyShapeStore, hFilled, Bool.false_eq_true, if_false, if_true, Store.get_put, hLen,
    cons_append, nil_append, hCount, Nat.mod_eq_of_lt hParts, take_length, length_map, true_and,
    Nat.le_refl]
  rw [← length_map partByte, take_length]

theorem tdbKeyShapeLoad_store_of_ne {name other : Str} (h : name ≠ other) (parts : List (Option Bool)) (ok : Bool)
    (m : Records) : tdbKeyShapeLoad name (tdbKeyShapeStore other parts ok m) = tdbKeyShapeLoad name m := by
  have hKey : keyShapeMetaKey name ≠ keyShapeMetaKey other := fun hEq => h (append_cancel_left hEq)
  rw [tdbKeyShapeStore]
  split
  · rfl
  · split
    · rw [tdbKeyShapeLoad, tdbKeyShapeLoad, Store.get_put, if_neg hKey]
    · rfl

theorem tdbKeyShapeLoad_put {key : Str} (h : ¬keyshapeMetaPrefix <+: key) (name : Str) (v : List UInt8) (m : Records) :
    tdbKeyShapeLoad name (m.put key v) = tdbKeyShapeLoad name m := by
  have hKey : keyShapeMetaKey name ≠ key := by
    rintro rfl
    exact h (prefix_append _ _)
  rw [tdbKeyShapeLoad, tdbKeyShapeLoad, Store.get_put, if_neg hKey]

def storeAll (putOk : Str → Bool) (es : List (Str × List (Option Bool))) (m : Records) : Records :=
  es.foldl (fun m e => tdbKeyShapeStore e.1 e.2 (putOk e.1) m) m

theorem load_storeAll_of_notMem {putOk : Str → Bool} {es : List (Str × List (Option Bool))} {name : Str}
    (h : name ∉ es.map Prod.fst) (m : Records) :
    tdbKeyShapeLoad name (storeAll putOk es m) = tdbKeyShapeLoad name m := by
  induction es generalizing m with
  | nil => rfl
  | cons e es ih =>
    rw [map_cons, mem_cons, not_or] at h
    rw [storeAll, foldl_cons]
    exact (ih h.2 _).trans (tdbKeyShapeLoad_store_of_ne h.1 e.2 _ m)

theorem load_storeAll {putOk : Str → Bool} {es : List (Str × List (Option Bool))} (hNodup : (es.map Prod.fst).Nodup)
    (hOk : ∀ n, putOk n = true) {e : Str × List (Option Bool)} (he : e ∈ es) (hName : e.1 ≠ [])
    (hParts : e.2.length < 65536) (m : Records) :
    tdbKeyShapeLoad e.1 (storeAll putOk es m) = some (e.2.map partByte) := by
  induction es generalizing m with
  | nil => cases he
  | cons e' es ih =>
    obtain ⟨hFresh, hTail⟩ := nodup_cons.mp hNodup
    rw [storeAll, foldl_cons]
    obtain rfl | hIn := mem_cons.mp he
    · rw [hOk]
      exact (load_storeAll_of_notMem hFresh _).trans (tdbKeyShapeLoad_store hName hParts m)
    · exact ih hTail hIn _

end Records

section System

structure IndexDef where
  name : Str
  nullable : List Bool
  madeAs : Str
  deriving DecidableEq

def IndexDef.shape (x : IndexDef) : List UInt8 := x.nullable.map fun b => if b then 1 else 0

structure AddedKey where
  name : Str
  nullable : List Bool
  fieldSet : Bool

def AddedKey.index (a : AddedKey) : IndexDef := ⟨a.name, a.nullable, a.name⟩

def AddedKey.parts (a : AddedKey) : List (Option Bool) := a.nullable.map fun b => if a.fieldSet then some b else none

structure State where
  families : Families Records
  tables : Store Str (List IndexDef)

def init : State := ⟨Store.empty, Store.empty⟩

def maxRefParts : Nat := 16

def ServerKeys (defs : List IndexDef) : Prop :=
  (defs.map IndexDef.name).Nodup ∧ ∀ x ∈ defs, x.name ≠ [] ∧ x.nullable.length ≤ maxRefParts

instance (defs : List IndexDef) : Decidable (ServerKeys defs) := inferInstanceAs (Decidable (_ ∧ _))

def columnNullable (t : TableArg) (k : KeyDef) : List Bool :=
  k.parts.map fun p => (t.fields.find? fun f => f.name = p.field).any FieldDef.nullable

def definedBy (t : TableArg) : List IndexDef := (secondaryKeys t).map fun k => ⟨k.name, columnNullable t k, k.name⟩

/-- What the calls of `create` for the table write. The text of the options is given. -/
def shapeEnv (optionsText : List UInt8) (putOk : Str → Bool) (t : TableArg) : Env Records Unit where
  newFamily := Store.empty
  tableOptionsStore _ m := m.put optionsMetaKey optionsText
  keyShapeStore k m := tdbKeyShapeStore k.name ((columnNullable t k).map some) (putOk k.name) m
  writeAutoIncMeta n m := m.put autoincMetaKey (toBE 8 n)
  keyShapeLoad name m := (tdbKeyShapeLoad name m).getD []
  putRow _ m := m
  filenameToTablename := id

def prepareAdd (cf : Str) (putOk : Str → Bool) (fs : Families Records) (a : AddedKey) : Families Records :=
  ((fs.drop (idxCfName cf a.name)).put (idxCfName cf a.name) Store.empty).modify cf
    (tdbKeyShapeStore a.name a.parts (putOk a.name))

def recreateIndex (cf : Str) (fs : Families Records) (x : IndexDef) : Families Records :=
  if (fs.get (idxCfName cf x.name)).isSome then
    (fs.drop (idxCfName cf x.name)).put (idxCfName cf x.name) Store.empty
  else fs

/-- The families are those `open` found for the indexes of the definition. -/
def deleteAllRows (optionsText : List UInt8) (cf : Str) (defs : List IndexDef) (fs : Families Records) :
    Families Records :=
  defs.foldl (recreateIndex cf) ((fs.drop cf).put cf (Store.empty.put optionsMetaKey optionsText))

/-- A copying ALTER TABLE creates a table, renames two and drops one, and so does the server with a table that is
dropped and created again. -/
inductive Action where
  | create (path : Str) (t : TableArg) (optionsText : List UInt8) (putOk : Str → Bool)
  | alterIndexes (path : Str) (adds : List AddedKey) (drops : List Str) (putOk : Str → Bool) (commit : Bool)
  | renameIndex (path old new : Str)
  | truncate (path : Str) (optionsText : List UInt8)
  | renameTable (source target : Str)
  | dropTable (path : Str)
  | removeFamilies (path : Str)

def alteredDefs (defs : List IndexDef) (adds : List AddedKey) (drops : List Str) : List IndexDef :=
  (defs.filter fun x => x.name ∉ drops) ++ adds.map AddedKey.index

def renamedDefs (defs : List IndexDef) (old new : Str) : List IndexDef :=
  defs.map fun x => if x.name = old then { x with name := new } else x

def step (s : State) : Action → Option State
  | .create path t optionsText putOk =>
    if s.tables.get path = none ∧ t.optionsOk = true ∧ ServerKeys (definedBy t) then
      some ⟨createFamilies (shapeEnv optionsText putOk t) (toCfName path) t s.families, s.tables.put path (definedBy t)⟩
    else none
  | .alterIndexes path adds drops putOk commit =>
    match s.tables.get path with
    | none => none
    | some defs =>
      if ServerKeys (alteredDefs defs adds drops) then
        let fs := adds.foldl (prepareAdd (toCfName path) putOk) s.families
        if commit then
          some ⟨fs.dropAll (drops.map (idxCfName (toCfName path))), s.tables.put path (alteredDefs defs adds drops)⟩
        else some { s with families := fs.dropAll (adds.map fun a => idxCfName (toCfName path) a.name) }
      else none
  | .renameIndex path old new =>
    match s.tables.get path with
    | none => none
    | some defs =>
      -- the engine takes it for a change of the dictionary only
      if ServerKeys (renamedDefs defs old new) then
        some { s with tables := s.tables.put path (renamedDefs defs old new) }
      else none
  | .truncate path optionsText =>
    match s.tables.get path with
    | none => none
    | some defs => some { s with families := deleteAllRows optionsText (toCfName path) defs s.families }
  | .renameTable source target =>
    match s.tables.get source with
    | none => none
    | some defs =>
      if s.tables.get target = none then
        some ⟨Lifecycle.renameTable source target s.families, (s.tables.drop source).put target defs⟩
      else none
  | .dropTable path => if s.tables.get path = none then none else some { s with tables := s.tables.drop path }
  | .removeFamilies path => some { s with families := Lifecycle.dropTableCfsNow path s.families }

def Recorded (s : State) : Prop :=
  ∀ path defs, s.tables.get path = some defs → ∀ x ∈ defs, s.families.get (idxCfName (toCfName path) x.madeAs) ≠ none →
      ∃ m, s.families.get (toCfName path) = some m ∧ tdbKeyShapeLoad x.name m = some x.shape

/-- A foreign key that is declared on such an index takes over how its keys were written. -/
def ShapesFound (s : State) : Prop :=
  ∀ path defs, s.tables.get path = some defs → ∀ x ∈ defs, s.families.get (idxCfName (toCfName path) x.madeAs) ≠ none →
      ∀ optionsText putOk childPath t name spec e,
        fkEntry (fkParentKeyShape (shapeEnv optionsText putOk t) s.families) childPath t name spec = .ok e →
        e.parentCf = toCfName path → e.parentIndexName = x.name → fkParentIsPk x.name = false →
        e.parentNullable = x.shape

def ApartFromOthers (s : State) (path : Str) : Prop :=
  ∀ other, s.tables.get other ≠ none → other ≠ path → Apart path other

def Guard (s : State) : Action → Prop
  | .create path t _ putOk =>
    (∀ n, putOk n = true) ∧ ApartFromOthers s path ∧
      ∀ k ∈ secondaryKeys t, s.families.get (idxCfName (toCfName path) k.name) = none
  | .alterIndexes path adds _ putOk _ =>
    (∀ n, putOk n = true) ∧ ApartFromOthers s path ∧ ∀ a ∈ adds, a.fieldSet = true ∨ true ∉ a.nullable
  | .renameIndex _ _ _ => False
  | .truncate path _ =>
    ApartFromOthers s path ∧ ∀ defs, s.tables.get path = some defs → ∀ x ∈ defs,
      s.families.get (idxCfName (toCfName path) x.name) = none
  | .renameTable source target =>
    ApartFromOthers s source ∧ ApartFromOthers s target ∧ ∀ z, Takes target z → s.families.get z = none
  | .dropTable _ => True
  | .removeFamilies path => s.tables.get path = none ∧ ApartFromOthers s path

end System

section Tables

variable {fs fs' : Families Records} {path : Str} {defs : List IndexDef}

structure TableOk (fs : Families Records) (path : Str) (defs : List IndexDef) : Prop where
  server : ServerKeys defs
  named : ∀ x ∈ defs, x.madeAs = x.name
  data : fs.get (toCfName path) ≠ none
  recorded : ∀ x ∈ defs, fs.get (idxCfName (toCfName path) x.name) ≠ none →
    ∃ m, fs.get (toCfName path) = some m ∧ tdbKeyShapeLoad x.name m = some x.shape

def Inv (s : State) : Prop := ∀ path defs, s.tables.get path = some defs → TableOk s.families path defs

theorem TableOk.congr (h : TableOk fs path defs) (hSame : ∀ z, Takes path z → fs'.get z = fs.get z) :
    TableOk fs' path defs := by
  have hData := hSame _ (takes_data path)
  refine ⟨h.server, h.named, by rw [hData]; exact h.data, fun x hx hSome => ?_⟩
  rw [hSame _ (takes_index path x.name)] at hSome
  rw [hData]
  exact h.recorded x hx hSome

theorem Inv.of_frame {s s' : State} (h : Inv s) (path : Str)
    (hTables : ∀ other, other ≠ path → s'.tables.get other = s.tables.get other)
    (hFrame : ∀ other, s.tables.get other ≠ none → other ≠ path → ∀ z, Takes other z →
      s'.families.get z = s.families.get z)
    (hOwn : ∀ defs, s'.tables.get path = some defs → TableOk s'.families path defs) : Inv s' := by
  intro other defs hDefs
  obtain rfl | hNe := eq_or_ne other path
  · exact hOwn defs hDefs
  · rw [hTables other hNe] at hDefs
    refine (h other defs hDefs).congr (hFrame other ?_ hNe)
    rw [hDefs]
    exact some_ne_none _

theorem ApartFromOthers.not_takes {s : State} (h : ApartFromOthers s path) {other : Str}
    (hOther : s.tables.get other ≠ none) (hNe : other ≠ path) {z : Str} (hz : Takes other z) : ¬Takes path z :=
  fun hTakes => h other hOther hNe z ⟨hTakes, hz⟩

theorem idxCfName_ne (cf name : Str) : idxCfName cf name ≠ cf := by
  intro h
  have hLen := congrArg length h
  simp [idxCfName, cfIndexInfix] at hLen

theorem idxCfName_inj {cf name name' : Str} : idxCfName cf name = idxCfName cf name' ↔ name = name' :=
  ⟨fun h => append_cancel_left h, fun h => h ▸ rfl⟩

theorem shape_eq (x : IndexDef) : (x.nullable.map some).map partByte = x.shape := by
  rw [IndexDef.shape, List.map_map]
  refine map_congr_left fun b _ => ?_
  cases b <;> rfl

theorem lt_of_server {x : IndexDef} (h : x.nullable.length ≤ maxRefParts) : x.nullable.length < 65536 :=
  Nat.lt_of_le_of_lt h (by decide)

variable {cf : Str}

theorem get_createIndexFamilies_data (env : Env Records Unit) {ks : List KeyDef} (hNodup : (ks.map KeyDef.name).Nodup)
    (hFresh : ∀ k ∈ ks, fs.get (idxCfName cf k.name) = none) : (ks.foldl (createIndexFamily env cf) fs).get cf =
      (fs.get cf).map fun m => ks.foldl (fun m k => env.keyShapeStore k m) m := by
  induction ks generalizing fs with
  | nil => simp
  | cons k ks ih =>
    obtain ⟨hNot, hTail⟩ := nodup_cons.mp hNodup
    have hStep : createIndexFamily env cf fs k =
        (fs.put (idxCfName cf k.name) env.newFamily).modify cf (env.keyShapeStore k) := by
      rw [createIndexFamily, hFresh k mem_cons_self]
      rfl
    have hRest : ∀ k' ∈ ks, (createIndexFamily env cf fs k).get (idxCfName cf k'.name) = none := by
      intro k' hk'
      have hNe : k'.name ≠ k.name := fun hEq => hNot (hEq ▸ mem_map_of_mem hk')
      rw [hStep, Store.get_modify_of_ne _ (idxCfName_ne cf k'.name), Store.get_put,
        if_neg fun hEq => hNe (idxCfName_inj.mp hEq)]
      exact hFresh k' (mem_cons_of_mem _ hk')
    rw [foldl_cons, ih hTail hRest, hStep, Store.get_modify_self, Store.get_put,
      if_neg (idxCfName_ne cf k.name).symm, Option.map_map]
    rfl

theorem not_keyshape_autoincMetaKey : ¬keyshapeMetaPrefix <+: autoincMetaKey := by decide

def optionsStored (env : Env Records Unit) (cf : Str) (t : TableArg) (fs : Families Records) : Families Records :=
  (createIfMissing env cf fs).modify cf (env.tableOptionsStore t)

theorem get_optionsStored_data (env : Env Records Unit) (cf : Str) (t : TableArg) (fs : Families Records) :
    ∃ m, (optionsStored env cf t fs).get cf = some m := by
  rw [optionsStored, Store.get_modify_self, createIfMissing]
  cases hData : fs.get cf with
  | none =>
    rw [isNone_none, if_pos rfl, Store.get_put, if_pos rfl]
    exact ⟨_, rfl⟩
  | some m =>
    rw [isNone_some, if_neg Bool.false_ne_true, hData]
    exact ⟨_, rfl⟩

theorem get_optionsStored_of_ne (env : Env Records Unit) {cf z : Str} (hNe : z ≠ cf) (t : TableArg)
    (fs : Families Records) : (optionsStored env cf t fs).get z = fs.get z := by
  rw [optionsStored, Store.get_modify_of_ne _ hNe, createIfMissing]
  split
  · rw [Store.get_put, if_neg hNe]
  · rfl

variable {putOk : Str → Bool} {optionsText : List UInt8}

theorem load_definedBy {t : TableArg} (hOk : ∀ n, putOk n = true) (hServer : ServerKeys (definedBy t)) {x : IndexDef}
    (hx : x ∈ definedBy t) (m : Records) : tdbKeyShapeLoad x.name ((secondaryKeys t).foldl
      (fun m k => (shapeEnv optionsText putOk t).keyShapeStore k m) m) = some x.shape := by
  have hKey := hServer.2 x hx
  have hAll : (secondaryKeys t).foldl (fun m k => (shapeEnv optionsText putOk t).keyShapeStore k m) m =
      storeAll putOk ((definedBy t).map fun x => (x.name, x.nullable.map some)) m := by
    rw [storeAll, definedBy, List.map_map, foldl_map]
    rfl
  rw [hAll, ← shape_eq x]
  refine load_storeAll (e := (x.name, x.nullable.map some)) ?_ hOk (mem_map.mpr ⟨x, hx, rfl⟩) hKey.1 ?_ m
  · rw [List.map_map]
    exact hServer.1
  · rw [length_map]
    exact lt_of_server hKey.2

theorem tableOk_create {t : TableArg} (hOk : ∀ n, putOk n = true) (hServer : ServerKeys (definedBy t))
    (hFresh : ∀ k ∈ secondaryKeys t, fs.get (idxCfName (toCfName path) k.name) = none) :
    TableOk (createFamilies (shapeEnv optionsText putOk t) (toCfName path) t fs) path (definedBy t) := by
  have hNodup : ((secondaryKeys t).map KeyDef.name).Nodup := by
    have hNames := hServer.1
    rwa [definedBy, List.map_map] at hNames
  obtain ⟨m, hm⟩ := get_optionsStored_data (shapeEnv optionsText putOk t) (toCfName path) t fs
  have hStored := get_createIndexFamilies_data (shapeEnv optionsText putOk t) hNodup fun k hk =>
    (get_optionsStored_of_ne (shapeEnv optionsText putOk t) (idxCfName_ne (toCfName path) k.name) t fs).trans
      (hFresh k hk)
  rw [hm, map_some] at hStored
  obtain ⟨m', hData, hRecords⟩ : ∃ m',
      (createFamilies (shapeEnv optionsText putOk t) (toCfName path) t fs).get (toCfName path) = some m' ∧
        ∀ x ∈ definedBy t, tdbKeyShapeLoad x.name m' = some x.shape := by
    rw [createFamilies]
    split
    · refine ⟨_, (Store.get_modify_self _ _ _).trans (congrArg (Option.map _) hStored), fun x hx => ?_⟩
      exact (tdbKeyShapeLoad_put not_keyshape_autoincMetaKey x.name _ _).trans (load_definedBy hOk hServer hx m)
    · exact ⟨_, hStored, fun x hx => load_definedBy hOk hServer hx m⟩
  refine ⟨hServer, fun x hx => ?_, by rw [hData]; exact some_ne_none _, fun x hx _ => ⟨m', hData, hRecords x hx⟩⟩
  obtain ⟨k, -, rfl⟩ := mem_map.mp hx
  rfl

theorem get_prepareAdds_data (adds : List AddedKey) (fs : Families Records) :
    (adds.foldl (prepareAdd cf putOk) fs).get cf =
      (fs.get cf).map (storeAll putOk (adds.map fun a => (a.name, a.parts))) := by
  induction adds generalizing fs with
  | nil =>
    rw [foldl_nil, map_nil]
    exact map_id'.symm
  | cons a adds ih =>
    rw [foldl_cons, ih, prepareAdd, Store.get_modify_self, Store.get_put, if_neg (idxCfName_ne cf a.name).symm,
      Store.get_drop, if_neg (idxCfName_ne cf a.name).symm, Option.map_map]
    rfl

variable {adds : List AddedKey}

theorem get_prepareAdds_of_ne {z : Str} (hData : z ≠ cf) (h : ∀ a ∈ adds, z ≠ idxCfName cf a.name)
    (fs : Families Records) : (adds.foldl (prepareAdd cf putOk) fs).get z = fs.get z := by
  induction adds generalizing fs with
  | nil => rfl
  | cons a adds ih =>
    have hNe := h a mem_cons_self
    rw [foldl_cons, ih fun a' ha' => h a' (mem_cons_of_mem _ ha'), prepareAdd, Store.get_modify_of_ne _ hData,
      Store.get_put, if_neg hNe, Store.get_drop, if_neg hNe]

theorem AddedKey.parts_eq {a : AddedKey} (h : a.fieldSet = true ∨ true ∉ a.nullable) :
    a.parts.map partByte = a.index.shape := by
  rw [AddedKey.parts, IndexDef.shape, AddedKey.index, List.map_map]
  refine map_congr_left fun b hb => ?_
  obtain hSet | hNone := h
  · rw [Function.comp_apply, hSet, if_pos rfl]
    cases b <;> rfl
  · cases b with
    | true => exact absurd hb hNone
    | false => cases hSet : a.fieldSet <;> simp [partByte]

theorem load_prepareAdds {drops : List Str} (hOk : ∀ n, putOk n = true)
    (hServer : ServerKeys (alteredDefs defs adds drops)) (hSet : ∀ a ∈ adds, a.fieldSet = true ∨ true ∉ a.nullable)
    {a : AddedKey} (ha : a ∈ adds) (m : Records) :
    tdbKeyShapeLoad a.name (storeAll putOk (adds.map fun a => (a.name, a.parts)) m) = some a.index.shape := by
  have hNodup : ((adds.map fun a => (a.name, a.parts)).map Prod.fst).Nodup := by
    have hNames := hServer.1
    rw [alteredDefs, map_append, List.map_map] at hNames
    rw [List.map_map]
    exact (nodup_append.mp hNames).2.1
  have hKey := hServer.2 a.index (mem_append_right _ (mem_map_of_mem ha))
  rw [← AddedKey.parts_eq (hSet a ha)]
  refine load_storeAll (e := (a.name, a.parts)) hNodup hOk (mem_map.mpr ⟨a, ha, rfl⟩) hKey.1 ?_ m
  rw [AddedKey.parts, length_map]
  exact lt_of_server hKey.2

theorem recorded_prepareAdds (h : TableOk fs path defs) {x : IndexDef} (hx : x ∈ defs)
    (hNot : ∀ a ∈ adds, a.name ≠ x.name)
    (hSome : (adds.foldl (prepareAdd (toCfName path) putOk) fs).get (idxCfName (toCfName path) x.name) ≠ none) :
    ∃ m, (adds.foldl (prepareAdd (toCfName path) putOk) fs).get (toCfName path) = some m ∧
      tdbKeyShapeLoad x.name m = some x.shape := by
  have hNe : ∀ a ∈ adds, idxCfName (toCfName path) x.name ≠ idxCfName (toCfName path) a.name :=
    fun a ha hEq => hNot a ha (idxCfName_inj.mp hEq).symm
  rw [get_prepareAdds_of_ne (idxCfName_ne _ _) hNe] at hSome
  obtain ⟨m, hm, hLoad⟩ := h.recorded x hx hSome
  refine ⟨_, by rw [get_prepareAdds_data, hm, map_some], ?_⟩
  rw [load_storeAll_of_notMem, hLoad]
  rw [List.map_map]
  intro hMem
  obtain ⟨a, ha, hEq⟩ := List.mem_map.mp hMem
  exact hNot a ha hEq

theorem tableOk_dropAll {names : List Str} (hServer : ServerKeys defs) (hNamed : ∀ x ∈ defs, x.madeAs = x.name)
    (hData : fs.get (toCfName path) ≠ none)
    (h : ∀ x ∈ defs, x.name ∉ names → fs.get (idxCfName (toCfName path) x.name) ≠ none →
      ∃ m, fs.get (toCfName path) = some m ∧ tdbKeyShapeLoad x.name m = some x.shape) :
    TableOk (fs.dropAll (names.map (idxCfName (toCfName path)))) path defs := by
  have hCf : (fs.dropAll (names.map (idxCfName (toCfName path)))).get (toCfName path) = fs.get (toCfName path) := by
    rw [Store.get_dropAll, if_neg]
    intro hMem
    obtain ⟨n, -, hEq⟩ := mem_map.mp hMem
    exact idxCfName_ne _ _ hEq
  refine ⟨hServer, hNamed, by rwa [hCf], fun x hx hSome => ?_⟩
  rw [Store.get_dropAll] at hSome
  split at hSome
  · exact absurd rfl hSome
  · rename_i hNot
    rw [hCf]
    exact h x hx (fun hIn => hNot (mem_map_of_mem hIn)) hSome

theorem tableOk_alter_commit (h : TableOk fs path defs) {drops : List Str} (hOk : ∀ n, putOk n = true)
    (hServer : ServerKeys (alteredDefs defs adds drops)) (hSet : ∀ a ∈ adds, a.fieldSet = true ∨ true ∉ a.nullable) :
    TableOk ((adds.foldl (prepareAdd (toCfName path) putOk) fs).dropAll (drops.map (idxCfName (toCfName path)))) path
      (alteredDefs defs adds drops) := by
  obtain ⟨m, hm⟩ := ne_none_iff_exists'.mp h.data
  have hData : (adds.foldl (prepareAdd (toCfName path) putOk) fs).get (toCfName path) =
      some (storeAll putOk (adds.map fun a => (a.name, a.parts)) m) := by
    rw [get_prepareAdds_data, hm, map_some]
  refine tableOk_dropAll hServer (fun x hx => ?_) (by rw [hData]; exact some_ne_none _) fun x hx _ hSome => ?_
  · obtain hKept | hNew := mem_append.mp hx
    · exact h.named x (mem_of_mem_filter hKept)
    · obtain ⟨a, -, rfl⟩ := mem_map.mp hNew
      rfl
  · obtain hKept | hNew := mem_append.mp hx
    · refine recorded_prepareAdds h (mem_of_mem_filter hKept) (fun a ha hEq => ?_) hSome
      -- the names of the new definition are distinct
      have hNames := hServer.1
      rw [alteredDefs, map_append] at hNames
      exact (nodup_append.mp hNames).2.2 x.name (mem_map_of_mem hKept) a.name
        (mem_map.mpr ⟨a.index, mem_map_of_mem ha, rfl⟩) hEq.symm
    · obtain ⟨a, ha, rfl⟩ := mem_map.mp hNew
      exact ⟨_, hData, load_prepareAdds hOk hServer hSet ha m⟩

theorem tableOk_alter_rollback (h : TableOk fs path defs) (adds : List AddedKey) :
    TableOk ((adds.foldl (prepareAdd (toCfName path) putOk) fs).dropAll
      (adds.map fun a => idxCfName (toCfName path) a.name)) path defs := by
  have hData : (adds.foldl (prepareAdd (toCfName path) putOk) fs).get (toCfName path) ≠ none := by
    rw [get_prepareAdds_data]
    simpa using h.data
  have hNames : (adds.map fun a => idxCfName (toCfName path) a.name) =
      (adds.map AddedKey.name).map (idxCfName (toCfName path)) := by
    rw [List.map_map]
    rfl
  rw [hNames]
  refine tableOk_dropAll h.server h.named hData fun x hx hNot hSome => ?_
  exact recorded_prepareAdds h hx (fun a ha hEq => hNot (hEq ▸ mem_map_of_mem ha)) hSome

theorem get_deleteAllRows {cf z : Str} (hData : z ≠ cf) (h : ∀ x ∈ defs, z ≠ idxCfName cf x.name) :
    (deleteAllRows optionsText cf defs fs).get z = fs.get z := by
  have hFold : ∀ fs : Families Records, (defs.foldl (recreateIndex cf) fs).get z = fs.get z := by
    induction defs with
    | nil => exact fun _ => rfl
    | cons x defs ih =>
      intro fs
      have hNe := h x mem_cons_self
      rw [foldl_cons, ih fun x' hx' => h x' (mem_cons_of_mem _ hx'), recreateIndex]
      split
      · rw [Store.get_put, if_neg hNe, Store.get_drop, if_neg hNe]
      · rfl
  rw [deleteAllRows, hFold, Store.get_put, if_neg hData, Store.get_drop, if_neg hData]

theorem deleteAllRows_of_none (h : ∀ x ∈ defs, fs.get (idxCfName cf x.name) = none) :
    deleteAllRows optionsText cf defs fs = (fs.drop cf).put cf (Store.empty.put optionsMetaKey optionsText) := by
  have hFold : ∀ fs : Families Records, (∀ x ∈ defs, fs.get (idxCfName cf x.name) = none) →
      defs.foldl (recreateIndex cf) fs = fs := by
    intro fs hNone
    induction defs with
    | nil => rfl
    | cons x defs ih =>
      have hSkip : recreateIndex cf fs x = fs := by
        rw [recreateIndex, hNone x mem_cons_self]
        rfl
      rw [foldl_cons, hSkip]
      exact ih (fun x' hx' => h x' (mem_cons_of_mem _ hx')) fun x' hx' => hNone x' (mem_cons_of_mem _ hx')
  rw [deleteAllRows, hFold]
  intro x hx
  rw [Store.get_put, if_neg (idxCfName_ne _ _), Store.get_drop, if_neg (idxCfName_ne _ _)]
  exact h x hx

theorem tableOk_truncate (h : TableOk fs path defs)
    (hNone : ∀ x ∈ defs, fs.get (idxCfName (toCfName path) x.name) = none) :
    TableOk (deleteAllRows optionsText (toCfName path) defs fs) path defs := by
  rw [deleteAllRows_of_none hNone]
  refine ⟨h.server, h.named, ?_, fun x hx hSome => ?_⟩
  · rw [Store.get_put, if_pos rfl]
    exact some_ne_none _
  · rw [Store.get_put, if_neg (idxCfName_ne _ _), Store.get_drop, if_neg (idxCfName_ne _ _), hNone x hx] at hSome
    exact absurd rfl hSome

end Tables

section Rename

variable {fs : Families Records} {source target : Str}

theorem takes_renamedIdx (source target z : Str) : Takes target (renamedIdx (toCfName source) (toCfName target) z) := by
  refine Or.inr ?_
  rw [renamedIdx]
  exact prefix_append _ _

theorem renamedIdx_idxCfName (source target name : Str) :
    renamedIdx (toCfName source) (toCfName target) (idxCfName (toCfName source) name) =
      idxCfName (toCfName target) name := by
  rw [renamedIdx, idxCfName, idxCfName, drop_left]

theorem cf_ne_of_apart (hApart : Apart target source) : toCfName source ≠ toCfName target :=
  fun hEq => hApart (toCfName target) ⟨takes_data target, hEq ▸ takes_data source⟩

theorem get_renameTable_other (hApart : Apart target source) {z : Str} (hSource : ¬Takes source z)
    (hTarget : ¬Takes target z) : (Lifecycle.renameTable source target fs).get z = fs.get z := by
  rw [Lifecycle.renameTable]
  rw [Store.get_moveAll_of_notTarget]
  · rw [if_neg, Store.get_moveOver _ (cf_ne_of_apart hApart), if_neg (ne_data_of_not_takes hTarget),
      if_neg (ne_data_of_not_takes hSource)]
    intro hMem
    exact hSource (Or.inr ((Lifecycle.mem_sweep_iff _ _ z).mp hMem).2)
  · rintro k - rfl
    exact hTarget (takes_renamedIdx source target k)

theorem get_renameTable_data (fs : Families Records) (hApart : Apart target source) :
    (Lifecycle.renameTable source target fs).get (toCfName target) = fs.get (toCfName source) := by
  rw [Lifecycle.renameTable]
  rw [Store.get_moveAll_of_notTarget]
  · rw [if_neg, Store.get_moveOver _ (cf_ne_of_apart hApart), if_pos rfl]
    intro hMem
    exact hApart _ ⟨takes_data target, Or.inr ((Lifecycle.mem_sweep_iff _ _ _).mp hMem).2⟩
  · intro k _ hEq
    have hLen := congrArg length hEq
    simp [renamedIdx, cfIndexInfix] at hLen

theorem get_renameTable_index (hApart : Apart target source) (hFree : ∀ z, Takes target z → fs.get z = none)
    (name : Str) : (Lifecycle.renameTable source target fs).get (idxCfName (toCfName target) name) =
      fs.get (idxCfName (toCfName source) name) := by
  have hNe := cf_ne_of_apart hApart
  have hOld : (fs.moveOver (toCfName source) (toCfName target)).get (idxCfName (toCfName source) name) =
      fs.get (idxCfName (toCfName source) name) := by
    have hOther : idxCfName (toCfName source) name ≠ toCfName target := fun hEq =>
      hApart _ ⟨takes_data target, hEq ▸ takes_index source name⟩
    rw [Store.get_moveOver _ hNe, if_neg hOther, if_neg (idxCfName_ne _ _)]
  have hSplit : ∀ z, z ∈ sweep (toCfName source ++ cfIndexInfix) (fs.moveOver (toCfName source) (toCfName target)) →
      ∃ k, z = idxCfName (toCfName source) k := by
    intro z hz
    obtain ⟨k, rfl⟩ := ((Lifecycle.mem_sweep_iff _ _ z).mp hz).2
    exact ⟨k, rfl⟩
  rw [Lifecycle.renameTable]
  by_cases hMem : idxCfName (toCfName source) name ∈
      sweep (toCfName source ++ cfIndexInfix) (fs.moveOver (toCfName source) (toCfName target))
  · rw [← renamedIdx_idxCfName source target name, Store.get_moveAll_target _ _ _ ?_ ?_ ?_ _ hMem, hOld]
    · exact (Store.nodup _).sublist (filter_sublist ..)
    · intro z hz z' hz' hEq
      obtain ⟨k, rfl⟩ := hSplit z hz
      obtain ⟨k', rfl⟩ := hSplit z' hz'
      rw [renamedIdx_idxCfName, renamedIdx_idxCfName, idxCfName_inj] at hEq
      rw [hEq]
    · rintro z hz z' hz' rfl
      exact hApart _ ⟨takes_renamedIdx source target z, Or.inr ((Lifecycle.mem_sweep_iff _ _ _).mp hz').2⟩
  · have hNone : fs.get (idxCfName (toCfName source) name) = none := by
      by_contra hSome
      refine hMem ((Lifecycle.mem_sweep_iff _ _ _).mpr ⟨?_, prefix_append _ _⟩)
      rw [Store.mem_names_iff, hOld]
      exact hSome
    rw [Store.get_moveAll_of_notTarget, hNone]
    · rw [if_neg, Store.get_moveOver _ hNe, if_neg (idxCfName_ne _ _)]
      · have hNot : idxCfName (toCfName target) name ≠ toCfName source := fun hEq =>
          hApart _ ⟨takes_index target name, hEq ▸ takes_data source⟩
        rw [if_neg hNot]
        exact hFree _ (takes_index target name)
      · intro hIn
        exact hApart _ ⟨takes_index target name, Or.inr ((Lifecycle.mem_sweep_iff _ _ _).mp hIn).2⟩
    · intro z hz hEq
      obtain ⟨k, rfl⟩ := hSplit z hz
      rw [renamedIdx_idxCfName, idxCfName_inj] at hEq
      exact hMem (hEq ▸ hz)

theorem tableOk_rename {defs : List IndexDef} (h : TableOk fs source defs) (hApart : Apart target source)
    (hFree : ∀ z, Takes target z → fs.get z = none) :
    TableOk (Lifecycle.renameTable source target fs) target defs := by
  have hData := get_renameTable_data fs hApart
  refine ⟨h.server, h.named, by rw [hData]; exact h.data, fun x hx hSome => ?_⟩
  rw [get_renameTable_index hApart hFree] at hSome
  rw [hData]
  exact h.recorded x hx hSome

end Rename

section Runs

theorem get_tables_drop_put {tables : Store Str (List IndexDef)} {source target : Str} {defs : List IndexDef}
    (other : Str) : ((tables.drop source).put target defs).get other =
      if other = target then some defs else if other = source then none else tables.get other := by
  rw [Store.get_put, Store.get_drop]

theorem get_prepareAdds_frame {path z : Str} (h : ¬Takes path z) (putOk : Str → Bool) (adds : List AddedKey)
    (names : List Str) (fs : Families Records) :
    ((adds.foldl (prepareAdd (toCfName path) putOk) fs).dropAll (names.map (idxCfName (toCfName path)))).get z =
      fs.get z := by
  rw [Store.get_dropAll, if_neg, get_prepareAdds_of_ne (ne_data_of_not_takes h)]
  · rintro a - rfl
    exact h (takes_index path a.name)
  · intro hMem
    obtain ⟨n, -, rfl⟩ := mem_map.mp hMem
    exact h (takes_index path n)

section Steps

variable {s s' : State} (h : Inv s)
include h

theorem inv_create {path : Str} {t : TableArg} {optionsText : List UInt8} {putOk : Str → Bool}
    (hGuard : Guard s (.create path t optionsText putOk))
    (hStep : step s (.create path t optionsText putOk) = some s') : Inv s' := by
  obtain ⟨hOk, hApart, hFresh⟩ := hGuard
  rw [step] at hStep
  split at hStep
  · rename_i hServer
    cases hStep
    refine h.of_frame path (fun other hNe => ?_) (fun other hOther hNe z hz => ?_) fun defs hDefs => ?_
    · rw [Store.get_put, if_neg hNe]
    · exact get_createFamilies _ (hApart.not_takes hOther hNe hz) t _
    · rw [Store.get_put, if_pos rfl] at hDefs
      cases hDefs
      exact tableOk_create hOk hServer.2.2 hFresh
  · cases hStep

theorem inv_alterIndexes {path : Str} {adds : List AddedKey} {drops : List Str} {putOk : Str → Bool} {commit : Bool}
    (hGuard : Guard s (.alterIndexes path adds drops putOk commit))
    (hStep : step s (.alterIndexes path adds drops putOk commit) = some s') : Inv s' := by
  obtain ⟨hOk, hApart, hSet⟩ := hGuard
  rw [step] at hStep
  split at hStep
  · cases hStep
  · rename_i defs hDefs
    split at hStep
    · rename_i hServer
      cases commit with
      | true =>
        cases hStep
        refine h.of_frame path (fun other hNe => ?_) (fun other hOther hNe z hz => ?_) fun defs' hDefs' => ?_
        · rw [Store.get_put, if_neg hNe]
        · exact get_prepareAdds_frame (hApart.not_takes hOther hNe hz) putOk adds drops _
        · rw [Store.get_put, if_pos rfl] at hDefs'
          cases hDefs'
          exact tableOk_alter_commit (h path defs hDefs) hOk hServer hSet
      | false =>
        cases hStep
        refine h.of_frame path (fun _ _ => rfl) (fun other hOther hNe z hz => ?_) fun defs' hDefs' => ?_
        · have hFrame := get_prepareAdds_frame (hApart.not_takes hOther hNe hz) putOk adds (adds.map AddedKey.name)
            s.families
          rwa [List.map_map] at hFrame
        · exact tableOk_alter_rollback (h path defs' hDefs') adds
    · cases hStep

theorem inv_truncate {path : Str} {optionsText : List UInt8} (hGuard : Guard s (.truncate path optionsText))
    (hStep : step s (.truncate path optionsText) = some s') : Inv s' := by
  obtain ⟨hApart, hNone⟩ := hGuard
  rw [step] at hStep
  split at hStep
  · cases hStep
  · rename_i defs hDefs
    cases hStep
    refine h.of_frame path (fun _ _ => rfl) (fun other hOther hNe z hz => ?_) fun defs' hDefs' => ?_
    · have hNot := hApart.not_takes hOther hNe hz
      refine get_deleteAllRows (ne_data_of_not_takes hNot) fun x _ hEq => ?_
      exact hNot (hEq ▸ takes_index path x.name)
    · cases hDefs.symm.trans hDefs'
      exact tableOk_truncate (h path defs hDefs) (hNone defs hDefs)

theorem inv_renameTable {source target : Str} (hGuard : Guard s (.renameTable source target))
    (hStep : step s (.renameTable source target) = some s') : Inv s' := by
  obtain ⟨hSource, hTarget, hFree⟩ := hGuard
  rw [step] at hStep
  split at hStep
  · cases hStep
  · rename_i defs hDefs
    split at hStep
    · rename_i hNew
      cases hStep
      have hSome : s.tables.get source ≠ none := by
        rw [hDefs]
        exact some_ne_none _
      have hNe : source ≠ target := fun hEq => hSome (hEq ▸ hNew)
      have hApart : Apart target source := hTarget source hSome hNe
      intro other defs' hDefs'
      dsimp only at hDefs' ⊢
      rw [get_tables_drop_put] at hDefs'
      split at hDefs'
      · rename_i hEq
        subst hEq
        cases hDefs'
        exact tableOk_rename (h source defs hDefs) hApart hFree
      · rename_i hOtherNew
        split at hDefs'
        · cases hDefs'
        · rename_i hOtherOld
          have hOther : s.tables.get other ≠ none := by
            rw [hDefs']
            exact some_ne_none _
          refine (h other defs' hDefs').congr fun z hz => ?_
          exact get_renameTable_other hApart (hSource.not_takes hOther hOtherOld hz)
            (hTarget.not_takes hOther hOtherNew hz)
    · cases hStep

theorem inv_dropTable {path : Str} (hStep : step s (.dropTable path) = some s') : Inv s' := by
  rw [step] at hStep
  split at hStep
  · cases hStep
  · cases hStep
    intro other defs hDefs
    rw [Store.get_drop] at hDefs
    split at hDefs
    · cases hDefs
    · exact h other defs hDefs

theorem inv_removeFamilies {path : Str} (hGuard : Guard s (.removeFamilies path))
    (hStep : step s (.removeFamilies path) = some s') : Inv s' := by
  obtain ⟨hGone, hApart⟩ := hGuard
  cases hStep
  refine h.of_frame path (fun _ _ => rfl) (fun other hOther hNe z hz => ?_) fun defs hDefs => ?_
  · rw [get_drop_takes, if_neg (hApart.not_takes hOther hNe hz)]
  · cases hGone.symm.trans hDefs

theorem inv_step {a : Action} (hGuard : Guard s a) (hStep : step s a = some s') : Inv s' := by
  cases a with
  | create => exact inv_create h hGuard hStep
  | alterIndexes => exact inv_alterIndexes h hGuard hStep
  | renameIndex => exact hGuard.elim
  | truncate => exact inv_truncate h hGuard hStep
  | renameTable => exact inv_renameTable h hGuard hStep
  | dropTable => exact inv_dropTable h hStep
  | removeFamilies => exact inv_removeFamilies h hGuard hStep

end Steps

theorem inv_init : Inv init := fun _ _ hDefs => by cases hDefs

theorem recorded_of_inv {s : State} (h : Inv s) : Recorded s := by
  intro path defs hDefs x hx hSome
  have hOk := h path defs hDefs
  rw [hOk.named x hx] at hSome
  exact hOk.recorded x hx hSome

theorem parentNullable_of_fkEntry {shape : Str → Str → List UInt8} {path : Str} {t : TableArg} {name : Str}
    {spec : FkSpec} {e : FkCatalogEntry} (h : fkEntry shape path t name spec = .ok e) :
    e.parentNullable = if fkParentIsPk e.parentIndexName then [] else shape e.parentCf e.parentIndexName := by
  rw [fkEntry] at h
  split at h
  · cases h
  · split at h
    · cases h
    · cases h
      rfl

theorem rsplit_ne_none {c : Char} {s : Str} (h : c ∈ s) : rsplit c s ≠ none := by
  induction s with
  | nil => cases h
  | cons x xs ih =>
    rw [rsplit]
    cases hTail : rsplit c xs with
    | some p => exact some_ne_none _
    | none =>
      obtain rfl | hIn := mem_cons.mp h
      · rw [if_pos rfl]
        exact some_ne_none _
      · exact absurd hTail (ih hIn)

theorem toCfName_ne_nil (db table : Str) : toCfName (relPathPrefix ++ db ++ ['/'] ++ table) ≠ [] := by
  have hPath : relPathPrefix ++ db ++ ['/'] ++ table = relPathPrefix ++ (db ++ ['/'] ++ table) := by simp
  have hDir : (splitTablePath (relPathPrefix ++ (db ++ ['/'] ++ table))).hasDir = true := by
    have hStrip : relPathPrefix.isPrefixOf (relPathPrefix ++ (db ++ ['/'] ++ table)) = true :=
      isPrefixOf_iff_prefix.mpr (prefix_append _ _)
    rw [splitTablePath, if_pos hStrip, drop_left]
    have hSplit : rsplit '/' (db ++ ['/'] ++ table) ≠ none := rsplit_ne_none (by simp)
    obtain ⟨p, hp⟩ := ne_none_iff_exists'.mp hSplit
    rw [hp]
    dsimp only
    split <;> rfl
  rw [hPath, toCfName, if_pos hDir]
  simp [substituteMarker, dbTableSep]

theorem parentCf_ne_nil {shape : Str → Str → List UInt8} {path : Str} {t : TableArg} {name : Str} {spec : FkSpec}
    {e : FkCatalogEntry} (h : fkEntry shape path t name spec = .ok e) : e.parentCf ≠ [] := by
  rw [fkEntry] at h
  split at h
  · cases h
  · split at h
    · cases h
    · cases h
      exact toCfName_ne_nil _ _

theorem shapesFound_of_inv {s : State} (h : Inv s) : ShapesFound s := by
  intro path defs hDefs x hx hSome optionsText putOk childPath t name spec e hEntry hCf hName hPk
  obtain ⟨m, hm, hLoad⟩ := recorded_of_inv h path defs hDefs x hx hSome
  have hIndex : e.parentIndexName.isEmpty = false := by
    rw [hName]
    simpa using ((h path defs hDefs).server.2 x hx).1
  have hFamily : e.parentCf.isEmpty = false := by simpa using parentCf_ne_nil hEntry
  rw [parentNullable_of_fkEntry hEntry, hName, hPk, if_neg Bool.false_ne_true, ← hName, fkParentKeyShape, hIndex,
    hFamily, Bool.or_false, if_neg Bool.false_ne_true, hCf, hm, map_some, getD_some, hName]
  exact congrArg (fun o => getD o []) hLoad

/-- Every index that has a family has its record, and a foreign key declared on it finds how its keys were written. -/
theorem key_shapes_recorded {s : State} (h : Reach step Guard init s) : Recorded s ∧ ShapesFound s := by
  have hInv : Inv s := h.invariant Inv inv_init fun _ _ _ hInv hGuard hStep => inv_step hInv hGuard hStep
  exact ⟨recorded_of_inv hInv, shapesFound_of_inv hInv⟩

end Runs

section Samples

def shopPath : Str := ['.', '/', 's', '/', 'p']
def otherPath : Str := ['.', '/', 's', '/', 'q']

def shopTable : TableArg where
  db := ['s']
  tableName := ['p']
  optionsOk := true
  fields := [⟨['c'], true⟩]
  keys := [⟨['u'], [⟨['c'], false⟩]⟩]
  primaryKey := none
  foreignKeys := []
  autoIncrementValue := 0

def created : List Action := [.create shopPath shopTable [] fun _ => true]

def reached (acts : List Action) : State := (run step init acts).getD init

def added : List Action := created ++ [.alterIndexes shopPath [⟨['v'], [true], true⟩] [] (fun _ => true) true]

theorem eq_of_names {s : State} {path other : Str} (hNames : s.tables.names = [path])
    (hOther : s.tables.get other ≠ none) : other = path := by
  have hMem := (Store.mem_names_iff _ _).mpr hOther
  rw [hNames] at hMem
  exact mem_singleton.mp hMem

theorem reach_created : Reach step Guard init (reached created) :=
  Reach.init.step (.create shopPath shopTable [] fun _ => true)
    ⟨fun _ => rfl, fun _ hOther => absurd rfl hOther, fun _ _ => rfl⟩ rfl

theorem reach_added : Reach step Guard init (reached added) := by
  refine reach_created.step (.alterIndexes shopPath [⟨['v'], [true], true⟩] [] (fun _ => true) true)
    ⟨fun _ => rfl, fun other hOther hNe => absurd (eq_of_names (by decide) hOther) hNe, fun a ha => ?_⟩ rfl
  cases mem_singleton.mp ha
  exact .inl rfl

theorem reach_renamed : Reach step Guard init (reached (added ++ [.renameTable shopPath otherPath])) := by
  have hOnly : ∀ other, (reached added).tables.get other ≠ none → other = shopPath := fun _ => eq_of_names (by decide)
  refine reach_added.step (.renameTable shopPath otherPath) ⟨fun other hOther hNe => absurd (hOnly other hOther) hNe,
    fun other hOther _ => ?_, fun z hz => ?_⟩ rfl
  · rw [hOnly other hOther]
    exact apart_of_not_prefix (by decide) (by decide)
  · by_contra hSome
    have hTaken : ∀ z ∈ (reached added).families.names, Takes shopPath z := by decide
    exact apart_of_not_prefix (by decide) (by decide) z ⟨hz, hTaken z ((Store.mem_names_iff _ _).mpr hSome)⟩

theorem key_shapes_recorded_renamed :
    (reached (added ++ [.renameTable shopPath otherPath])).families.get (idxCfName (toCfName otherPath) ['u']) ≠ none ∧
      Recorded (reached (added ++ [.renameTable shopPath otherPath])) ∧
      ShapesFound (reached (added ++ [.renameTable shopPath otherPath])) :=
  ⟨by decide, key_shapes_recorded reach_renamed⟩

/-- TRUNCATE makes the data family anew without the record, and RENAME INDEX leaves the record under the old name. -/
theorem key_shape_lost : (Reach step (fun _ _ => True) init (reached (created ++ [.truncate shopPath []])) ∧
      ¬Recorded (reached (created ++ [.truncate shopPath []]))) ∧
    Reach step (fun _ _ => True) init (reached (created ++ [.renameIndex shopPath ['u'] ['w']])) ∧
      ¬Recorded (reached (created ++ [.renameIndex shopPath ['u'] ['w']])) := by
  have hCreated : Reach step (fun _ _ => True) init (reached created) := reach_created.mono fun _ _ _ => trivial
  refine ⟨⟨hCreated.step (.truncate shopPath []) trivial rfl, fun h => ?_⟩,
    hCreated.step (.renameIndex shopPath ['u'] ['w']) trivial rfl, fun h => ?_⟩
  · obtain ⟨m, hm, hLoad⟩ := h shopPath [⟨['u'], [true], ['u']⟩] rfl ⟨['u'], [true], ['u']⟩ mem_cons_self
      (by decide)
    cases hm
    cases hLoad
  · obtain ⟨m, hm, hLoad⟩ := h shopPath [⟨['w'], [true], ['u']⟩] rfl ⟨['w'], [true], ['u']⟩ mem_cons_self
      (by decide)
    cases hm
    cases hLoad

end Samples

end TideSql.KeyShapes
