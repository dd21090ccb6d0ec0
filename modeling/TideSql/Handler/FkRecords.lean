import Mathlib
import TideSql.Handler.FkCatalog
import TideSql.Lib.Mirror
import TideSql.Lib.Run

/-!
# What the foreign-key catalog holds

Tables are created, renamed and dropped while the server knows which constraint each of them declares.
-/

namespace TideSql.FkRecords
open CfName FkCatalog Lib Lib.Mirror Lib.Run List Function

section Constraints

structure Constraint where
  name : Str
  child : TableName
  parent : TableName
  childColumns : List Str
  childNullable : List UInt8
  refColumns : List Str
  childIndexName : Str
  parentIndexName : Str
  parentNullable : List UInt8
  parentIsPk : UInt8
  onDelete : UInt8
  onUpdate : UInt8
  deriving DecidableEq

variable (decode : Str → Str)

def cfOf (n : TableName) : Str := toCfName n.path

def Constraint.entry (c : Constraint) : FkCatalogEntry where
  name := c.name
  childCf := cfOf c.child
  childDb := decode c.child.db.chars
  childTable := decode c.child.table.chars
  childColumns := c.childColumns
  childNullable := c.childNullable
  refDb := decode c.parent.db.chars
  refTable := decode c.parent.table.chars
  parentCf := cfOf c.parent
  refColumns := c.refColumns
  childIndexName := c.childIndexName
  parentIndexName := c.parentIndexName
  parentNullable := c.parentNullable
  parentIsPk := c.parentIsPk
  onDelete := c.onDelete
  onUpdate := c.onUpdate

def Constraint.ofEntry (child parent : TableName) (e : FkCatalogEntry) : Constraint where
  name := e.name
  child := child
  parent := parent
  childColumns := e.childColumns
  childNullable := e.childNullable
  refColumns := e.refColumns
  childIndexName := e.childIndexName
  parentIndexName := e.parentIndexName
  parentNullable := e.parentNullable
  parentIsPk := e.parentIsPk
  onDelete := e.onDelete
  onUpdate := e.onUpdate

def Constraint.id (c : Constraint) : TableName × Str := (c.child, c.name)

def Constraint.names (n : TableName) (c : Constraint) : Bool := c.child = n || c.parent = n

def Constraint.renamed (n m : TableName) (c : Constraint) : Constraint :=
  { c with child := if c.child = n then m else c.child, parent := if c.parent = n then m else c.parent }

def Named (n : TableName) (db table : Str) : Prop := decode n.db.chars = db ∧ decode n.table.chars = table

instance (n : TableName) (db table : Str) : Decidable (Named decode n db table) := inferInstanceAs (Decidable (_ ∧ _))

def declaring (t : TableArg) (fks : List (FkSpec × TableName)) : TableArg := { t with foreignKeys := fks.map Prod.fst }

def refDbOf (t : TableArg) (spec : FkSpec) : Str := if spec.refDb.isEmpty then t.db else spec.refDb

/-- The path `fk_persist_defs` builds for the referenced table. -/
def rawPath (t : TableArg) (spec : FkSpec) : Str := relPathPrefix ++ refDbOf t spec ++ ['/'] ++ spec.refTable

def Declares (n : TableName) (t : TableArg) (fks : List (FkSpec × TableName)) : Prop :=
  Named decode n t.db t.tableName ∧ ∀ f ∈ fks, Named decode f.2 (refDbOf t f.1) f.1.refTable

instance (n : TableName) (t : TableArg) (fks : List (FkSpec × TableName)) : Decidable (Declares decode n t fks) :=
  inferInstanceAs (Decidable (_ ∧ _))

def declared (shape : Str → Str → List UInt8) (n : TableName) (t : TableArg) (fks : List (FkSpec × TableName)) :
    List Constraint :=
  match fkEntries shape n.path t (fks.map Prod.fst) 0 with
  | .error _ => []
  | .ok es => zipWith (Constraint.ofEntry n) (fks.map Prod.snd) es

def fkNames (tableName : Str) : List FkSpec → Nat → List Str
  | [], _ => []
  | spec :: specs, anon =>
    let anon := if spec.name.isEmpty then anon + 1 else anon
    (if spec.name.isEmpty then fkAnonName tableName anon else spec.name) :: fkNames tableName specs anon

end Constraints

section Runs

structure State where
  tables : List TableName
  constraints : List Constraint
  catalog : Catalog

def init : State := ⟨[], [], Store.empty⟩

inductive Action where
  | create (shape : Str → Str → List UInt8) (n : TableName) (t : TableArg) (fks : List (FkSpec × TableName))
  | rename (n m : TableName)
  | drop (n : TableName)

variable (decode : Str → Str)

def step (s : State) : Action → Option State
  | .create shape n t fks =>
    if n ∈ s.tables ∨ ¬Declares decode n t fks then none
    else
      match fkPersistDefs shape n.path (declaring t fks) s.catalog with
      | .error _ => some s
      | .ok cat => some ⟨n :: s.tables, s.constraints ++ declared shape n (declaring t fks) fks, cat⟩
  | .rename n m =>
    if n ∉ s.tables ∨ m ∈ s.tables then none
    else
      some ⟨m :: s.tables.filter (· ≠ n), s.constraints.map (Constraint.renamed n m),
        fkRenameCatalog decode n.path m.path s.catalog⟩
  | .drop n =>
    if n ∉ s.tables then none
    else
      some ⟨s.tables.filter (· ≠ n), s.constraints.filter (fun c => !c.names n), fkPurgeCatalog (cfOf n) s.catalog⟩

def State.involved (s : State) : List TableName := s.tables ++ s.constraints.map Constraint.parent

def FamiliesApart (ns : List TableName) : Prop := ∀ n ∈ ns, ∀ m ∈ ns, cfOf n = cfOf m → n = m

instance (ns : List TableName) : Decidable (FamiliesApart ns) :=
  inferInstanceAs (Decidable (∀ n ∈ ns, ∀ m ∈ ns, cfOf n = cfOf m → n = m))

def NameFits (n : TableName) : Prop :=
  nul ∉ cfOf n ∧ StrFits (cfOf n) ∧ StrFits (decode n.db.chars) ∧ StrFits (decode n.table.chars)

instance (n : TableName) : Decidable (NameFits decode n) := inferInstanceAs (Decidable (_ ∧ _))

structure Constraint.Fits (c : Constraint) : Prop where
  name : StrFits c.name
  childColumns : NamesFit c.childColumns
  childNullable : c.childNullable.length < lenBound
  refColumns : NamesFit c.refColumns
  childIndexName : StrFits c.childIndexName
  parentIndexName : StrFits c.parentIndexName
  parentNullable : c.parentNullable.length < lenBound

/-- What the server grants: names and lists are no longer than their length fields can say. -/
def Assumed : Action → Prop
  | .create shape n t fks =>
    NameFits decode n ∧ (∀ f ∈ fks, NameFits decode f.2) ∧ ∀ c ∈ declared shape n (declaring t fks) fks, c.Fits
  | .rename _ m => NameFits decode m
  | .drop _ => True

/-- A referenced table is recorded under its own family, no two constraints of a table have one
name, and no two tables share a family. -/
def Sound (s : State) : Action → Prop
  | .create _ n t fks =>
    (∀ f ∈ fks, toCfName (rawPath t f.1) = cfOf f.2) ∧ (fkNames t.tableName (fks.map Prod.fst) 0).Nodup ∧
      FamiliesApart (n :: fks.map Prod.snd ++ s.involved)
  | .rename _ m => FamiliesApart (m :: s.involved)
  | .drop _ => True

def Guard (s : State) (a : Action) : Prop := Assumed decode a ∧ Sound s a

instance (c : Constraint) : Decidable c.Fits :=
  decidable_of_iff (StrFits c.name ∧ NamesFit c.childColumns ∧ c.childNullable.length < lenBound ∧
      NamesFit c.refColumns ∧ StrFits c.childIndexName ∧ StrFits c.parentIndexName ∧ c.parentNullable.length < lenBound)
    ⟨fun ⟨h₁, h₂, h₃, h₄, h₅, h₆, h₇⟩ => ⟨h₁, h₂, h₃, h₄, h₅, h₆, h₇⟩,
      fun ⟨h₁, h₂, h₃, h₄, h₅, h₆, h₇⟩ => ⟨h₁, h₂, h₃, h₄, h₅, h₆, h₇⟩⟩

instance decidableAssumed : (a : Action) → Decidable (Assumed decode a)
  | .create .. => inferInstanceAs (Decidable (_ ∧ _ ∧ _))
  | .rename _ m => inferInstanceAs (Decidable (NameFits decode m))
  | .drop _ => .isTrue trivial

instance decidableSound (s : State) : (a : Action) → Decidable (Sound s a)
  | .create .. => inferInstanceAs (Decidable (_ ∧ _ ∧ _))
  | .rename _ m => inferInstanceAs (Decidable (FamiliesApart (m :: s.involved)))
  | .drop _ => .isTrue trivial

instance (s : State) (a : Action) : Decidable (Guard decode s a) := inferInstanceAs (Decidable (_ ∧ _))

end Runs

section Keys

theorem append_nul_inj {a b x y : Str} (ha : nul ∉ a) (hb : nul ∉ b) (h : a ++ nul :: x = b ++ nul :: y) :
    a = b ∧ x = y := by
  induction a generalizing b with
  | nil =>
    cases b with
    | nil => exact ⟨rfl, (cons.inj h).2⟩
    | cons c b => exact absurd (mem_cons.mpr (.inl (cons.inj h).1)) hb
  | cons c a ih =>
    cases b with
    | nil => exact absurd (mem_cons.mpr (.inl (cons.inj h).1.symm)) ha
    | cons c' b =>
      obtain ⟨rfl, hRest⟩ := cons.inj h
      obtain ⟨rfl, rfl⟩ := ih (mt (mem_cons_of_mem c) ha) (mt (mem_cons_of_mem c) hb) hRest
      exact ⟨rfl, rfl⟩

theorem nodup_keys (e : FkCatalogEntry) : e.keys.Nodup := by
  simp [FkCatalogEntry.keys, fkChildKey, fkParentKey, fkRecChild, fkRecParent]

theorem child_name_of_key {e e' : FkCatalogEntry} (hChild : nul ∉ e.childCf) (hParent : nul ∉ e.parentCf)
    (hChild' : nul ∉ e'.childCf) (hParent' : nul ∉ e'.parentCf) {k : Str} (h : k ∈ e.keys) (h' : k ∈ e'.keys) :
    e.childCf = e'.childCf ∧ e.name = e'.name := by
  simp only [FkCatalogEntry.keys, fkChildKey, fkParentKey, mem_cons, not_mem_nil, or_false] at h h'
  obtain rfl | rfl := h
  · obtain hEq | hEq := h'
    · exact append_nul_inj hChild hChild' (cons.inj hEq).2
    · exact absurd (cons.inj hEq).1 (by decide)
  · obtain hEq | hEq := h'
    · exact absurd (cons.inj hEq).1 (by decide)
    · exact append_nul_inj hChild hChild' (append_nul_inj hParent hParent' (cons.inj hEq).2).2

variable {decode : Str → Str}

theorem Constraint.Fits.entry {c : Constraint} (h : c.Fits) (hChild : NameFits decode c.child)
    (hParent : NameFits decode c.parent) : (c.entry decode).Fits where
  name := h.name
  childCf := hChild.2.1
  childDb := hChild.2.2.1
  childTable := hChild.2.2.2
  childColumns := h.childColumns
  childNullable := h.childNullable
  refDb := hParent.2.2.1
  refTable := hParent.2.2.2
  parentCf := hParent.2.1
  refColumns := h.refColumns
  childIndexName := h.childIndexName
  parentIndexName := h.parentIndexName
  parentNullable := h.parentNullable

theorem eq_of_shared_key {cs : List Constraint} {ns : List TableName} (hIds : (cs.map Constraint.id).Nodup)
    (hNames : ∀ n ∈ ns, NameFits decode n) (hApart : FamiliesApart ns) (hChild : ∀ c ∈ cs, c.child ∈ ns)
    (hParent : ∀ c ∈ cs, c.parent ∈ ns) {c c' : Constraint} (hc : c ∈ cs) (hc' : c' ∈ cs) {k : Str}
    (hk : k ∈ (c.entry decode).keys) (hk' : k ∈ (c'.entry decode).keys) : c = c' := by
  obtain ⟨hCf, hName⟩ := child_name_of_key (hNames _ (hChild c hc)).1 (hNames _ (hParent c hc)).1
    (hNames _ (hChild c' hc')).1 (hNames _ (hParent c' hc')).1 hk hk'
  have hEq := hApart _ (hChild c hc) _ (hChild c' hc') hCf
  exact inj_on_of_nodup_map hIds hc hc' (Prod.ext hEq hName)

theorem keysApart_of_ids {cs : List Constraint} {ns : List TableName} (hIds : (cs.map Constraint.id).Nodup)
    (hNames : ∀ n ∈ ns, NameFits decode n) (hApart : FamiliesApart ns) (hChild : ∀ c ∈ cs, c.child ∈ ns)
    (hParent : ∀ c ∈ cs, c.parent ∈ ns) : KeysApart FkCatalogEntry.keys (cs.map (Constraint.entry decode)) := by
  intro e he e' he' k hk hk'
  obtain ⟨c, hc, rfl⟩ := mem_map.mp he
  obtain ⟨c', hc', rfl⟩ := mem_map.mp he'
  rw [eq_of_shared_key hIds hNames hApart hChild hParent hc hc' hk hk']

end Keys

section Create

variable (decode : Str → Str) (shape : Str → Str → List UInt8) {n : TableName} {t : TableArg}

theorem fkEntry_spec {path name : Str} {spec : FkSpec} {e : FkCatalogEntry}
    (h : fkEntry shape path t name spec = .ok e) :
    e.name = name ∧ e.childCf = toCfName path ∧ e.childDb = t.db ∧ e.childTable = t.tableName ∧
      e.refDb = refDbOf t spec ∧ e.refTable = spec.refTable ∧ e.parentCf = toCfName (rawPath t spec) := by
  rw [fkEntry] at h
  split at h
  · cases h
  · split at h
    · cases h
    · cases h
      exact ⟨rfl, rfl, rfl, rfl, rfl, rfl, rfl⟩

theorem entry_ofEntry {name : Str} {spec : FkSpec} {parent : TableName} {e : FkCatalogEntry}
    (h : fkEntry shape n.path t name spec = .ok e) (hChild : Named decode n t.db t.tableName)
    (hParent : Named decode parent (refDbOf t spec) spec.refTable)
    (hRaw : toCfName (rawPath t spec) = cfOf parent) : (Constraint.ofEntry n parent e).entry decode = e := by
  obtain ⟨-, hCf, hDb, hTable, hRefDb, hRefTable, hParentCf⟩ := fkEntry_spec shape h
  obtain ⟨name, childCf, childDb, childTable, _, _, refDb, refTable, parentCf, _, _, _, _, _, _, _⟩ := e
  dsimp only at hCf hDb hTable hRefDb hRefTable hParentCf
  subst hCf hDb hTable hRefDb hRefTable hParentCf
  simp only [Constraint.entry, Constraint.ofEntry, hChild.1, hChild.2, hParent.1, hParent.2, hRaw]
  rfl

theorem entries_of_fkEntries {fks : List (FkSpec × TableName)} {anon : Nat} {es : List FkCatalogEntry}
    (h : fkEntries shape n.path t (fks.map Prod.fst) anon = .ok es) (hDeclares : Declares decode n t fks)
    (hRaw : ∀ f ∈ fks, toCfName (rawPath t f.1) = cfOf f.2) :
    (zipWith (Constraint.ofEntry n) (fks.map Prod.snd) es).map (Constraint.entry decode) = es ∧
      es.map FkCatalogEntry.name = fkNames t.tableName (fks.map Prod.fst) anon := by
  induction fks generalizing anon es with
  | nil =>
    cases h
    exact ⟨rfl, rfl⟩
  | cons f fks ih =>
    rw [map_cons, fkEntries] at h
    split at h
    · cases h
    · rename_i e hEntry
      split at h
      · cases h
      · rename_i es' hRest
        cases h
        obtain ⟨hMap, hNames⟩ := ih hRest ⟨hDeclares.1, fun g hg => hDeclares.2 g (mem_cons_of_mem f hg)⟩
          fun g hg => hRaw g (mem_cons_of_mem f hg)
        have hHead := entry_ofEntry decode shape hEntry hDeclares.1 (hDeclares.2 f mem_cons_self)
          (hRaw f mem_cons_self)
        refine ⟨?_, ?_⟩
        · rw [map_cons, zipWith_cons_cons, map_cons, hHead, hMap]
        · rw [map_cons, map_cons, fkNames, hNames, (fkEntry_spec shape hEntry).1]

theorem child_declared {fks : List (FkSpec × TableName)} {c : Constraint} (h : c ∈ declared shape n t fks) :
    c.child = n ∧ c.parent ∈ fks.map Prod.snd := by
  rw [declared] at h
  split at h
  · cases h
  · rename_i es hEs
    rw [← map_uncurry_zip_eq_zipWith, mem_map] at h
    obtain ⟨⟨p, e⟩, hMem, rfl⟩ := h
    exact ⟨rfl, (of_mem_zip hMem).1⟩

end Create

section Invariant

variable {decode : Str → Str}

abbrev Held (decode : Str → Str) (cat : Catalog) (cs : List Constraint) : Prop :=
  Mirrors FkCatalogEntry.keys fkSerialize cat (cs.map (Constraint.entry decode))

structure Inv (decode : Str → Str) (s : State) : Prop where
  fits : ∀ c ∈ s.constraints, c.Fits
  nameFits : ∀ n ∈ s.involved, NameFits decode n
  childIn : ∀ c ∈ s.constraints, c.child ∈ s.tables
  ids : (s.constraints.map Constraint.id).Nodup
  apart : FamiliesApart s.involved
  held : Held decode s.catalog s.constraints

variable {s : State}

variable {c : Constraint}

theorem Inv.child_mem (h : Inv decode s) (hc : c ∈ s.constraints) : c.child ∈ s.involved :=
  mem_append_left _ (h.childIn c hc)

theorem parent_mem (hc : c ∈ s.constraints) : c.parent ∈ s.involved :=
  mem_append_right _ (mem_map_of_mem hc)

theorem Inv.entry_fits (h : Inv decode s) (hc : c ∈ s.constraints) : (c.entry decode).Fits :=
  (h.fits c hc).entry (h.nameFits _ (h.child_mem hc)) (h.nameFits _ (parent_mem hc))

theorem Inv.keysApart (h : Inv decode s) :
    KeysApart FkCatalogEntry.keys (s.constraints.map (Constraint.entry decode)) :=
  keysApart_of_ids h.ids h.nameFits h.apart (fun _ hc => h.child_mem hc) fun _ hc => parent_mem hc

theorem names_entry {ns : List TableName} (hApart : FamiliesApart ns) {n : TableName} (hn : n ∈ ns)
    (hChild : c.child ∈ ns) (hParent : c.parent ∈ ns) :
    (decide ((c.entry decode).childCf = cfOf n) || decide ((c.entry decode).parentCf = cfOf n)) = c.names n := by
  have hSame {m : TableName} (hm : m ∈ ns) : decide (cfOf m = cfOf n) = decide (m = n) :=
    decide_eq_decide.mpr ⟨hApart m hm n hn, congrArg cfOf⟩
  rw [Constraint.names, ← hSame hChild, ← hSame hParent]
  rfl

theorem namesCf_entry {e : FkCatalogEntry} (h : e.Fits) (cf : Str) :
    namesCf cf (fkSerialize e) = (decide (e.childCf = cf) || decide (e.parentCf = cf)) := by
  rw [namesCf, fkDeserialize_fkSerialize h, Option.any_some]

section Drop

theorem Inv.purged (h : Inv decode s) (n : TableName) (k : Str) :
    k ∈ ((scan s.catalog).filter fun kv => namesCf (cfOf n) kv.2).map Prod.fst ↔
      ∃ e ∈ s.constraints.map (Constraint.entry decode),
        (decide (e.childCf = cfOf n) || decide (e.parentCf = cfOf n)) = true ∧ k ∈ e.keys := by
  simp only [mem_map, mem_filter, Prod.exists, exists_and_right, exists_eq_right, mem_scan_iff]
  constructor
  · rintro ⟨v, hGet, hNames⟩
    obtain ⟨e, he, hk, rfl⟩ := (h.held k v).mp hGet
    obtain ⟨c, hc, rfl⟩ := mem_map.mp he
    rw [namesCf_entry (h.entry_fits hc)] at hNames
    exact ⟨_, ⟨c, hc, rfl⟩, hNames, hk⟩
  · rintro ⟨e, ⟨c, hc, rfl⟩, hNames, hk⟩
    refine ⟨fkSerialize (c.entry decode), (h.held k _).mpr ⟨_, mem_map_of_mem hc, hk, rfl⟩, ?_⟩
    rw [namesCf_entry (h.entry_fits hc), hNames]

theorem Inv.held_drop (h : Inv decode s) {n : TableName} (hn : n ∈ s.tables) :
    Held decode (fkPurgeCatalog (cfOf n) s.catalog) (s.constraints.filter fun c => !c.names n) := by
  have hFilter : (s.constraints.map (Constraint.entry decode)).filter
      (fun e => !(decide (e.childCf = cfOf n) || decide (e.parentCf = cfOf n))) =
      (s.constraints.filter fun c => !c.names n).map (Constraint.entry decode) := by
    rw [filter_map]
    refine congrArg (map _) (filter_congr fun c hc => ?_)
    rw [comp_apply, names_entry h.apart (mem_append_left _ hn) (h.child_mem hc) (parent_mem hc)]
  rw [Held, ← hFilter]
  exact h.held.dropAll h.keysApart (h.purged n)

end Drop

section Rename

theorem entry_renamed {ns : List TableName} (hApart : FamiliesApart ns) {c : Constraint} {n : TableName} (hn : n ∈ ns)
    (m : TableName) (hChild : c.child ∈ ns) (hParent : c.parent ∈ ns) :
    (c.renamed n m).entry decode =
      (c.entry decode).renamed (cfOf n) (cfOf m) (decode m.db.chars) (decode m.table.chars) := by
  have hCf {x : TableName} (hx : x ∈ ns) : cfOf x = cfOf n ↔ x = n := ⟨hApart x hx n hn, congrArg cfOf⟩
  simp only [FkCatalogEntry.renamed, Constraint.renamed]
  by_cases hc : c.child = n
  · by_cases hp : c.parent = n
    · simp [Constraint.entry, hc, hp]
    · simp [Constraint.entry, hc, hp, hCf hParent]
  · by_cases hp : c.parent = n
    · simp [Constraint.entry, hc, hp, hCf hChild]
    · simp [Constraint.entry, hc, hp, hCf hChild, hCf hParent]

theorem renamed_of_unnamed {e : FkCatalogEntry} {cf newCf db table : Str}
    (h : (decide (e.childCf = cf) || decide (e.parentCf = cf)) = false) : e.renamed cf newCf db table = e := by
  rw [Bool.or_eq_false_iff, decide_eq_false_iff_not, decide_eq_false_iff_not] at h
  rw [FkCatalogEntry.renamed, if_neg h.1, if_neg h.2]

theorem Inv.mem_constraintsOf (h : Inv decode s) (cf : Str) (e : FkCatalogEntry) :
    e ∈ constraintsOf cf s.catalog ↔ e ∈ s.constraints.map (Constraint.entry decode) ∧
      (decide (e.childCf = cf) || decide (e.parentCf = cf)) = true := by
  simp only [constraintsOf, mem_filterMap, mem_filter, Prod.exists, mem_scan_iff]
  constructor
  · rintro ⟨k, v, ⟨hGet, hNames⟩, hRead⟩
    obtain ⟨e', he', hk, rfl⟩ := (h.held k v).mp hGet
    obtain ⟨c, hc, rfl⟩ := mem_map.mp he'
    rw [fkDeserialize_fkSerialize (h.entry_fits hc), Option.some_inj] at hRead
    subst hRead
    rw [namesCf_entry (h.entry_fits hc)] at hNames
    exact ⟨he', (Bool.and_eq_true_iff.mp hNames).2⟩
  · rintro ⟨he, hNames⟩
    obtain ⟨c, hc, rfl⟩ := mem_map.mp he
    have hKey : fkChildKey (c.entry decode).childCf (c.entry decode).name ∈ (c.entry decode).keys := mem_cons_self
    refine ⟨_, _, ⟨(h.held _ _).mpr ⟨_, he, hKey, rfl⟩, ?_⟩, fkDeserialize_fkSerialize (h.entry_fits hc)⟩
    rw [namesCf_entry (h.entry_fits hc), hNames]
    rfl

theorem child_renamed (n m : TableName) (c : Constraint) :
    (c.renamed n m).child = if c.child = n then m else c.child := rfl

theorem parent_renamed (n m : TableName) (c : Constraint) :
    (c.renamed n m).parent = if c.parent = n then m else c.parent := rfl

theorem eq_of_renamed_eq {n m x y : TableName} (hx : x ≠ m) (hy : y ≠ m)
    (h : (if x = n then m else x) = if y = n then m else y) : x = y := by
  by_cases hxn : x = n
  · by_cases hyn : y = n
    · rw [hxn, hyn]
    · rw [if_pos hxn, if_neg hyn] at h
      exact absurd h.symm hy
  · by_cases hyn : y = n
    · rw [if_neg hxn, if_pos hyn] at h
      exact absurd h hx
    · rwa [if_neg hxn, if_neg hyn] at h

variable {n m : TableName}

theorem Inv.ids_renamed (h : Inv decode s) (hm : m ∉ s.tables) :
    ((s.constraints.map (Constraint.renamed n m)).map Constraint.id).Nodup := by
  have hMap : (s.constraints.map (Constraint.renamed n m)).map Constraint.id =
      (s.constraints.map Constraint.id).map fun i => (if i.1 = n then m else i.1, i.2) := by
    rw [map_map, map_map]
    rfl
  rw [hMap]
  refine h.ids.map_on fun i hi j hj hEq => ?_
  obtain ⟨c, hc, rfl⟩ := mem_map.mp hi
  obtain ⟨c', hc', rfl⟩ := mem_map.mp hj
  obtain ⟨hChild, hName⟩ := Prod.ext_iff.mp hEq
  dsimp only [Constraint.id] at hChild hName
  have hOld : c.child ≠ m := fun hEq => hm (hEq ▸ h.childIn c hc)
  have hOld' : c'.child ≠ m := fun hEq => hm (hEq ▸ h.childIn c' hc')
  exact Prod.ext (eq_of_renamed_eq hOld hOld' hChild) hName

theorem involved_renamed {n m x : TableName}
    (hx : x ∈ m :: s.tables.filter (· ≠ n) ++ (s.constraints.map (Constraint.renamed n m)).map Constraint.parent) :
    x ∈ m :: s.involved := by
  rw [cons_append, mem_cons, mem_append, map_map, mem_map] at hx
  obtain rfl | hx | ⟨c, hc, rfl⟩ := hx
  · exact mem_cons_self
  · exact mem_cons_of_mem m (mem_append_left _ (mem_of_mem_filter hx))
  · rw [comp_apply, parent_renamed]
    split
    · exact mem_cons_self
    · exact mem_cons_of_mem m (parent_mem hc)

theorem Inv.childIn_renamed (h : Inv decode s) {c : Constraint} (hc : c ∈ s.constraints.map (Constraint.renamed n m)) :
    c.child ∈ m :: s.tables.filter (· ≠ n) := by
  obtain ⟨c₀, hc₀, rfl⟩ := mem_map.mp hc
  rw [child_renamed]
  split
  · exact mem_cons_self
  · rename_i hNe
    exact mem_cons_of_mem m (mem_filter.mpr ⟨h.childIn c₀ hc₀, decide_eq_true hNe⟩)

theorem Inv.map_renamed (h : Inv decode s) (hn : n ∈ s.tables) :
    (s.constraints.map (Constraint.entry decode)).map (fun e =>
      if decide (e.childCf = cfOf n) || decide (e.parentCf = cfOf n) then
        e.renamed (cfOf n) (cfOf m) (decode m.db.chars) (decode m.table.chars) else e) =
      (s.constraints.map (Constraint.renamed n m)).map (Constraint.entry decode) := by
  rw [map_map, map_map]
  refine map_congr_left fun c hc => ?_
  rw [comp_apply, comp_apply, entry_renamed h.apart (mem_append_left _ hn) m (h.child_mem hc) (parent_mem hc)]
  split
  · rfl
  · rename_i hNot
    exact (renamed_of_unnamed (Bool.eq_false_of_not_eq_true hNot)).symm

theorem fkRenameCatalog_eq (hNe : cfOf n ≠ cfOf m) (cat : Catalog) : fkRenameCatalog decode n.path m.path cat =
      (cat.dropAll ((constraintsOf (cfOf n) cat).flatMap FkCatalogEntry.keys)).putAll
        (((constraintsOf (cfOf n) cat).map
          (FkCatalogEntry.renamed (cfOf n) (cfOf m) (decode m.db.chars) (decode m.table.chars))).flatMap
            FkCatalogEntry.records) := by
  rw [fkRenameCatalog]
  simp only [splitTablePath_path]
  exact if_neg hNe

theorem Inv.rename (h : Inv decode s) (hn : n ∈ s.tables) (hm : m ∉ s.tables) (hFits : NameFits decode m)
    (hApart : FamiliesApart (m :: s.involved)) :
    Inv decode ⟨m :: s.tables.filter (· ≠ n), s.constraints.map (Constraint.renamed n m),
      fkRenameCatalog decode n.path m.path s.catalog⟩ := by
  have hNames : ∀ x ∈ m :: s.involved, NameFits decode x := forall_mem_cons.mpr ⟨hFits, h.nameFits⟩
  have hIn : n ∈ m :: s.involved := mem_cons_of_mem m (mem_append_left _ hn)
  have hCf : cfOf n ≠ cfOf m := fun hEq => hm (hApart n hIn m mem_cons_self hEq ▸ hn)
  have hKeys : KeysApart FkCatalogEntry.keys
      ((s.constraints.map (Constraint.renamed n m)).map (Constraint.entry decode)) :=
    keysApart_of_ids (h.ids_renamed hm) hNames hApart
      (fun c hc => involved_renamed (mem_append_left _ (h.childIn_renamed hc)))
      fun c hc => involved_renamed (mem_append_right _ (mem_map_of_mem hc))
  constructor
  case fits =>
    intro c hc
    obtain ⟨c₀, hc₀, rfl⟩ := mem_map.mp hc
    obtain ⟨h₁, h₂, h₃, h₄, h₅, h₆, h₇⟩ := h.fits c₀ hc₀
    exact ⟨h₁, h₂, h₃, h₄, h₅, h₆, h₇⟩
  case nameFits => exact fun x hx => hNames x (involved_renamed hx)
  case childIn => exact fun c hc => h.childIn_renamed hc
  case ids => exact h.ids_renamed hm
  case apart => exact fun x hx y hy => hApart x (involved_renamed hx) y (involved_renamed hy)
  case held =>
    dsimp only
    rw [fkRenameCatalog_eq hCf, Held, ← h.map_renamed hn]
    rw [← h.map_renamed hn] at hKeys
    exact h.held.replace h.keysApart hKeys (h.mem_constraintsOf (cfOf n))

end Rename

theorem Inv.drop (h : Inv decode s) {n : TableName} (hn : n ∈ s.tables) :
    Inv decode ⟨s.tables.filter (· ≠ n), s.constraints.filter (fun c => !c.names n),
      fkPurgeCatalog (cfOf n) s.catalog⟩ := by
  have hSub : ∀ x ∈ s.tables.filter (· ≠ n) ++ (s.constraints.filter (fun c => !c.names n)).map Constraint.parent,
      x ∈ s.involved := by
    intro x hx
    obtain hx | hx := mem_append.mp hx
    · exact mem_append_left _ (mem_of_mem_filter hx)
    · exact mem_append_right _ (map_subset _ (filter_subset_self _) hx)
  constructor
  case fits => exact fun c hc => h.fits c (mem_of_mem_filter hc)
  case nameFits => exact fun x hx => h.nameFits x (hSub x hx)
  case childIn =>
    intro c hc
    obtain ⟨hc, hNot⟩ := mem_filter.mp hc
    have hNe : c.child ≠ n := by
      rintro rfl
      simp [Constraint.names] at hNot
    exact mem_filter.mpr ⟨h.childIn c hc, decide_eq_true hNe⟩
  case ids => exact h.ids.sublist (filter_sublist.map _)
  case apart => exact fun x hx y hy => h.apart x (hSub x hx) y (hSub y hy)
  case held => exact h.held_drop hn

section Create

variable {shape : Str → Str → List UInt8} {n : TableName} {t : TableArg} {fks : List (FkSpec × TableName)}
    {cat : Catalog}

theorem declared_spec (hPersist : fkPersistDefs shape n.path (declaring t fks) s.catalog = .ok cat)
    (hDeclares : Declares decode n t fks) (hRaw : ∀ f ∈ fks, toCfName (rawPath t f.1) = cfOf f.2) :
    cat = s.catalog.putAll (((declared shape n (declaring t fks) fks).map (Constraint.entry decode)).flatMap
      (Mirror.records FkCatalogEntry.keys fkSerialize)) ∧
      (declared shape n (declaring t fks) fks).map Constraint.name = fkNames t.tableName (fks.map Prod.fst) 0 := by
  rw [fkPersistDefs] at hPersist
  split at hPersist
  · cases hPersist
  · rename_i es hEs
    cases hPersist
    have hDeclared : declared shape n (declaring t fks) fks = zipWith (Constraint.ofEntry n) (fks.map Prod.snd) es := by
      change fkEntries shape n.path (declaring t fks) (fks.map Prod.fst) 0 = _ at hEs
      rw [declared, hEs]
    obtain ⟨hMap, hNames⟩ := entries_of_fkEntries decode shape hEs hDeclares hRaw
    refine ⟨?_, ?_⟩
    · rw [hDeclared, hMap]
      rfl
    · rw [hDeclared]
      refine Eq.trans ?_ hNames
      conv_rhs => rw [← hMap, map_map]
      rfl

theorem involved_create {x : TableName}
    (hx : x ∈ n :: s.tables ++ (s.constraints ++ declared shape n (declaring t fks) fks).map Constraint.parent) :
    x ∈ n :: fks.map Prod.snd ++ s.involved := by
  rw [State.involved]
  simp only [map_append, mem_append, mem_cons] at hx ⊢
  obtain (rfl | hx) | hx | hx := hx
  · exact .inl (.inl rfl)
  · exact .inr (.inl hx)
  · exact .inr (.inr hx)
  · obtain ⟨c, hc, rfl⟩ := mem_map.mp hx
    exact .inl (.inr (child_declared shape hc).2)

theorem Inv.ids_create (h : Inv decode s) (hn : n ∉ s.tables)
    (hNames : ((declared shape n (declaring t fks) fks).map Constraint.name).Nodup) :
    ((s.constraints ++ declared shape n (declaring t fks) fks).map Constraint.id).Nodup := by
  have hNew : (declared shape n (declaring t fks) fks).map Constraint.id =
      ((declared shape n (declaring t fks) fks).map Constraint.name).map (Prod.mk n) := by
    rw [map_map]
    exact map_congr_left fun c hc => Prod.ext (child_declared shape hc).1 rfl
  rw [map_append, nodup_append]
  refine ⟨h.ids, ?_, ?_⟩
  · rw [hNew]
    exact hNames.map (Prod.mk_right_injective n)
  · rintro i hi j hj rfl
    obtain ⟨c, hc, rfl⟩ := mem_map.mp hi
    obtain ⟨c', hc', hId⟩ := mem_map.mp hj
    have hChild : c'.child = c.child := congrArg Prod.fst hId
    rw [(child_declared shape hc').1] at hChild
    exact hn (hChild ▸ h.childIn c hc)

theorem Inv.create (h : Inv decode s) (hn : n ∉ s.tables) (hDeclares : Declares decode n t fks)
    (hAssumed : Assumed decode (.create shape n t fks)) (hSound : Sound s (.create shape n t fks))
    (hPersist : fkPersistDefs shape n.path (declaring t fks) s.catalog = .ok cat) :
    Inv decode ⟨n :: s.tables, s.constraints ++ declared shape n (declaring t fks) fks, cat⟩ := by
  obtain ⟨hChildFits, hParentFits, hFits⟩ := hAssumed
  obtain ⟨hRaw, hNodup, hApart⟩ := hSound
  obtain ⟨rfl, hNames⟩ := declared_spec hPersist hDeclares hRaw
  have hIds : ((s.constraints ++ declared shape n (declaring t fks) fks).map Constraint.id).Nodup :=
    h.ids_create hn (hNames ▸ hNodup)
  have hSub : ∀ x ∈ n :: s.tables ++ (s.constraints ++ declared shape n (declaring t fks) fks).map Constraint.parent,
      x ∈ n :: fks.map Prod.snd ++ s.involved := fun _ hx => involved_create hx
  have hAll : ∀ x ∈ n :: fks.map Prod.snd ++ s.involved, NameFits decode x := by
    intro x hx
    obtain hx | hx := mem_append.mp hx
    · obtain rfl | hx := mem_cons.mp hx
      · exact hChildFits
      · obtain ⟨f, hf, rfl⟩ := mem_map.mp hx
        exact hParentFits f hf
    · exact h.nameFits x hx
  have hChild : ∀ c ∈ s.constraints ++ declared shape n (declaring t fks) fks, c.child ∈ n :: s.tables := by
    intro c hc
    obtain hc | hc := mem_append.mp hc
    · exact mem_cons_of_mem n (h.childIn c hc)
    · exact mem_cons.mpr (.inl (child_declared shape hc).1)
  have hKeys : KeysApart FkCatalogEntry.keys
      ((s.constraints ++ declared shape n (declaring t fks) fks).map (Constraint.entry decode)) :=
    keysApart_of_ids hIds hAll hApart (fun c hc => hSub _ (mem_append_left _ (hChild c hc)))
      fun c hc => hSub _ (mem_append_right _ (mem_map_of_mem hc))
  constructor
  case fits =>
    intro c hc
    obtain hc | hc := mem_append.mp hc
    · exact h.fits c hc
    · exact hFits c hc
  case nameFits => exact fun x hx => hAll x (hSub x hx)
  case childIn => exact hChild
  case ids => exact hIds
  case apart => exact fun x hx y hy => hApart x (hSub x hx) y (hSub y hy)
  case held =>
    dsimp only
    rw [Held, map_append]
    rw [map_append] at hKeys
    exact h.held.putAll hKeys

end Create

theorem inv_init : Inv decode init where
  fits := fun _ hc => absurd hc not_mem_nil
  nameFits := fun _ hn => absurd hn not_mem_nil
  childIn := fun _ hc => absurd hc not_mem_nil
  ids := nodup_nil
  apart := fun _ hn => absurd hn not_mem_nil
  held := mirrors_empty

theorem inv_step {a : Action} {s' : State} (h : Inv decode s) (hGuard : Guard decode s a)
    (hStep : step decode s a = some s') : Inv decode s' := by
  obtain ⟨hAssumed, hSound⟩ := hGuard
  cases a with
  | create shape n t fks =>
    rw [step] at hStep
    split at hStep
    · cases hStep
    · rename_i hNot
      obtain ⟨hn, hDeclares⟩ := not_or.mp hNot
      split at hStep
      · cases hStep
        exact h
      · rename_i hPersist
        cases hStep
        exact h.create hn (not_not.mp hDeclares) hAssumed hSound hPersist
  | rename n m =>
    rw [step] at hStep
    split at hStep
    · cases hStep
    · rename_i hNot
      obtain ⟨hn, hm⟩ := not_or.mp hNot
      cases hStep
      exact h.rename (not_not.mp hn) hm hAssumed hSound
  | drop n =>
    rw [step] at hStep
    split at hStep
    · cases hStep
    · rename_i hNot
      cases hStep
      exact h.drop (not_not.mp hNot)

end Invariant

section Records

variable {decode : Str → Str} {s : State}

/-- Each constraint has exactly two records, which are equal and shared with no other. -/
structure Mirrored (decode : Str → Str) (s : State) : Prop where
  held : ∀ k v, s.catalog.get k = some v ↔
    ∃ c ∈ s.constraints, k ∈ (c.entry decode).keys ∧ v = fkSerialize (c.entry decode)
  two : ∀ c ∈ s.constraints, (c.entry decode).keys.Nodup
  apart : s.constraints.Pairwise fun c c' => (c.entry decode).keys.Disjoint (c'.entry decode).keys

theorem held_iff {cat : Catalog} {cs : List Constraint} (h : Held decode cat cs) (k v : Str) :
    cat.get k = some v ↔ ∃ c ∈ cs, k ∈ (c.entry decode).keys ∧ v = fkSerialize (c.entry decode) := by
  rw [h k v]
  constructor
  · rintro ⟨e, he, hk⟩
    obtain ⟨c, hc, rfl⟩ := mem_map.mp he
    exact ⟨c, hc, hk⟩
  · rintro ⟨c, hc, hk⟩
    exact ⟨_, mem_map_of_mem hc, hk⟩

section

variable (h : Inv decode s)
include h

theorem Inv.eq_of_key {c c' : Constraint} (hc : c ∈ s.constraints) (hc' : c' ∈ s.constraints) {k : Str}
    (hk : k ∈ (c.entry decode).keys) (hk' : k ∈ (c'.entry decode).keys) : c = c' :=
  eq_of_shared_key h.ids h.nameFits h.apart (fun _ hc => h.child_mem hc) (fun _ hc => parent_mem hc) hc hc' hk hk'

theorem Inv.mirrored : Mirrored decode s where
  held := held_iff h.held
  two := fun _ _ => nodup_keys _
  apart := (Nodup.of_map _ h.ids).pairwise_of_forall_ne fun _ hc _ hc' hNe _ hk hk' =>
    hNe (h.eq_of_key hc hc' hk hk')

theorem Inv.get_rename {n m : TableName} {s' : State} (hGuard : Guard decode s (.rename n m))
    (hStep : step decode s (.rename n m) = some s') (k v : Str) : s'.catalog.get k = some v ↔ ∃ c ∈ s.constraints,
      k ∈ ((c.renamed n m).entry decode).keys ∧ v = fkSerialize ((c.renamed n m).entry decode) := by
  have hInv := inv_step h hGuard hStep
  rw [step] at hStep
  split at hStep
  · cases hStep
  · cases hStep
    rw [held_iff hInv.held]
    simp only [mem_map, exists_exists_and_eq_and]

theorem Inv.get_drop {n : TableName} {s' : State} (hStep : step decode s (.drop n) = some s') (k v : Str) :
    s'.catalog.get k = some v ↔ s.catalog.get k = some v ∧
      ¬∃ c ∈ s.constraints, c.names n = true ∧ k ∈ (c.entry decode).keys := by
  rw [step] at hStep
  split at hStep
  · cases hStep
  · rename_i hNot
    cases hStep
    rw [held_iff (h.held_drop (not_not.mp hNot)), held_iff h.held]
    constructor
    · rintro ⟨c, hc, hk, rfl⟩
      obtain ⟨hc, hUnnamed⟩ := mem_filter.mp hc
      refine ⟨⟨c, hc, hk, rfl⟩, ?_⟩
      rintro ⟨c', hc', hNames, hk'⟩
      rw [h.eq_of_key hc hc' hk hk', hNames] at hUnnamed
      cases hUnnamed
    · rintro ⟨⟨c, hc, hk, rfl⟩, hNone⟩
      refine ⟨c, mem_filter.mpr ⟨hc, ?_⟩, hk, rfl⟩
      cases hNames : c.names n with
      | false => rfl
      | true => exact absurd ⟨c, hc, hNames, hk⟩ hNone

end

/-- In every run whose steps meet the condition the catalog mirrors the constraints, and renames and drops change the
records about their table only. -/
theorem catalog_mirrored (h : Reach (step decode) (Guard decode) init s) : Mirrored decode s ∧
      (∀ n m s', Guard decode s (.rename n m) → step decode s (.rename n m) = some s' →
        ∀ k v, s'.catalog.get k = some v ↔ ∃ c ∈ s.constraints,
          k ∈ ((c.renamed n m).entry decode).keys ∧ v = fkSerialize ((c.renamed n m).entry decode)) ∧
      ∀ n s', step decode s (.drop n) = some s' → ∀ k v, s'.catalog.get k = some v ↔ s.catalog.get k = some v ∧
          ¬∃ c ∈ s.constraints, c.names n = true ∧ k ∈ (c.entry decode).keys := by
  have hInv : Inv decode s := h.invariant (Inv decode) inv_init fun _ _ _ hInv hGuard hStep =>
    inv_step hInv hGuard hStep
  exact ⟨hInv.mirrored, fun _ _ _ hGuard hStep => hInv.get_rename hGuard hStep, fun _ _ hStep => hInv.get_drop hStep⟩

end Records

section Sample

def plainName : Str → Str
  | '@' :: '0' :: '0' :: '2' :: 'd' :: rest => '-' :: plainName rest
  | c :: rest => c :: plainName rest
  | [] => []

def componentD : Component := ⟨['d'], by decide, by decide, by decide⟩
def componentP : Component := ⟨['p'], by decide, by decide, by decide⟩
def componentQ : Component := ⟨['q'], by decide, by decide, by decide⟩

def componentPB : Component := ⟨['p', '@', '0', '0', '2', 'd', 'b'], by decide, by decide, by decide⟩

def childTable : TableName := ⟨componentD, tableC⟩

def parentKeyDef : KeyDef := ⟨['P', 'R', 'I', 'M', 'A', 'R', 'Y'], [⟨['i', 'd'], false⟩]⟩

def plainTable (name : Str) : TableArg := ⟨['d'], name, true, [⟨['i', 'd'], false⟩], [parentKeyDef], some 0, [], 0⟩

def refersTo (table : Str) : FkSpec := ⟨['k'], [['i', 'd']], [], table, [['i', 'd']], [], 0, 0⟩

def parentAndChild (parent : Component) (name : Str) : List Action :=
  [.create (fun _ _ => []) ⟨componentD, parent⟩ (plainTable name) [],
    .create (fun _ _ => []) childTable (plainTable ['c']) [(refersTo name, ⟨componentD, parent⟩)]]

def tableP : TableName := ⟨componentD, componentP⟩
def tableQ : TableName := ⟨componentD, componentQ⟩
def tablePB : TableName := ⟨componentD, componentPB⟩

theorem catalog_mirrored_renamed :
    ∃ s, Mirrored plainName s ∧ s.constraints.map (fun c => (c.child, c.parent)) = [(childTable, tableQ)] := by
  have hRun : (guardedRun (step plainName) (Guard plainName) init
      (parentAndChild componentP ['p'] ++ [.rename tableP tableQ])).any
      (fun s => s.constraints.map (fun c => (c.child, c.parent)) = [(childTable, tableQ)]) = true := by decide
  obtain ⟨s, hReach, hPairs⟩ := reach_of_any_guardedRun hRun
  exact ⟨s, (catalog_mirrored hReach).1, of_decide_eq_true hPairs⟩

/-- The child of `p-b` is recorded under a family that no table has. -/
theorem parent_recorded_elsewhere : (∀ a ∈ parentAndChild componentPB ['p', '-', 'b'], Assumed plainName a) ∧
      ∃ s, run (step plainName) init (parentAndChild componentPB ['p', '-', 'b']) = some s ∧
        s.tables = [childTable, tablePB] ∧ s.constraints.map (fun c => (c.child, c.parent)) = [(childTable, tablePB)] ∧
        ¬Mirrored plainName s := by
  refine ⟨by decide, _, rfl, by decide, by decide, ?_⟩
  intro hMirrored
  have hKey := (hMirrored.held (fkParentKey (cfOf tablePB) (cfOf childTable) ['k']) _).mpr
    ⟨_, mem_singleton_self _, mem_cons_of_mem _ mem_cons_self, rfl⟩
  revert hKey
  decide

end Sample

end TideSql.FkRecords
