import TideSql.Core.CfName
import TideSql.Lib.Store
import Mathlib.Data.List.Dedup

/-!
# Dropping databases and tables, renaming tables

All three operations find the families they touch by a name prefix over the list of every family of the
engine.
-/

namespace TideSql.Lifecycle
open CfName Lib List

abbrev Families (γ : Type) := Store Str γ

variable {γ : Type}

def sweep (pre : Str) (s : Families γ) : List Str := s.names.filter fun name => pre.isPrefixOf name

def dropTableCfsNow (path : Str) (s : Families γ) : Families γ :=
  let cfName := toCfName path
  let idxCfNames := sweep (cfName ++ cfIndexInfix) s
  (s.drop cfName).dropAll idxCfNames

def renamedIdx (oldCf newCf name : Str) : Str :=
  newCf ++ cfIndexInfix ++ name.drop (oldCf ++ cfIndexInfix).length

def renameTable (source target : Str) (s : Families γ) : Families γ :=
  let oldCf := toCfName source
  let newCf := toCfName target
  let s := s.moveOver oldCf newCf
  s.moveAll (renamedIdx oldCf newCf) (sweep (oldCf ++ cfIndexInfix) s)

def pathToDbName (path : Str) : Str :=
  let p := path.reverse.dropWhile (· = '/')
  (p.takeWhile fun c => c ≠ '/' ∧ c ≠ '\\').reverse

def htonDropDatabase (path : Str) (s : Families γ) : Families γ :=
  let db := pathToDbName path
  if db = [] then s else s.dropAll (sweep (db ++ dbTableSep) s)

def dbPath (d : Component) : Str := relPathPrefix ++ d.chars ++ ['/']

theorem pathToDbName_dbPath (d : Component) : pathToDbName (dbPath d) = d.chars := by
  have hRev : (dbPath d).reverse = '/' :: (d.chars.reverse ++ ['/', '.']) := by
    simp [dbPath, relPathPrefix]
  have hAll : ∀ c ∈ d.chars.reverse, c ≠ '/' ∧ c ≠ '\\' := fun c hc => by
    have hMem := List.mem_reverse.mp hc
    exact ⟨fun h => d.noSlash (h ▸ hMem), fun h => d.noBackslash (h ▸ hMem)⟩
  have hDrop : (dbPath d).reverse.dropWhile (· = '/') = d.chars.reverse ++ ['/', '.'] := by
    rw [hRev]
    cases hChars : d.chars.reverse with
    | nil => exact absurd (List.reverse_eq_nil_iff.mp hChars) d.ne_nil
    | cons c cs =>
      have hc := hAll c (hChars ▸ mem_cons_self)
      simp [hc.1]
  simp only [pathToDbName, hDrop]
  rw [takeWhile_append_of_pos (fun c hc => by simpa using hAll c hc)]
  simp

theorem mem_sweep_iff (pre : Str) (s : Families γ) (name : Str) :
    name ∈ sweep pre s ↔ name ∈ s.names ∧ pre <+: name := by
  simp [sweep, mem_filter]

section Selection

/-- The families `DROP DATABASE d` selects: those whose name can be cut after `d`. -/
def SweptByDb (d : Component) (o : StorageObject) : Prop :=
  d.chars = o.owner.cfDb ∨ o.owner.cfDb = d.chars ++ ['_'] ∨ d.chars ++ dbTableSep <+: o.owner.cfDb ∨
    (d.chars = o.owner.cfDb ++ ['_'] ∧ ['_'] <+: o.tail) ∨
    ∃ x, d.chars = o.owner.cfDb ++ (dbTableSep ++ x) ∧ x ++ dbTableSep <+: o.tail

/-- The families `DROP TABLE n` and `RENAME TABLE n` select: those whose name can be cut into the
table or into the table and some index name. -/
def SweptByTable (n : TableName) (o : StorageObject) : Prop :=
  Ambiguous (.data n) o ∨ ∃ k, Ambiguous (.index n k) o

theorem dbSweep_iff_cut (d : Component) (o : StorageObject) :
    d.chars ++ dbTableSep <+: o.familyName ↔ ∃ r, (d.chars = o.owner.cfDb ∧ r = o.tail) ∨
      DbCutRight d.chars r o.owner.cfDb o.tail ∨ DbCutRight o.owner.cfDb o.tail d.chars r := by
  rw [o.familyName_eq]
  refine exists_congr fun r => ?_
  rw [append_assoc, Join.join_eq_iff, shift_dbTableSep_iff, shift_dbTableSep_iff]

theorem dbSweep_iff (d : Component) (o : StorageObject) : d.chars ++ dbTableSep <+: o.familyName ↔ SweptByDb d o := by
  rw [dbSweep_iff_cut]
  constructor
  · rintro ⟨r, ⟨hDb, _⟩ | (⟨hDb, _⟩ | ⟨x, hDb, _⟩) | (⟨hDb, hTail⟩ | ⟨x, hDb, hTail⟩)⟩
    · exact Or.inl hDb
    · exact Or.inr (Or.inl hDb)
    · exact Or.inr (Or.inr (Or.inl ⟨x, by rw [hDb, append_assoc]⟩))
    · exact Or.inr (Or.inr (Or.inr (Or.inl ⟨hDb, r, hTail.symm⟩)))
    · exact Or.inr (Or.inr (Or.inr (Or.inr ⟨x, hDb, r, by rw [hTail, append_assoc]⟩)))
  · rintro (hDb | hDb | ⟨x, hDb⟩ | ⟨hDb, r, hTail⟩ | ⟨x, hDb, r, hTail⟩)
    · exact ⟨o.tail, Or.inl ⟨hDb, rfl⟩⟩
    · exact ⟨'_' :: o.tail, Or.inr (Or.inl (.overlap hDb rfl))⟩
    · exact ⟨_, Or.inr (Or.inl (.whole x (by rw [← hDb, append_assoc]) rfl))⟩
    · exact ⟨r, Or.inr (Or.inr (.overlap hDb hTail.symm))⟩
    · exact ⟨r, Or.inr (Or.inr (.whole x hDb (by rw [← hTail, append_assoc])))⟩

theorem idxSweep_iff (n : TableName) (o : StorageObject) :
    toCfName n.path ++ cfIndexInfix <+: o.familyName ↔ ∃ k, Ambiguous (.index n k) o :=
  exists_congr fun k => familyName_eq_iff (.index n k) o

end Selection

namespace StorageObject

def under (m : TableName) : StorageObject → StorageObject
  | .data _ => .data m
  | .index _ k => .index m k

end StorageObject

inductive NameOp where
  | dropDatabase (d : Component)
  | dropTable (n : TableName)
  | renameTable (n m : TableName)

namespace NameOp

def run : NameOp → Families γ → Families γ
  | dropDatabase d => htonDropDatabase (dbPath d)
  | dropTable n => dropTableCfsNow n.path
  | renameTable n m => Lifecycle.renameTable n.path m.path

def Allowed (catalog : List StorageObject) : NameOp → Prop
  | dropDatabase _ => True
  | dropTable _ => True
  | renameTable n m => StorageObject.data n ∈ catalog ∧ ∀ o ∈ catalog, o.owner ≠ m

def Exact (catalog : List StorageObject) (s s' : Families γ) : NameOp → Prop
  | dropDatabase d => ∀ o ∈ catalog,
      s'.get o.familyName = if o.owner.db = d then none else s.get o.familyName
  | dropTable n => ∀ o ∈ catalog,
      s'.get o.familyName = if o.owner = n then none else s.get o.familyName
  | renameTable n m => ∀ o ∈ catalog,
      (o.owner ≠ n → s'.get o.familyName = s.get o.familyName) ∧
      (o.owner = n → s'.get (StorageObject.under m o).familyName = s.get o.familyName ∧ (s'.get o.familyName = none ∨
          ∃ p ∈ catalog, p.owner = n ∧ (StorageObject.under m p).familyName = o.familyName))

def Separated (catalog : List StorageObject) : NameOp → Prop
  | dropDatabase d => ∀ o ∈ catalog, SweptByDb d o ↔ o.owner.db = d
  | dropTable n => ∀ o ∈ catalog, o.owner ≠ n → ¬SweptByTable n o
  | renameTable n m => ¬SweptByTable n (.data m) ∧
      (∀ o ∈ catalog, o.owner ≠ n → ¬SweptByTable n o ∧ ¬Ambiguous (.data m) o) ∧
      (∀ k, StorageObject.index n k ∈ catalog → ∀ o ∈ catalog, o ≠ .data n → ¬Ambiguous (.index m k) o)

end NameOp

def Represents (catalog : List StorageObject) (s : Families γ) : Prop :=
  ∀ name, name ∈ s.names ↔ ∃ o ∈ catalog, o.familyName = name

variable {catalog : List StorageObject} {s : Families γ}

theorem Represents.mem (h : Represents catalog s) {o : StorageObject} (ho : o ∈ catalog) : o.familyName ∈ s.names :=
  (h o.familyName).mpr ⟨o, ho, rfl⟩

theorem Represents.get_ne_none (h : Represents catalog s) {o : StorageObject} (ho : o ∈ catalog) :
    s.get o.familyName ≠ none :=
  (s.mem_names_iff _).mp (h.mem ho)

theorem represents_ofNames (catalog : List StorageObject) (ks : List Str) (hNodup : ks.Nodup)
    (h : ∀ name, name ∈ ks ↔ ∃ o ∈ catalog, o.familyName = name) (f : Str → γ) :
    Represents catalog (Store.ofNames f ks hNodup) := by
  intro name
  rw [Store.names_ofNames]
  exact h name

theorem sweptByTable_iff (n : TableName) (o : StorageObject) :
    SweptByTable n o ↔ toCfName n.path = o.familyName ∨ toCfName n.path ++ cfIndexInfix <+: o.familyName := by
  rw [SweptByTable, idxSweep_iff, ← familyName_eq_iff]
  rfl

theorem sweptByTable_of_owner (o : StorageObject) : SweptByTable o.owner o := by
  rw [sweptByTable_iff]
  cases o with
  | data n => exact Or.inl rfl
  | index n k => exact Or.inr ⟨k, rfl⟩

theorem get_dropTableCfsNow (path : Str) (s : Families γ) (name : Str) (hName : name ∈ s.names) :
    (dropTableCfsNow path s).get name =
      if toCfName path = name ∨ toCfName path ++ cfIndexInfix <+: name then none else s.get name := by
  simp only [dropTableCfsNow, Store.get_dropAll, Store.get_drop, mem_sweep_iff, hName, true_and]
  by_cases hPre : toCfName path ++ cfIndexInfix <+: name
  · simp [hPre]
  · simp [hPre, eq_comm]

theorem get_htonDropDatabase (d : Component) (s : Families γ) (name : Str) (hName : name ∈ s.names) :
    (htonDropDatabase (dbPath d) s).get name = if d.chars ++ dbTableSep <+: name then none else s.get name := by
  simp only [htonDropDatabase, pathToDbName_dbPath, if_neg d.ne_nil, Store.get_dropAll, mem_sweep_iff, hName, true_and]

theorem erased_eq_iff {x : Option γ} (hLive : x ≠ none) (sel want : Prop) [Decidable sel] [Decidable want] :
    (if sel then none else x) = (if want then none else x) ↔ (sel ↔ want) := by
  by_cases hSel : sel
  · by_cases hWant : want
    · simp [hSel, hWant]
    · simp [hSel, hWant, hLive.symm]
  · by_cases hWant : want
    · simp [hSel, hWant, hLive]
    · simp [hSel, hWant]

theorem dropDatabase_exact_iff (d : Component) (hs : Represents catalog s) :
    (NameOp.dropDatabase d).Exact catalog s ((NameOp.dropDatabase d).run s) ↔
      (NameOp.dropDatabase d).Separated catalog := by
  refine forall₂_congr fun o ho => ?_
  rw [NameOp.run, get_htonDropDatabase d s _ (hs.mem ho), erased_eq_iff (hs.get_ne_none ho), dbSweep_iff]

theorem dropTable_exact_iff (n : TableName) (hs : Represents catalog s) :
    (NameOp.dropTable n).Exact catalog s ((NameOp.dropTable n).run s) ↔ (NameOp.dropTable n).Separated catalog := by
  refine forall₂_congr fun o ho => ?_
  rw [NameOp.run, get_dropTableCfsNow n.path s _ (hs.mem ho), erased_eq_iff (hs.get_ne_none ho), ← sweptByTable_iff]
  constructor
  · intro h hOwner hSwept
    exact hOwner (h.mp hSwept)
  · intro h
    refine ⟨fun hSwept => ?_, fun hOwner => hOwner ▸ sweptByTable_of_owner o⟩
    by_contra hOwner
    exact h hOwner hSwept

section Rename

variable {n m : TableName} {catalog : List StorageObject}

theorem renamedIdx_index (k : Str) :
    renamedIdx (toCfName n.path) (toCfName m.path) (StorageObject.index n k).familyName =
      (StorageObject.index m k).familyName := by
  have hDrop : (StorageObject.index n k).familyName.drop (toCfName n.path ++ cfIndexInfix).length = k := by
    rw [StorageObject.familyName, idxCfName, drop_left]
  rw [renamedIdx, hDrop, StorageObject.familyName, idxCfName]

theorem index_familyName_ne (n : TableName) (k : Str) : (StorageObject.index n k).familyName ≠ toCfName n.path := by
  intro h
  have hLength := congrArg List.length h
  simp [StorageObject.familyName, idxCfName, cfIndexInfix] at hLength

theorem index_familyName_inj {k k' : Str}
    (h : (StorageObject.index n k).familyName = (StorageObject.index n k').familyName) : k = k' :=
  append_cancel_left h

theorem exists_index_of_idxSweep {name : Str} (h : toCfName n.path ++ cfIndexInfix <+: name) :
    ∃ k, name = (StorageObject.index n k).familyName := by
  obtain ⟨k, hk⟩ := h
  exact ⟨k, hk.symm⟩

structure RenameApart (n m : TableName) (catalog : List StorageObject) : Prop where
  data_ne : toCfName n.path ≠ toCfName m.path
  data_notSwept : ¬toCfName n.path ++ cfIndexInfix <+: toCfName m.path
  other_ne : ∀ o ∈ catalog, o.owner ≠ n → toCfName n.path ≠ o.familyName
  other_notSwept : ∀ o ∈ catalog, o.owner ≠ n → ¬toCfName n.path ++ cfIndexInfix <+: o.familyName
  other_ne_target : ∀ o ∈ catalog, o.owner ≠ n → toCfName m.path ≠ o.familyName
  index_target : ∀ k, StorageObject.index n k ∈ catalog → ∀ o ∈ catalog, o ≠ .data n →
    (StorageObject.index m k).familyName ≠ o.familyName

theorem separated_rename_iff : (NameOp.renameTable n m).Separated catalog ↔ RenameApart n m catalog := by
  simp only [NameOp.Separated, sweptByTable_iff, ← familyName_eq_iff, not_or]
  constructor
  · rintro ⟨⟨hNe, hPre⟩, hOther, hIndex⟩
    exact ⟨hNe, hPre, fun o ho h => (hOther o ho h).1.1, fun o ho h => (hOther o ho h).1.2,
      fun o ho h => (hOther o ho h).2, hIndex⟩
  · intro h
    exact ⟨⟨h.data_ne, h.data_notSwept⟩, fun o ho hOwner => ⟨⟨h.other_ne o ho hOwner, h.other_notSwept o ho hOwner⟩,
        h.other_ne_target o ho hOwner⟩, h.index_target⟩

namespace RenameApart

variable {s : Families γ}

section

variable (h : RenameApart n m catalog) (hs : Represents catalog s)
include h hs

theorem mem_sweep_iff_index (name : Str) :
    name ∈ sweep (toCfName n.path ++ cfIndexInfix) (s.moveOver (toCfName n.path) (toCfName m.path)) ↔
      ∃ k, StorageObject.index n k ∈ catalog ∧ name = (StorageObject.index n k).familyName := by
  rw [mem_sweep_iff, Store.mem_names_iff, Store.get_moveOver s h.data_ne]
  constructor
  · rintro ⟨hLive, hPre⟩
    obtain ⟨k, rfl⟩ := exists_index_of_idxSweep hPre
    have hNew : (StorageObject.index n k).familyName ≠ toCfName m.path := by
      rintro hEq
      exact h.data_notSwept (hEq ▸ hPre)
    rw [if_neg hNew, if_neg (index_familyName_ne n k), ← Store.mem_names_iff, hs] at hLive
    obtain ⟨o, ho, hName⟩ := hLive
    have hOwner : o.owner = n := by
      by_contra hOwner
      exact h.other_notSwept o ho hOwner (hName ▸ hPre)
    cases o with
    | data j =>
      obtain rfl : j = n := hOwner
      exact absurd hName.symm (index_familyName_ne j k)
    | index j k' =>
      obtain rfl : j = n := hOwner
      exact ⟨k', ho, hName.symm⟩
  · rintro ⟨k, hk, rfl⟩
    have hPre : toCfName n.path ++ cfIndexInfix <+: (StorageObject.index n k).familyName := ⟨k, rfl⟩
    have hNew : (StorageObject.index n k).familyName ≠ toCfName m.path := by
      rintro hEq
      exact h.data_notSwept (hEq ▸ hPre)
    rw [if_neg hNew, if_neg (index_familyName_ne n k)]
    exact ⟨hs.get_ne_none hk, hPre⟩

theorem notTarget {name : Str}
    (hTarget : ∀ k, StorageObject.index n k ∈ catalog → (StorageObject.index m k).familyName ≠ name) (name' : Str)
    (hMem : name' ∈
      sweep (toCfName n.path ++ cfIndexInfix) (s.moveOver (toCfName n.path) (toCfName m.path))) :
    renamedIdx (toCfName n.path) (toCfName m.path) name' ≠ name := by
  obtain ⟨k, hk, rfl⟩ := (h.mem_sweep_iff_index hs name').mp hMem
  rw [renamedIdx_index]
  exact hTarget k hk

theorem get_kept {name : Str}
    (hTarget : ∀ k, StorageObject.index n k ∈ catalog → (StorageObject.index m k).familyName ≠ name)
    (hSource : ¬toCfName n.path ++ cfIndexInfix <+: name) : (Lifecycle.renameTable n.path m.path s).get name =
      if name = toCfName m.path then s.get (toCfName n.path)
      else if name = toCfName n.path then none else s.get name := by
  rw [Lifecycle.renameTable, Store.get_moveAll_of_notTarget _ _ _ _ (h.notTarget hs hTarget), if_neg,
    Store.get_moveOver s h.data_ne]
  intro hMem
  exact hSource ((mem_sweep_iff _ _ _).mp hMem).2

theorem get_index_target {k : Str} (hk : StorageObject.index n k ∈ catalog) :
    (Lifecycle.renameTable n.path m.path s).get (StorageObject.index m k).familyName =
      s.get (StorageObject.index n k).familyName := by
  have hNew : (StorageObject.index n k).familyName ≠ toCfName m.path := by
    intro hEq
    exact h.data_notSwept ⟨k, hEq⟩
  rw [Lifecycle.renameTable, ← renamedIdx_index (n := n) (m := m) k, Store.get_moveAll_target,
    Store.get_moveOver s h.data_ne, if_neg hNew, if_neg (index_familyName_ne n k)]
  · exact (s.moveOver _ _).nodup.filter _
  · intro a ha b hb hEq
    obtain ⟨i, _, rfl⟩ := (h.mem_sweep_iff_index hs a).mp ha
    obtain ⟨j, _, rfl⟩ := (h.mem_sweep_iff_index hs b).mp hb
    rw [renamedIdx_index, renamedIdx_index] at hEq
    rw [index_familyName_inj hEq]
  · intro a ha b hb hEq
    obtain ⟨i, hi, rfl⟩ := (h.mem_sweep_iff_index hs a).mp ha
    obtain ⟨j, hj, rfl⟩ := (h.mem_sweep_iff_index hs b).mp hb
    rw [renamedIdx_index] at hEq
    exact h.index_target i hi _ hj (by simp) hEq
  · exact (h.mem_sweep_iff_index hs _).mpr ⟨k, hk, rfl⟩

theorem exact : (NameOp.renameTable n m).Exact catalog s ((NameOp.renameTable n m).run s) := by
  intro o ho
  refine ⟨fun hOwner => ?_, fun hOwner => ?_⟩
  · have hNe : o ≠ .data n := by
      rintro rfl
      exact hOwner rfl
    rw [NameOp.run, h.get_kept hs (fun k hk => h.index_target k hk o ho hNe) (h.other_notSwept o ho hOwner),
      if_neg (h.other_ne_target o ho hOwner).symm, if_neg (h.other_ne o ho hOwner).symm]
  · cases o with
    | data j =>
      obtain rfl : j = n := hOwner
      constructor
      · have hShort : ∀ k, StorageObject.index j k ∈ catalog →
            (StorageObject.index m k).familyName ≠ (StorageObject.data m).familyName :=
          fun k _ => index_familyName_ne m k
        exact (h.get_kept hs hShort h.data_notSwept).trans (if_pos rfl)
      · by_cases hTarget : ∃ k, StorageObject.index j k ∈ catalog ∧
            (StorageObject.index m k).familyName = (StorageObject.data j).familyName
        · obtain ⟨k, hk, hEq⟩ := hTarget
          exact Or.inr ⟨.index j k, hk, rfl, hEq⟩
        · have hSelf : ¬toCfName j.path ++ cfIndexInfix <+: toCfName j.path := by
            intro hPre
            obtain ⟨k, hk⟩ := exists_index_of_idxSweep hPre
            exact index_familyName_ne j k hk.symm
          have hFree : ∀ k, StorageObject.index j k ∈ catalog →
              (StorageObject.index m k).familyName ≠ (StorageObject.data j).familyName :=
            fun k hk hEq => hTarget ⟨k, hk, hEq⟩
          refine Or.inl ((h.get_kept hs hFree hSelf).trans ?_)
          exact (if_neg h.data_ne).trans (if_pos rfl)
    | index j k =>
      obtain rfl : j = n := hOwner
      refine ⟨h.get_index_target hs ho, Or.inl ?_⟩
      have hFree : ∀ i, StorageObject.index j i ∈ catalog →
          (StorageObject.index m i).familyName ≠ (StorageObject.index j k).familyName :=
        fun i hi => h.index_target i hi _ ho (by simp)
      rw [NameOp.run, Lifecycle.renameTable, Store.get_moveAll_of_notTarget _ _ _ _ (h.notTarget hs hFree), if_pos]
      exact (h.mem_sweep_iff_index hs _).mpr ⟨k, ho, rfl⟩

end

end RenameApart

/-- The rename has its exact effect whatever the families hold and however they are listed. -/
def RenameExact (n m : TableName) (catalog : List StorageObject) : Prop :=
  ∀ (γ : Type) (s : Families γ), Represents catalog s →
    (NameOp.renameTable n m).Exact catalog s ((NameOp.renameTable n m).run s)

def listing (catalog : List StorageObject) : List Str := (catalog.map StorageObject.familyName).dedup

theorem mem_listing_iff (name : Str) : name ∈ listing catalog ↔ ∃ o ∈ catalog, o.familyName = name := by
  simp [listing]

theorem nodup_listing (catalog : List StorageObject) : (listing catalog).Nodup := nodup_dedup _

def tagged (ks : List Str) (hNodup : ks.Nodup) : Families Str := Store.ofNames id ks hNodup

theorem get_tagged {ks : List Str} (hNodup : ks.Nodup) {name : Str} (h : name ∈ ks) :
    (tagged ks hNodup).get name = some name := by
  rw [tagged, Store.get_ofNames, if_pos h]
  rfl

theorem renamedIdx_ne {a : Str} (hNe : toCfName n.path ≠ toCfName m.path)
    (hPre : toCfName n.path ++ cfIndexInfix <+: a) : renamedIdx (toCfName n.path) (toCfName m.path) a ≠ a := by
  obtain ⟨k, rfl⟩ := exists_index_of_idxSweep hPre
  rw [renamedIdx_index]
  intro hEq
  exact hNe (append_cancel_right (append_cancel_right hEq)).symm

theorem not_idxSweep_self (n : TableName) : ¬toCfName n.path ++ cfIndexInfix <+: toCfName n.path := by
  intro hPre
  obtain ⟨k, hk⟩ := exists_index_of_idxSweep hPre
  exact index_familyName_ne n k hk.symm

theorem sweep_moveOver {pre old new : Str} {s : Families γ} (hNe : old ≠ new) (hMem : old ∈ s.names)
    (hOld : ¬pre <+: old) (hNew : ¬pre <+: new) : sweep pre (s.moveOver old new) = sweep pre s := by
  have hKeep : ∀ name, pre.isPrefixOf name = true → name ≠ new ∧ name ≠ old := fun name hPre => by
    rw [ isPrefixOf_iff_prefix] at hPre
    exact ⟨fun h => hNew (h ▸ hPre), fun h => hOld (h ▸ hPre)⟩
  rw [sweep, sweep, Store.names_moveOver s hNe hMem, filter_cons_of_neg (by simpa using hNew),
    filter_filter, filter_filter, filter_filter]
  refine filter_congr fun name _ => ?_
  by_cases hPre : pre.isPrefixOf name = true
  · simp [hPre, hKeep name hPre]
  · simp [hPre]

section Necessary

variable (hExact : RenameExact n m catalog) (hData : StorageObject.data n ∈ catalog)

include hExact hData

variable {ks : List Str}

theorem tagged_data (hNodup : ks.Nodup) (hMem : ∀ name, name ∈ ks ↔ name ∈ listing catalog) :
    (Lifecycle.renameTable n.path m.path (tagged ks hNodup)).get (toCfName m.path) = some (toCfName n.path) := by
  have hs : Represents catalog (tagged ks hNodup) :=
    represents_ofNames catalog ks hNodup (fun name => (hMem name).trans (mem_listing_iff name)) id
  have hOwn := ((hExact Str _ hs _ hData).2 rfl).1
  rw [← get_tagged hNodup ((hMem _).mpr ((mem_listing_iff (toCfName n.path)).mpr ⟨_, hData, rfl⟩))]
  exact hOwn

variable {o : StorageObject}

omit hData in
theorem tagged_other (hNodup : ks.Nodup) (hMem : ∀ name, name ∈ ks ↔ name ∈ listing catalog) (ho : o ∈ catalog) :
    ∃ name, (Lifecycle.renameTable n.path m.path (tagged ks hNodup)).get name = some o.familyName ∧
      (o.owner ≠ n → name = o.familyName) := by
  have hs : Represents catalog (tagged ks hNodup) :=
    represents_ofNames catalog ks hNodup (fun name => (hMem name).trans (mem_listing_iff name)) id
  have hGet := get_tagged hNodup ((hMem _).mpr ((mem_listing_iff _).mpr ⟨o, ho, rfl⟩))
  obtain hOwner | hOwner := eq_or_ne o.owner n
  · exact ⟨_, (((hExact Str _ hs o ho).2 hOwner).1).trans hGet, fun h => absurd hOwner h⟩
  · exact ⟨_, ((hExact Str _ hs o ho).1 hOwner).trans hGet, fun _ => rfl⟩

theorem necessary_data_ne : toCfName n.path ≠ toCfName m.path := by
  intro hEq
  have hGet := tagged_data hExact hData (nodup_listing catalog) (fun _ => Iff.rfl)
  have hOld := get_tagged (nodup_listing catalog)
    ((mem_listing_iff (toCfName n.path)).mpr ⟨_, hData, rfl⟩)
  refine Store.moveAll_lost _ (fun z => ?_) _ _ hGet
  exact (Store.unique_ofNames _ _).moveOver_lost (hEq ▸ hOld) z

theorem necessary_data_notSwept : ¬toCfName n.path ++ cfIndexInfix <+: toCfName m.path := by
  intro hPre
  have hNe := necessary_data_ne hExact hData
  have hGet := tagged_data hExact hData (nodup_listing catalog) (fun _ => Iff.rfl)
  have hOld := get_tagged (nodup_listing catalog)
    ((mem_listing_iff (toCfName n.path)).mpr ⟨_, hData, rfl⟩)
  rw [Lifecycle.renameTable, Store.get_moveAll_of_notTarget, if_pos] at hGet
  · cases hGet
  · rw [mem_sweep_iff, Store.mem_names_iff, Store.get_moveOver _ hNe, if_pos rfl, hOld]
    exact ⟨by simp, hPre⟩
  · intro name hName hEq
    obtain ⟨k, rfl⟩ := exists_index_of_idxSweep ((mem_sweep_iff _ _ _).mp hName).2
    rw [renamedIdx_index] at hEq
    exact index_familyName_ne m k hEq

theorem necessary_other_ne (ho : o ∈ catalog) (hOwner : o.owner ≠ n) : toCfName n.path ≠ o.familyName := by
  intro hEq
  obtain ⟨name, hGet, hName⟩ := tagged_other hExact (nodup_listing catalog) (fun _ => Iff.rfl) ho
  have hData' := tagged_data hExact hData (nodup_listing catalog) (fun _ => Iff.rfl)
  rw [← hEq] at hGet hName
  have hUnique : (Lifecycle.renameTable n.path m.path (tagged (listing catalog) (nodup_listing catalog))).Unique :=
    ((Store.unique_ofNames _ _).moveOver _ _).moveAll _ _
  exact necessary_data_ne hExact hData ((hName hOwner).symm.trans (hUnique _ _ _ hGet hData'))

omit hData in
theorem necessary_ne_target (ho : o ∈ catalog) : toCfName m.path ≠ o.familyName := by
  intro hEq
  obtain ⟨name, hGet, _⟩ := tagged_other hExact (nodup_listing catalog) (fun _ => Iff.rfl) ho
  have hNew := get_tagged (nodup_listing catalog) ((mem_listing_iff _).mpr ⟨o, ho, rfl⟩)
  refine Store.moveAll_lost _ (fun z => ?_) _ _ hGet
  refine (Store.unique_ofNames _ _).moveOver_lost ?_ z
  rw [hEq]
  exact hNew

theorem sweep_tagged (hNodup : ks.Nodup) (hMem : ∀ name, name ∈ ks ↔ name ∈ listing catalog) :
    sweep (toCfName n.path ++ cfIndexInfix)
        ((tagged ks hNodup).moveOver (toCfName n.path) (toCfName m.path)) =
      ks.filter fun name => (toCfName n.path ++ cfIndexInfix).isPrefixOf name := by
  rw [sweep_moveOver (necessary_data_ne hExact hData) _ (not_idxSweep_self n)
    (necessary_data_notSwept hExact hData), sweep, tagged, Store.names_ofNames]
  rw [tagged, Store.names_ofNames, hMem, mem_listing_iff]
  exact ⟨_, hData, rfl⟩

theorem necessary_other_notSwept (ho : o ∈ catalog) (hOwner : o.owner ≠ n) :
    ¬toCfName n.path ++ cfIndexInfix <+: o.familyName := by
  intro hPre
  have hNodup : ((listing catalog).erase o.familyName ++ [o.familyName]).Nodup := by
    refine ((nodup_listing catalog).erase _).append (nodup_singleton _) ?_
    rw [disjoint_singleton]
    exact (nodup_listing catalog).not_mem_erase
  have hMem : ∀ name, name ∈ (listing catalog).erase o.familyName ++ [o.familyName] ↔ name ∈ listing catalog := by
    intro name
    have hIn : o.familyName ∈ listing catalog := (mem_listing_iff _).mpr ⟨o, ho, rfl⟩
    rw [mem_append, (nodup_listing catalog).mem_erase_iff, mem_singleton]
    constructor
    · rintro (⟨_, h⟩ | rfl)
      · exact h
      · exact hIn
    · intro h
      obtain hEq | hEq := eq_or_ne name o.familyName
      · exact Or.inr hEq
      · exact Or.inl ⟨hEq, h⟩
  obtain ⟨name, hGet, hName⟩ := tagged_other hExact hNodup hMem ho
  obtain rfl := hName hOwner
  rw [Lifecycle.renameTable, sweep_tagged hExact hData hNodup hMem, filter_append,
    filter_cons_of_pos (by simpa using hPre), filter_nil, Store.moveAll_append, Store.moveAll_cons,
    Store.moveAll_nil, Store.get_moveOver _ (renamedIdx_ne (necessary_data_ne hExact hData) hPre).symm,
    if_neg (renamedIdx_ne (necessary_data_ne hExact hData) hPre).symm, if_pos rfl] at hGet
  cases hGet

theorem necessary_index_target {k : Str} (hk : StorageObject.index n k ∈ catalog) (ho : o ∈ catalog)
    (hNe : o ≠ .data n) : (StorageObject.index m k).familyName ≠ o.familyName := by
  intro hEq
  let a := (StorageObject.index n k).familyName
  have hPre : toCfName n.path ++ cfIndexInfix <+: a := ⟨k, rfl⟩
  have hIn : a ∈ listing catalog := (mem_listing_iff _).mpr ⟨_, hk, rfl⟩
  have hNodup : (a :: (listing catalog).erase a).Nodup :=
    List.nodup_cons.mpr ⟨(nodup_listing catalog).not_mem_erase, (nodup_listing catalog).erase a⟩
  have hMem : ∀ name, name ∈ a :: (listing catalog).erase a ↔ name ∈ listing catalog := fun name =>
    (perm_cons_erase hIn).symm.mem_iff
  obtain ⟨name, hGet, _⟩ := tagged_other hExact hNodup hMem ho
  have hNotOld : o.familyName ≠ toCfName n.path := by
    intro hOld
    cases o with
    | data j =>
      have hOwner : (StorageObject.data j).owner ≠ n := fun h => hNe (congrArg StorageObject.data h)
      exact necessary_other_ne hExact hData ho hOwner hOld.symm
    | index j k' =>
      obtain hOwner | hOwner := eq_or_ne j n
      · subst hOwner
        exact index_familyName_ne j k' hOld
      · exact necessary_other_ne hExact hData ho hOwner hOld.symm
  have hOnTarget : ((tagged _ hNodup).moveOver (toCfName n.path) (toCfName m.path)).get
      (renamedIdx (toCfName n.path) (toCfName m.path) a) = some o.familyName := by
    rw [renamedIdx_index, hEq, Store.get_moveOver _ (necessary_data_ne hExact hData),
      if_neg (necessary_ne_target hExact ho).symm, if_neg hNotOld]
    exact get_tagged hNodup ((hMem _).mpr ((mem_listing_iff _).mpr ⟨o, ho, rfl⟩))
  rw [Lifecycle.renameTable, sweep_tagged hExact hData hNodup hMem,
    filter_cons_of_pos (by simpa using hPre), Store.moveAll_cons] at hGet
  refine Store.moveAll_lost _ (fun z => ?_) _ _ hGet
  exact ((Store.unique_ofNames _ _).moveOver _ _).moveOver_lost hOnTarget z

theorem renameApart_of_exact : RenameApart n m catalog where
  data_ne := necessary_data_ne hExact hData
  data_notSwept := necessary_data_notSwept hExact hData
  other_ne := fun _ ho => necessary_other_ne hExact hData ho
  other_notSwept := fun _ ho => necessary_other_notSwept hExact hData ho
  other_ne_target := fun _ ho _ => necessary_ne_target hExact ho
  index_target := fun _ hk _ ho => necessary_index_target hExact hData hk ho

end Necessary

end Rename

/-- The three statements touch exactly the families of the named database or table when no coexisting name reads as
one they sweep or write. -/
theorem sweep_exact_iff (op : NameOp) (catalog : List StorageObject) (hAllowed : op.Allowed catalog) :
    (∀ (γ : Type) (s : Families γ), Represents catalog s → op.Exact catalog s (op.run s)) ↔ op.Separated catalog := by
  have hTagged : Represents catalog (tagged (listing catalog) (nodup_listing catalog)) :=
    represents_ofNames catalog _ _ mem_listing_iff id
  cases op with
  | dropDatabase d =>
    constructor
    · intro h
      exact (dropDatabase_exact_iff d hTagged).mp (h Str _ hTagged)
    · intro h γ s hs
      exact (dropDatabase_exact_iff d hs).mpr h
  | dropTable n =>
    constructor
    · intro h
      exact (dropTable_exact_iff n hTagged).mp (h Str _ hTagged)
    · intro h γ s hs
      exact (dropTable_exact_iff n hs).mpr h
  | renameTable n m =>
    rw [separated_rename_iff]
    constructor
    · intro h
      exact renameApart_of_exact h hAllowed.1
    · intro h γ s hs
      exact h.exact hs

def twoDatabases : List StorageObject := [.data ⟨dbA, tableB⟩, .data ⟨dbAB, tableC⟩]

def indexed : List StorageObject := .index ⟨dbA, tableB⟩ ['k'] :: twoDatabases

theorem sweep_exact_rename_ab :
    (NameOp.renameTable ⟨dbA, tableB⟩ ⟨dbA, tableC⟩).Exact indexed (tagged (listing indexed) (nodup_listing indexed))
      ((NameOp.renameTable ⟨dbA, tableB⟩ ⟨dbA, tableC⟩).run (tagged (listing indexed) (nodup_listing indexed))) := by
  refine (sweep_exact_iff (.renameTable _ _) indexed ⟨by decide, by decide⟩).mpr (separated_rename_iff.mpr ?_) Str _
    (represents_ofNames _ _ _ mem_listing_iff id)
  refine ⟨by decide, by decide, by decide, by decide, by decide, fun k hk => ?_⟩
  obtain rfl : k = ['k'] := by simpa [indexed, twoDatabases] using hk
  decide

/-- `DROP DATABASE a` takes the table `c` of database `a__b`. -/
theorem dropDatabase_takes_other_database :
    Represents twoDatabases (tagged (listing twoDatabases) (nodup_listing twoDatabases)) ∧
      ¬(NameOp.dropDatabase dbA).Exact twoDatabases (tagged (listing twoDatabases) (nodup_listing twoDatabases))
        ((NameOp.dropDatabase dbA).run (tagged (listing twoDatabases) (nodup_listing twoDatabases))) := by
  refine ⟨represents_ofNames _ _ _ mem_listing_iff id, fun h => ?_⟩
  have hKept := h (.data ⟨dbAB, tableC⟩) (by decide)
  revert hKept
  decide

end TideSql.Lifecycle
