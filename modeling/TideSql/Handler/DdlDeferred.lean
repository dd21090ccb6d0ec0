import TideSql.Lib.Run
import TideSql.Handler.Lifecycle

/-!
# The post-DDL hook

A `DROP TABLE` or `CREATE TABLE` leaves a record of its intent in a reserved family, written through the
statement's transaction.
-/

namespace TideSql.DdlDeferred
open CfName Lifecycle Lib List

inductive Intent where
  | drop
  | create
  deriving DecidableEq, Repr

structure Key where
  boot : Nat
  seq : Nat
  deriving DecidableEq, Repr

structure Entry (ν : Type) where
  key : Key
  what : Intent
  path : ν
  deriving DecidableEq, Repr

structure Storage (ρ : Type) where
  families : Families (List ρ)
  log : List (Entry Str)

/-- How the calls of the library end that are made for a record: the lookup of the record, the listing of the
families, the removal of the data family and of the index families, and the erasure of the record. -/
structure Faults where
  openOk : Key → Bool
  beginOk : Key → Bool
  getOk : Key → Bool
  listOk : Key → Bool
  removeOk : Key → Bool
  indexFails : Key → List Str
  eraseOk : Key → Bool
  recoverOk : Bool

def allOk : Faults :=
  { openOk := fun _ => true, beginOk := fun _ => true, getOk := fun _ => true, listOk := fun _ => true
    removeOk := fun _ => true, indexFails := fun _ => [], eraseOk := fun _ => true, recoverOk := true }

section Removal

variable {γ : Type}

/-- The families the removal of a table is after: its own and all whose name begins like an index of it. -/
def Takes (path z : Str) : Prop := toCfName path = z ∨ toCfName path ++ cfIndexInfix <+: z

instance (path z : Str) : Decidable (Takes path z) := inferInstanceAs (Decidable (_ ∨ _))

def Faults.indexOk (f : Faults) (k : Key) (z : Str) : Bool := (f.indexFails k).all fun z' => decide (z' ≠ z)

/-- `tdb_ddl_drop_table_cfs_now`: only a data family that cannot be removed stops it. A listing that fails and index
families that cannot be removed are passed over. -/
def dropTableCfsNow (f : Faults) (k : Key) (path : Str) (s : Families γ) : Option (Families γ) :=
  let cfName := toCfName path
  let idxCfNames := if f.listOk k then sweep (cfName ++ cfIndexInfix) s else []
  if f.removeOk k then some ((s.drop cfName).dropAll (idxCfNames.filter (f.indexOk k))) else none

/-- The families it removes if it is not stopped. -/
def Drops (f : Faults) (k : Key) (path z : Str) : Prop :=
  toCfName path = z ∨ f.listOk k = true ∧ f.indexOk k z = true ∧ toCfName path ++ cfIndexInfix <+: z

instance (f : Faults) (k : Key) (path z : Str) : Decidable (Drops f k path z) :=
  inferInstanceAs (Decidable (_ ∨ _ ∧ _ ∧ _))

theorem takes_of_drops {f : Faults} {k : Key} {path z : Str} (h : Drops f k path z) : Takes path z :=
  h.imp_right fun hIndex => hIndex.2.2

theorem drops_data (f : Faults) (k : Key) (path : Str) : Drops f k path (toCfName path) := .inl rfl

theorem get_dropTableCfsNow {f : Faults} {k : Key} {path : Str} {s s' : Families γ}
    (h : dropTableCfsNow f k path s = some s') (z : Str) :
    s'.get z = if Drops f k path z then none else s.get z := by
  rw [dropTableCfsNow] at h
  split at h
  · cases h
    simp only [Store.get_dropAll, Store.get_drop, mem_filter]
    have hNames : z ∉ s.names → s.get z = none := fun hNot => by
      rwa [Store.mem_names_iff, not_not] at hNot
    by_cases hData : toCfName path = z
    · simp [Drops, hData]
    · by_cases hList : f.listOk k = true
      · by_cases hMem : z ∈ s.names
        · simp only [hList, if_true, mem_sweep_iff, hMem, true_and, Drops, hData, false_or, if_neg (Ne.symm hData)]
          refine if_congr and_comm rfl rfl
        · simp [hNames hMem]
      · simp [hList, Drops, hData, Ne.symm hData]
  · cases h

theorem dropTableCfsNow_allOk (k : Key) (path : Str) (s : Families γ) :
    dropTableCfsNow allOk k path s = some (Lifecycle.dropTableCfsNow path s) := by
  have hAll : (sweep (toCfName path ++ cfIndexInfix) s).filter (allOk.indexOk k) =
      sweep (toCfName path ++ cfIndexInfix) s := filter_eq_self.mpr fun _ _ => rfl
  rw [dropTableCfsNow, Lifecycle.dropTableCfsNow]
  exact congrArg (fun zs => some ((s.drop (toCfName path)).dropAll zs)) hAll

theorem get_drop_takes (path : Str) (fs : Families γ) (z : Str) :
    (Lifecycle.dropTableCfsNow path fs).get z = if Takes path z then none else fs.get z := by
  have hTakes : Drops allOk ⟨0, 0⟩ path z ↔ Takes path z :=
    ⟨takes_of_drops, fun h => h.imp_right fun hIndex => ⟨rfl, rfl, hIndex⟩⟩
  rw [get_dropTableCfsNow (dropTableCfsNow_allOk ⟨0, 0⟩ path fs) z]
  exact if_congr hTakes rfl rfl

end Removal

section Separation

/-- No family can belong to both tables. -/
def Apart (p q : Str) : Prop := ∀ z, ¬(Takes p z ∧ Takes q z)

theorem Apart.symm {p q : Str} (h : Apart p q) : Apart q p := fun z hz => h z hz.symm

theorem apart_of_not_prefix {p q : Str} (h : ¬toCfName p <+: toCfName q) (h' : ¬toCfName q <+: toCfName p) :
    Apart p q := by
  have hPre : ∀ {path z}, Takes path z → toCfName path <+: z := by
    rintro path z (rfl | hIndex)
    · exact prefix_rfl
    · exact (prefix_append ..).trans hIndex
  rintro z ⟨hp, hq⟩
  exact ( prefix_or_prefix_of_prefix (hPre hp) (hPre hq)).elim h h'

/-- Two tables are apart when the removal of the one selects no family the other can have. -/
theorem apart_iff_not_swept (n m : TableName) :
    Apart n.path m.path ↔ ∀ o : StorageObject, o.owner = m → ¬SweptByTable n o := by
  constructor
  · rintro h o rfl hSwept
    exact h o.familyName ⟨(sweptByTable_iff n o).mp hSwept, (sweptByTable_iff o.owner o).mp (sweptByTable_of_owner o)⟩
  · rintro h z ⟨hn, hData | ⟨k, hIndex⟩⟩
    · subst hData
      exact h (.data m) rfl ((sweptByTable_iff n (.data m)).mpr hn)
    · subst hIndex
      exact h (.index m k) rfl ((sweptByTable_iff n (.index m k)).mpr hn)

end Separation

variable {ρ : Type}

def recordSurvived {ν : Type} (f : Faults) (log : List (Entry ν)) (k : Key) : Bool :=
  if f.openOk k then
    if f.beginOk k then f.getOk k && log.any fun e => e.key = k
    else false
  else false

def eraseRecord (f : Faults) (st : Storage ρ) (k : Key) : Storage ρ :=
  if f.eraseOk k then { st with log := st.log.filter fun e => e.key ≠ k } else st

/-- Carry out or abandon one record. A removal that fails keeps the record for a later pass. -/
def resolve (f : Faults) (st : Storage ρ) (e : Entry Str) (committed : Bool) : Storage ρ :=
  if decide (e.what = .drop) = committed then
    match dropTableCfsNow f e.key e.path st.families with
    | none => st
    | some families => eraseRecord f { st with families := families } e.key
  else eraseRecord f st e.key

def resolveAll (f : Faults) (verdict : List (Entry Str) → Key → Bool) (es : List (Entry Str))
    (st : Storage ρ) : Storage ρ :=
  es.foldl (fun st e => resolve f st e (verdict st.log e.key)) st

def recover (f : Faults) (boot : Nat) (st : Storage ρ) : Storage ρ :=
  if f.recoverOk then resolveAll f (fun _ _ => true) (st.log.filter fun e => e.key.boot ≠ boot) st
  else st

/-- The hook: the first one of a server run sweeps earlier runs' records, then the statement's own
records are resolved by whether each is in storage. -/
def postDdl (f : Faults) (boot : Nat) (recovered : Bool) (mine : List (Entry Str)) (st : Storage ρ) : Storage ρ :=
  resolveAll f (recordSurvived f) mine (if recovered then st else recover f boot st)

def Removes (f : Faults) (e : Entry Str) (committed : Bool) : Prop :=
  decide (e.what = .drop) = committed ∧ f.removeOk e.key = true

section Resolve

variable (f : Faults) (st : Storage ρ) (e : Entry Str) (committed : Bool)

@[simp] theorem eraseRecord_families (k : Key) : (eraseRecord f st k).families = st.families := by
  rw [eraseRecord]
  split
  · rfl
  · rfl

theorem dropTableCfsNow_isSome {γ : Type} (path : Str) (s : Families γ) (k : Key) :
    (dropTableCfsNow f k path s).isSome = f.removeOk k := by
  rw [dropTableCfsNow]
  cases f.removeOk k with
  | false | true => rfl

theorem resolve_families (z : Str) :
    (Removes f e committed ∧ Drops f e.key e.path z ∧ (resolve f st e committed).families.get z = none) ∨
      (¬(Removes f e committed ∧ Drops f e.key e.path z) ∧
        (resolve f st e committed).families.get z = st.families.get z) := by
  rw [resolve]
  by_cases hVerdict : decide (e.what = .drop) = committed
  · rw [if_pos hVerdict]
    have hSome := dropTableCfsNow_isSome f e.path st.families e.key
    cases hDrop : dropTableCfsNow f e.key e.path st.families with
    | none =>
      rw [hDrop] at hSome
      exact .inr ⟨fun h => Bool.false_ne_true (hSome.trans h.1.2), rfl⟩
    | some families =>
      rw [hDrop] at hSome
      dsimp only
      rw [eraseRecord_families, get_dropTableCfsNow hDrop]
      split
      · rename_i hDrops
        exact .inl ⟨⟨hVerdict, hSome.symm⟩, hDrops, rfl⟩
      · rename_i hKept
        exact .inr ⟨fun h => hKept h.2, rfl⟩
  · rw [if_neg hVerdict, eraseRecord_families]
    exact .inr ⟨fun h => hVerdict h.1.1, rfl⟩

theorem resolve_log_sublist : (resolve f st e committed).log.Sublist st.log := by
  have hErase : ∀ s : Storage ρ, (eraseRecord f s e.key).log.Sublist s.log := by
    intro s
    rw [eraseRecord]
    split
    · exact filter_sublist
    · exact Sublist.refl _
  rw [resolve]
  split
  · split
    · exact Sublist.refl _
    · exact hErase _
  · exact hErase st

theorem mem_resolve_log {e' : Entry Str} (h : e' ∈ (resolve f st e committed).log) : e' ∈ st.log :=
  (resolve_log_sublist f st e committed).subset h

theorem mem_resolve_log_of_ne {e' : Entry Str} (hKey : e'.key ≠ e.key) (h : e' ∈ st.log) :
    e' ∈ (resolve f st e committed).log := by
  have hErase : ∀ s : Storage ρ, e' ∈ s.log → e' ∈ (eraseRecord f s e.key).log := by
    intro s hs
    rw [eraseRecord]
    split
    · exact mem_filter.mpr ⟨hs, by simpa using hKey⟩
    · exact hs
  rw [resolve]
  split
  · split
    · exact h
    · exact hErase _ h
  · exact hErase _ h

/-- A record goes away only with its own families, if those are to be removed. -/
theorem removes_of_erased {e' : Entry Str} (h : e' ∈ st.log) (hGone : e' ∉ (resolve f st e committed).log) :
    e'.key = e.key ∧ (decide (e.what = .drop) = committed → Removes f e committed) := by
  have hKey : e'.key = e.key := by
    by_contra hNe
    exact hGone (mem_resolve_log_of_ne f st e committed hNe h)
  refine ⟨hKey, fun hVerdict => ⟨hVerdict, ?_⟩⟩
  rw [← dropTableCfsNow_isSome f e.path st.families]
  rw [resolve, if_pos hVerdict] at hGone
  cases hDrop : dropTableCfsNow f e.key e.path st.families with
  | none =>
    rw [hDrop] at hGone
    exact absurd h hGone
  | some families => rfl

end Resolve

section Hook

variable (f : Faults)

theorem recordSurvived_eq_true_iff {ν : Type} (log : List (Entry ν)) (k : Key) : recordSurvived f log k = true ↔
      (f.openOk k = true ∧ f.beginOk k = true ∧ f.getOk k = true) ∧ ∃ e ∈ log, e.key = k := by
  rw [recordSurvived]
  split
  · split
    · simp_all
    · simp_all
  · simp_all

theorem recordSurvived_congr {log log' : List (Entry Str)} {k : Key}
    (h : (∃ e ∈ log, e.key = k) ↔ ∃ e ∈ log', e.key = k) : recordSurvived f log k = recordSurvived f log' k := by
  rw [Bool.eq_iff_iff, recordSurvived_eq_true_iff, recordSurvived_eq_true_iff, h]

theorem exists_key_resolve_iff (st : Storage ρ) (e : Entry Str) (committed : Bool) {k : Key} (hKey : k ≠ e.key) :
    (∃ e' ∈ (resolve f st e committed).log, e'.key = k) ↔ ∃ e' ∈ st.log, e'.key = k := by
  constructor
  · rintro ⟨e', hMem, rfl⟩
    exact ⟨e', mem_resolve_log f st e committed hMem, rfl⟩
  · rintro ⟨e', hMem, rfl⟩
    exact ⟨e', mem_resolve_log_of_ne f st e committed hKey hMem, rfl⟩

def Stable (verdict : List (Entry Str) → Key → Bool) (e e' : Entry Str) : Prop :=
  ∀ (st : Storage ρ) (committed : Bool), verdict (resolve f st e committed).log e'.key = verdict st.log e'.key

/-- Some of the records has its families removed, and the family is one of them. -/
def Hit (verdict : Key → Bool) (es : List (Entry Str)) (z : Str) : Prop :=
  ∃ e ∈ es, Removes f e (verdict e.key) ∧ Drops f e.key e.path z

theorem resolveAll_families {verdict : List (Entry Str) → Key → Bool} {es : List (Entry Str)}
    (hStable : es.Pairwise (Stable (ρ := ρ) f verdict)) (st : Storage ρ) (z : Str) :
    (Hit f (verdict st.log) es z ∧ (resolveAll f verdict es st).families.get z = none) ∨
      (¬Hit f (verdict st.log) es z ∧ (resolveAll f verdict es st).families.get z = st.families.get z) := by
  induction es generalizing st with
  | nil => exact .inr ⟨fun ⟨_, hMem, _⟩ => absurd hMem not_mem_nil, rfl⟩
  | cons e es ih =>
    obtain ⟨hHead, hTail⟩ := pairwise_cons.mp hStable
    have hCons : resolveAll f verdict (e :: es) st =
        resolveAll f verdict es (resolve f st e (verdict st.log e.key)) := rfl
    rw [hCons]
    obtain ⟨⟨e', hMem, hRemoves, hDrops⟩, hNone⟩ | ⟨hNot, hSame⟩ := ih hTail (resolve f st e _)
    · rw [hHead e' hMem] at hRemoves
      exact .inl ⟨⟨e', mem_cons_of_mem e hMem, hRemoves, hDrops⟩, hNone⟩
    · obtain ⟨hRemoves, hDrops, hNone⟩ | ⟨hKept, hSame'⟩ := resolve_families f st e (verdict st.log e.key) z
      · exact .inl ⟨⟨e, mem_cons_self, hRemoves, hDrops⟩, hSame.trans hNone⟩
      · refine .inr ⟨?_, hSame.trans hSame'⟩
        rintro ⟨e', hMem, hRemoves, hDrops⟩
        obtain rfl | hIn := mem_cons.mp hMem
        · exact hKept ⟨hRemoves, hDrops⟩
        · exact hNot ⟨e', hIn, by rwa [hHead e' hIn], hDrops⟩

theorem exists_key_resolveAll_iff (verdict : List (Entry Str) → Key → Bool) (es : List (Entry Str))
    (st : Storage ρ) {k : Key} (hKey : ∀ e ∈ es, k ≠ e.key) :
    (∃ e' ∈ (resolveAll f verdict es st).log, e'.key = k) ↔ ∃ e' ∈ st.log, e'.key = k := by
  induction es generalizing st with
  | nil => exact Iff.rfl
  | cons e es ih =>
    have hCons : resolveAll f verdict (e :: es) st =
        resolveAll f verdict es (resolve f st e (verdict st.log e.key)) := rfl
    rw [hCons, ih _ fun e' he' => hKey e' (mem_cons_of_mem e he'),
      exists_key_resolve_iff f st e _ (hKey e mem_cons_self)]

theorem stable_const (c : Bool) (es : List (Entry Str)) : es.Pairwise (Stable (ρ := ρ) f fun _ _ => c) :=
  pairwise_of_forall fun _ _ _ _ => rfl

theorem stable_recordSurvived {es : List (Entry Str)} (hKeys : (es.map Entry.key).Nodup) :
    es.Pairwise (Stable (ρ := ρ) f (recordSurvived f)) := by
  refine (pairwise_map.mp hKeys).imp fun {e e'} hNe st committed => ?_
  apply recordSurvived_congr
  exact exists_key_resolve_iff f st e committed (Ne.symm hNe)

def SweptDrop (boot : Nat) (recovered : Bool) (log : List (Entry Str)) (e : Entry Str) : Prop :=
  recovered = false ∧ f.recoverOk = true ∧ e ∈ log ∧ e.key.boot ≠ boot ∧ e.what = .drop ∧ f.removeOk e.key = true

theorem recover_families (boot : Nat) (recovered : Bool) (st : Storage ρ) (z : Str) :
    ((∃ e, SweptDrop f boot recovered st.log e ∧ Drops f e.key e.path z) ∧
        (if recovered then st else recover f boot st).families.get z = none) ∨
      ((∀ e, SweptDrop f boot recovered st.log e → ¬Drops f e.key e.path z) ∧
        (if recovered then st else recover f boot st).families.get z = st.families.get z) := by
  cases recovered with
  | true => exact .inr ⟨fun e h => Bool.noConfusion h.1, rfl⟩
  | false =>
    by_cases hOk : f.recoverOk = true
    · have hRecover : recover f boot st =
          resolveAll f (fun _ _ => true) (st.log.filter fun e => e.key.boot ≠ boot) st := if_pos hOk
      rw [if_neg Bool.false_ne_true, hRecover]
      obtain ⟨⟨e, hMem, ⟨hDrop, hRemove⟩, hDrops⟩, hNone⟩ | ⟨hNot, hSame⟩ :=
        resolveAll_families f (stable_const f true (st.log.filter fun e => e.key.boot ≠ boot)) st z
      · obtain ⟨hLog, hBoot⟩ := mem_filter.mp hMem
        exact .inl ⟨⟨e, ⟨rfl, hOk, hLog, of_decide_eq_true hBoot, of_decide_eq_true hDrop, hRemove⟩, hDrops⟩, hNone⟩
      · refine .inr ⟨?_, hSame⟩
        rintro e ⟨_, _, hLog, hBoot, hDrop, hRemove⟩ hDrops
        exact hNot ⟨e, mem_filter.mpr ⟨hLog, decide_eq_true hBoot⟩, ⟨decide_eq_true hDrop, hRemove⟩, hDrops⟩
    · refine .inr ⟨fun e h => absurd h.2.1 hOk, ?_⟩
      simp [recover, hOk]

/-- The entry's statement was a `CREATE` that committed or a `DROP` that rolled back: its record is
in storage exactly when the statement committed. -/
def OwnsFamilies (log : List (Entry Str)) (e : Entry Str) : Prop :=
  (e.what = .create ∧ ∃ r ∈ log, r.key = e.key) ∨ (e.what = .drop ∧ ¬∃ r ∈ log, r.key = e.key)

def VerdictRead (e : Entry Str) : Prop :=
  e.what = .create → (f.openOk e.key = true ∧ f.beginOk e.key = true ∧ f.getOk e.key = true) ∨ f.removeOk e.key = false

theorem removes_own_iff {log : List (Entry Str)} {e : Entry Str} (hOwns : OwnsFamilies log e) :
    Removes f e (recordSurvived f log e.key) ↔ ¬VerdictRead f e := by
  have hSurvived := recordSurvived_eq_true_iff f log e.key
  obtain ⟨hCreate, hLog⟩ | ⟨hDrop, hLog⟩ := hOwns
  · rw [iff_true_intro hLog, and_true] at hSurvived
    simp only [Removes, VerdictRead, hCreate, ← hSurvived, true_imp_iff, not_or]
    cases recordSurvived f log e.key
    · simp
    · simp
  · have hNot : recordSurvived f log e.key = false := by
      rw [Bool.eq_false_iff]
      intro h
      exact hLog (hSurvived.mp h).2
    simp [Removes, VerdictRead, hDrop, hNot]

theorem recordSurvived_recover {boot : Nat} (recovered : Bool) (st : Storage ρ) {k : Key} (hBoot : k.boot = boot) :
    recordSurvived f (if recovered then st else recover f boot st).log k = recordSurvived f st.log k := by
  apply recordSurvived_congr
  cases recovered with
  | true => exact Iff.rfl
  | false =>
    by_cases hOk : f.recoverOk = true
    · simp only [recover, hOk, if_true, Bool.false_eq_true, if_false]
      apply exists_key_resolveAll_iff
      intro r hr hEq
      obtain ⟨_, hOther⟩ := mem_filter.mp hr
      simp [← hEq, hBoot] at hOther
    · simp [recover, hOk]

/-- The hook removes a family if a swept record or one of the statement's own has it removed, and keeps it else. -/
theorem postDdl_families {boot : Nat} {mine : List (Entry Str)} (hKeys : (mine.map Entry.key).Nodup)
    (hBoot : ∀ e ∈ mine, e.key.boot = boot) (recovered : Bool) (st : Storage ρ) (z : Str) :
    ((Hit f (recordSurvived f st.log) mine z ∨ ∃ e, SweptDrop f boot recovered st.log e ∧ Drops f e.key e.path z) ∧
        (postDdl f boot recovered mine st).families.get z = none) ∨
      (¬Hit f (recordSurvived f st.log) mine z ∧ (∀ e, SweptDrop f boot recovered st.log e → ¬Drops f e.key e.path z) ∧
        (postDdl f boot recovered mine st).families.get z = st.families.get z) := by
  have hVerdict := fun e he => recordSurvived_recover f recovered st (hBoot e he)
  have hHit : Hit f (recordSurvived f (if recovered then st else recover f boot st).log) mine z ↔
      Hit f (recordSurvived f st.log) mine z := by
    refine exists_congr fun e => and_congr_right fun he => ?_
    rw [hVerdict e he]
  have hOwn := resolveAll_families f (stable_recordSurvived f hKeys) (if recovered then st else recover f boot st) z
  rw [hHit] at hOwn
  rw [postDdl]
  obtain ⟨hOwn, hNone⟩ | ⟨hOwn, hSame⟩ := hOwn
  · exact .inl ⟨.inl hOwn, hNone⟩
  · obtain ⟨hSwept, hNone⟩ | ⟨hNot, hSame'⟩ := recover_families f boot recovered st z
    · exact .inl ⟨.inr hSwept, hSame.trans hNone⟩
    · exact .inr ⟨hOwn, hNot, hSame.trans hSame'⟩

end Hook

/-- The tables that exist once a statement is over: one of which it has left a record exists only if that was a `CREATE`
that committed or a `DROP` that rolled back, and no other table the hook meets can have a family of theirs. -/
structure Tables (tables : Str → Prop) (mine : List (Entry Str)) (st : Storage ρ) : Prop where
  own : ∀ e ∈ mine, tables e.path → OwnsFamilies st.log e
  live : ∀ p, tables p → st.families.get (toCfName p) ≠ none
  apart : ∀ p, tables p → ∀ e ∈ mine ++ st.log, e.path ≠ p → Apart e.path p

/-- A hook keeps the families of every table that exists exactly when the record of each committed `CREATE` can be
looked up and no leftover `DROP` record of an existing table is swept. -/
theorem postDdl_keeps_iff (f : Faults) (boot : Nat) (recovered : Bool) (mine : List (Entry Str)) (st : Storage ρ)
    (tables : Str → Prop) (hTables : Tables tables mine st) (hKeys : (mine.map Entry.key).Nodup)
    (hBoot : ∀ e ∈ mine, e.key.boot = boot) :
    (∀ p, tables p → ∀ z, Takes p z →
        (postDdl f boot recovered mine st).families.get z = st.families.get z) ↔
      (∀ e ∈ mine, tables e.path → VerdictRead f e) ∧
        ∀ e, SweptDrop f boot recovered st.log e → ¬tables e.path := by
  have hCases := fun z => postDdl_families f hKeys hBoot recovered st z
  constructor
  · intro h
    -- the data family of the table is not one that was removed
    have hKept : ∀ p, tables p → ¬Hit f (recordSurvived f st.log) mine (toCfName p) ∧
        ∀ e, SweptDrop f boot recovered st.log e → ¬Drops f e.key e.path (toCfName p) := by
      intro p hp
      obtain ⟨-, hNone⟩ | ⟨hOwn, hNot, -⟩ := hCases (toCfName p)
      · exact absurd ((h p hp _ (.inl rfl)).symm.trans hNone) (hTables.live p hp)
      · exact ⟨hOwn, hNot⟩
    refine ⟨fun e he hTable => ?_, fun e hSwept hTable => (hKept _ hTable).2 e hSwept (drops_data ..)⟩
    by_contra hUnread
    exact (hKept _ hTable).1 ⟨e, he, (removes_own_iff f (hTables.own e he hTable)).mpr hUnread, drops_data ..⟩
  · rintro ⟨hRead, hSwept⟩ p hp z hz
    -- a record that gets at a family of the table is a record of the table
    have hSame : ∀ e ∈ mine ++ st.log, Drops f e.key e.path z → e.path = p := by
      intro e he hDrops
      by_contra hNe
      exact hTables.apart p hp e he hNe z ⟨takes_of_drops hDrops, hz⟩
    obtain ⟨⟨e, he, hRemoves, hDrops⟩ | ⟨e, hLeft, hDrops⟩, -⟩ | ⟨-, -, hKept⟩ := hCases z
    · obtain rfl := hSame e (mem_append_left _ he) hDrops
      exact absurd (hRead e he hp) ((removes_own_iff f (hTables.own e he hp)).mp hRemoves)
    · obtain rfl := hSame e (mem_append_right _ hLeft.2.2.1) hDrops
      exact absurd hp (hSwept e hLeft)
    · exact hKept

section Samples

def pathT : Str := "./d/t".toList

def pathU : Str := "./d/u".toList

theorem apart_samples : Apart pathT pathU := apart_of_not_prefix (by decide) (by decide)

def createdT : Entry Str := ⟨⟨2, 0⟩, .create, pathT⟩

def createdU : Entry Str := ⟨⟨2, 1⟩, .create, pathU⟩

def droppedU : Entry Str := ⟨⟨1, 0⟩, .drop, pathU⟩

def samples : Families (List Nat) :=
  (Store.empty.put (toCfName pathT) []).put (toCfName pathU) [] |>.put (idxCfName (toCfName pathU) "k".toList) []

/-- The record of `t` is the statement's own, the one of `u` another session's. -/
def bothCreated : Storage Nat := ⟨samples, [createdT, createdU]⟩

theorem tables_bothCreated : Tables (fun p => p = pathT ∨ p = pathU) [createdT] bothCreated where
  own e he _ := by
    cases mem_singleton.mp he
    exact .inl ⟨rfl, createdT, mem_cons_self, rfl⟩
  live := by
    rintro p (rfl | rfl)
    · decide
    · decide
  apart := by
    have hPaths : ∀ e ∈ [createdT] ++ bothCreated.log, e.path = pathT ∨ e.path = pathU := by decide
    rintro p (rfl | rfl) e he hNe
    · exact (hPaths e he).resolve_left hNe ▸ apart_samples.symm
    · exact (hPaths e he).resolve_right hNe ▸ apart_samples

theorem postDdl_keeps_created : bothCreated.families.get (toCfName pathT) = some [] ∧
    ∀ p, p = pathT ∨ p = pathU → ∀ z, Takes p z →
      (postDdl { allOk with listOk := fun _ => false } 2 false [createdT] bothCreated).families.get z =
        bothCreated.families.get z := by
  have hBoots : ∀ e ∈ bothCreated.log, e.key.boot = 2 := by decide
  refine ⟨by decide, (postDdl_keeps_iff _ 2 false [createdT] bothCreated _ tables_bothCreated (nodup_singleton _)
    ?_).mpr ⟨fun e he _ _ => .inl ⟨rfl, rfl, rfl⟩, ?_⟩⟩
  · intro e he
    exact congrArg (fun e => e.key.boot) (mem_singleton.mp he)
  · rintro e ⟨-, -, he, hBoot, -⟩
    exact absurd (hBoots e he) hBoot

/-- The read transaction cannot be begun, and the hook takes the committed `CREATE` for one that rolled back. A leftover
record of an earlier `DROP` takes the families of a table that another session has created since. -/
theorem postDdl_removes_created :
    (OwnsFamilies bothCreated.log createdT ∧ bothCreated.families.get (toCfName pathT) = some [] ∧
      (postDdl { allOk with beginOk := fun _ => false } 2 true [createdT] bothCreated).families.get
        (toCfName pathT) = none) ∧
    (postDdl allOk 2 false [createdT] { bothCreated with log := droppedU :: bothCreated.log }).families.get
        (toCfName pathU) = none ∧
      (postDdl allOk 2 false [createdT] { bothCreated with log := droppedU :: bothCreated.log }).families.get
        (idxCfName (toCfName pathU) "k".toList) = none :=
  ⟨⟨.inl ⟨rfl, createdT, mem_cons_self, rfl⟩, by decide, by decide⟩, by decide, by decide⟩

end Samples

end TideSql.DdlDeferred
