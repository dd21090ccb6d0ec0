import TideSql.Handler.IndexBuild
import TideSql.Lib.Store

/-!
# The index families of an `ALTER TABLE`

Families are addressed by the index's name.
-/

namespace TideSql.InplaceAlter
open CfName InplaceCheck IndexBuild Lib Lib.Run List

variable {π ρ κ : Type}

/-- What the statement does to one secondary index. An index re-created under its name is dropped
and added. -/
inductive KeyChange (ρ κ : Type) where
  | keep (d : IndexDef ρ κ)
  | rename (d : IndexDef ρ κ) (newName : Str)
  | drop (d : IndexDef ρ κ)
  | add (d : IndexDef ρ κ)

namespace KeyChange

def old : KeyChange ρ κ → Option (IndexDef ρ κ)
  | keep d | rename d _ | drop d => some d
  | add _ => none

def new : KeyChange ρ κ → Option (IndexDef ρ κ)
  | keep d | add d => some d
  | rename d newName => some { d with name := newName }
  | drop _ => none

def added : KeyChange ρ κ → Option (IndexDef ρ κ)
  | add d => some d
  | keep _ | rename _ _ | drop _ => none

def dropped : KeyChange ρ κ → Option (IndexDef ρ κ)
  | drop d => some d
  | keep _ | rename _ _ | add _ => none

def flag : KeyChange ρ κ → Option AlterFlag
  | keep _ => none
  | rename _ _ => some .renameIndex
  | drop d => some (if d.unique then .dropUniqueIndex else .dropIndex)
  | add d => some (if d.kind = .spatial then .addSpatialIndex else if d.unique then .addUniqueIndex else .addIndex)

end KeyChange

structure Alter (ρ κ : Type) where
  changes : List (KeyChange ρ κ)
  otherFlags : List AlterFlag
  oldPackRecord : Bool
  newPackRecord : Bool
  oldNodup : ((changes.filterMap KeyChange.old).map IndexDef.name).Nodup
  newNodup : ((changes.filterMap KeyChange.new).map IndexDef.name).Nodup

namespace Alter

variable (a : Alter ρ κ)

def oldDefs : List (IndexDef ρ κ) := a.changes.filterMap KeyChange.old
def newDefs : List (IndexDef ρ κ) := a.changes.filterMap KeyChange.new
def adds : List (IndexDef ρ κ) := a.changes.filterMap KeyChange.added
def drops : List (IndexDef ρ κ) := a.changes.filterMap KeyChange.dropped

def request : Request where
  oldPackRecord := a.oldPackRecord
  newPackRecord := a.newPackRecord
  flags := a.changes.filterMap KeyChange.flag ++ a.otherFlags
  added := a.adds.map IndexDef.kind

def Accepted : Prop :=
  checkIfSupportedInplaceAlter a.request = .instant ∨ checkIfSupportedInplaceAlter a.request = .noLock

end Alter

abbrev IndexFamilies (κ π : Type) := Store Str (List (κ × π))

structure Prepared (κ π : Type) where
  families : IndexFamilies κ π
  addCfNames : List Str
  ok : Bool

/-- The loop over the added indexes. A family that cannot be created has been dropped already, and
its name is not on the list a rollback goes by. -/
def prepareAdds (base : Str) (createOk : Str → Bool) : List (IndexDef ρ κ) → IndexFamilies κ π → Prepared κ π
  | [], s => ⟨s, [], true⟩
  | d :: ds, s =>
    let idxCf := idxCfName base d.name
    if createOk idxCf then
      let rest := prepareAdds base createOk ds ((s.drop idxCf).put idxCf [])
      { rest with addCfNames := idxCf :: rest.addCfNames }
    else ⟨s.drop idxCf, [], false⟩

def fill (base : Str) (adds : List (IndexDef ρ κ)) (index : List (IndexEntry κ π)) (s : IndexFamilies κ π) :
    IndexFamilies κ π :=
  s.putAll (adds.zipIdx.map fun d =>
    (idxCfName base d.1.name, index.filterMap fun x => if x.1 = d.2 then some x.2 else none))

/-- `commit_inplace_alter_table` for both endings, after `prepare` and, where that succeeded, the
builder. -/
def runAlter (a : Alter ρ κ) (base : Str) (createOk : Str → Bool) (index : List (IndexEntry κ π)) (commit : Bool)
    (s : IndexFamilies κ π) : IndexFamilies κ π :=
  let p := prepareAdds base createOk a.adds s
  let s := if p.ok then fill base a.adds index p.families else p.families
  if commit then s.dropAll (a.drops.map fun d => idxCfName base d.name) else s.dropAll p.addCfNames

def reached (base : Str) (createOk : Str → Bool) : List (IndexDef ρ κ) → List (IndexDef ρ κ)
  | [] => []
  | d :: ds => if createOk (idxCfName base d.name) then d :: reached base createOk ds else [d]

section Definitions

variable [LinearOrder π] (base : Str) (data : SortedMap π ρ)

/-- The index has its family, with exactly one entry per row. A `FULLTEXT` index has entries per word and is left out.
-/
def Holds (s : IndexFamilies κ π) (d : IndexDef ρ κ) : Prop :=
  ∃ es, s.get (idxCfName base d.name) = some es ∧ ∀ key k, (key, k) ∈ es ↔ ∃ r, (k, r) ∈ data.entries ∧ key = d.key r

def NoWrites (_ : World π ρ κ) : Action π ρ → Prop
  | .write _ _ => False
  | .reseek seekOk => seekOk = true
  | _ => True

def Built [DecidableEq κ] (adds : List (IndexDef ρ κ)) (index : List (IndexEntry κ π)) : Prop :=
  (adds = [] ∧ index = []) ∨ ∃ w, Reach (step adds) NoWrites (init data) w ∧ w.phase = .built ∧ w.index = index

/-- No added index has the name of a dropped one, and every new name of a renamed index already has its entries. -/
def CommitSafe (a : Alter ρ κ) (s : IndexFamilies κ π) : Prop :=
  (∀ d ∈ a.adds, ∀ d' ∈ a.drops, d'.name ≠ d.name) ∧
    ∀ d newName, KeyChange.rename d newName ∈ a.changes → d.kind ≠ .fulltext →
      (∀ d' ∈ a.drops, d'.name ≠ newName) ∧ Holds base data s { d with name := newName }

/-- The statement can roll back: no index `prepare` got to has the name of an old one. -/
def RollbackSafe (a : Alter ρ κ) (createOk : Str → Bool) : Prop :=
  ∀ d' ∈ reached base createOk a.adds, ∀ d ∈ a.oldDefs, d.kind ≠ .fulltext → d.name ≠ d'.name

end Definitions

section Names

variable {a : Alter ρ κ} {base : Str} {createOk : Str → Bool}

theorem idxCfName_inj {n n' : Str} : idxCfName base n = idxCfName base n' ↔ n = n' :=
  ⟨fun h => append_cancel_left h, fun h => h ▸ rfl⟩

theorem name_ne_of_nodup {f : KeyChange ρ κ → Option (IndexDef ρ κ)} {changes : List (KeyChange ρ κ)}
    (hNodup : ((changes.filterMap f).map IndexDef.name).Nodup) {c c' : KeyChange ρ κ} (hc : c ∈ changes)
    (hc' : c' ∈ changes) (hNe : c ≠ c') {d d' : IndexDef ρ κ} (hd : f c = some d) (hd' : f c' = some d') :
    d.name ≠ d'.name := by
  rw [Nodup, pairwise_map, pairwise_filterMap] at hNodup
  have : Std.Symm fun x y : KeyChange ρ κ => ∀ b, f x = some b → ∀ b', f y = some b' → b.name ≠ b'.name :=
    ⟨fun x y h b hb b' hb' => (h b' hb' b hb).symm⟩
  exact hNodup.forall hc hc' hNe d hd d' hd'

variable {d : IndexDef ρ κ}

theorem mem_adds : d ∈ a.adds ↔ KeyChange.add d ∈ a.changes := by
  simp only [Alter.adds, mem_filterMap]
  constructor
  · rintro ⟨c, hc, hd⟩
    cases c <;> cases hd
    exact hc
  · intro h
    exact ⟨_, h, rfl⟩

theorem mem_drops : d ∈ a.drops ↔ KeyChange.drop d ∈ a.changes := by
  simp only [Alter.drops, mem_filterMap]
  constructor
  · rintro ⟨c, hc, hd⟩
    cases c <;> cases hd
    exact hc
  · intro h
    exact ⟨_, h, rfl⟩

theorem mem_newDefs : d ∈ a.newDefs ↔ KeyChange.keep d ∈ a.changes ∨ KeyChange.add d ∈ a.changes ∨
      ∃ d₀ newName, KeyChange.rename d₀ newName ∈ a.changes ∧ d = { d₀ with name := newName } := by
  simp only [Alter.newDefs, mem_filterMap]
  constructor
  · rintro ⟨c, hc, hd⟩
    cases c with
    | keep d₀ =>
      cases hd
      exact Or.inl hc
    | add d₀ =>
      cases hd
      exact Or.inr (Or.inl hc)
    | rename d₀ newName =>
      cases hd
      exact Or.inr (Or.inr ⟨d₀, newName, hc, rfl⟩)
    | drop d₀ => cases hd
  · rintro (h | h | ⟨d₀, newName, h, rfl⟩)
    · exact ⟨_, h, rfl⟩
    · exact ⟨_, h, rfl⟩
    · exact ⟨_, h, rfl⟩

theorem nodup_adds (a : Alter ρ κ) : (a.adds.map fun d => idxCfName base d.name).Nodup := by
  have hNodup := a.newNodup
  rw [Nodup, pairwise_map, pairwise_filterMap] at hNodup
  rw [Nodup, pairwise_map, Alter.adds, pairwise_filterMap]
  refine hNodup.imp fun {c c'} h d hd d' hd' => ?_
  rw [Ne, idxCfName_inj]
  cases c <;> cases hd
  cases c' <;> cases hd'
  exact h d rfl d' rfl

theorem prepareAdds_cons_of_ok (h : createOk (idxCfName base d.name) = true) (ds : List (IndexDef ρ κ))
    (s : IndexFamilies κ π) : prepareAdds base createOk (d :: ds) s =
      { prepareAdds base createOk ds ((s.drop (idxCfName base d.name)).put (idxCfName base d.name) []) with
        addCfNames := idxCfName base d.name :: (prepareAdds base createOk ds
          ((s.drop (idxCfName base d.name)).put (idxCfName base d.name) [])).addCfNames } :=
  if_pos h

theorem prepareAdds_cons_of_fails (h : ¬createOk (idxCfName base d.name) = true) (ds : List (IndexDef ρ κ))
    (s : IndexFamilies κ π) : prepareAdds base createOk (d :: ds) s = ⟨s.drop (idxCfName base d.name), [], false⟩ :=
  if_neg h

variable {adds : List (IndexDef ρ κ)} {s : IndexFamilies κ π}

theorem prepareAdds_ok (h : (prepareAdds base createOk adds s).ok = true) : reached base createOk adds = adds ∧
      (prepareAdds base createOk adds s).addCfNames = adds.map fun d => idxCfName base d.name := by
  induction adds generalizing s with
  | nil => exact ⟨rfl, rfl⟩
  | cons d ds ih =>
    by_cases hOk : createOk (idxCfName base d.name) = true
    · rw [prepareAdds_cons_of_ok hOk] at h ⊢
      obtain ⟨hReached, hNames⟩ := ih h
      refine ⟨by rw [reached, if_pos hOk, hReached], ?_⟩
      change _ :: _ = _
      rw [hNames, map_cons]
    · rw [prepareAdds_cons_of_fails hOk] at h
      cases h

theorem prepareAdds_get_of_notMem {z : Str} (hz : z ∉ (reached base createOk adds).map fun d => idxCfName base d.name) :
    (prepareAdds base createOk adds s).families.get z = s.get z := by
  induction adds generalizing s with
  | nil => rfl
  | cons d ds ih =>
    rw [reached] at hz
    by_cases hOk : createOk (idxCfName base d.name) = true
    · rw [if_pos hOk, map_cons, mem_cons, not_or] at hz
      rw [prepareAdds_cons_of_ok hOk]
      refine (ih hz.2).trans ?_
      rw [Store.get_put, if_neg hz.1, Store.get_drop, if_neg hz.1]
    · rw [if_neg hOk, map_singleton, mem_singleton] at hz
      rw [prepareAdds_cons_of_fails hOk]
      exact (Store.get_drop ..).trans (if_neg hz)

theorem prepareAdds_get_of_unlisted {z : Str}
    (hz : z ∈ (reached base createOk adds).map fun d => idxCfName base d.name)
    (hList : z ∉ (prepareAdds base createOk adds s).addCfNames) :
    (prepareAdds base createOk adds s).families.get z = none := by
  induction adds generalizing s with
  | nil => cases hz
  | cons d ds ih =>
    rw [reached] at hz
    by_cases hOk : createOk (idxCfName base d.name) = true
    · rw [if_pos hOk, map_cons, mem_cons] at hz
      rw [prepareAdds_cons_of_ok hOk, mem_cons, not_or] at hList
      rw [prepareAdds_cons_of_ok hOk]
      obtain hEq | hIn := hz
      · exact absurd hEq hList.1
      · exact ih hIn hList.2
    · rw [if_neg hOk, map_singleton, mem_singleton] at hz
      rw [prepareAdds_cons_of_fails hOk]
      exact (Store.get_drop ..).trans (if_pos hz)

theorem prepareAdds_listed {z : Str} (hz : z ∈ (prepareAdds base createOk adds s).addCfNames) :
    z ∈ (reached base createOk adds).map fun d => idxCfName base d.name := by
  induction adds generalizing s with
  | nil => cases hz
  | cons d ds ih =>
    rw [reached]
    by_cases hOk : createOk (idxCfName base d.name) = true
    · rw [prepareAdds_cons_of_ok hOk, mem_cons] at hz
      rw [if_pos hOk, map_cons, mem_cons]
      exact hz.imp_right ih
    · rw [prepareAdds_cons_of_fails hOk] at hz
      cases hz

theorem map_fst_fill (adds : List (IndexDef ρ κ)) (index : List (IndexEntry κ π)) :
    (adds.zipIdx.map fun d => (idxCfName base d.1.name,
      index.filterMap fun x => if x.1 = d.2 then some x.2 else none)).map Prod.fst =
      adds.map fun d => idxCfName base d.name := by
  rw [map_map]
  conv_rhs => rw [← zipIdx_map_fst 0 adds, map_map]
  rfl

theorem get_fill_of_notMem {index : List (IndexEntry κ π)} {z : Str}
    (hz : z ∉ adds.map fun d => idxCfName base d.name) : (fill base adds index s).get z = s.get z := by
  apply Store.get_putAll_of_notMem
  rwa [map_fst_fill]

theorem get_runAlter_rollback (a : Alter ρ κ) (index : List (IndexEntry κ π)) (s : IndexFamilies κ π) (z : Str) :
    (runAlter a base createOk index false s).get z =
      if z ∈ (reached base createOk a.adds).map (fun d => idxCfName base d.name) then none else s.get z := by
  have hFill : z ∉ (prepareAdds base createOk a.adds s).addCfNames → (if (prepareAdds base createOk a.adds s).ok then
          fill base a.adds index (prepareAdds base createOk a.adds s).families
        else (prepareAdds base createOk a.adds s).families).get z =
        (prepareAdds base createOk a.adds s).families.get z := by
    intro hz
    split
    · rename_i hOk
      rw [(prepareAdds_ok hOk).2] at hz
      exact get_fill_of_notMem hz
    · rfl
  simp only [runAlter, Bool.false_eq_true, if_false, Store.get_dropAll]
  by_cases hList : z ∈ (prepareAdds base createOk a.adds s).addCfNames
  · rw [if_pos hList, if_pos (prepareAdds_listed hList)]
  · rw [if_neg hList, hFill hList]
    split
    · rename_i hReached
      exact prepareAdds_get_of_unlisted hReached hList
    · rename_i hReached
      exact prepareAdds_get_of_notMem hReached

theorem mem_fams_iff {ds : List (IndexDef ρ κ)} {n : Str} :
    idxCfName base n ∈ ds.map (fun d => idxCfName base d.name) ↔ ∃ d ∈ ds, d.name = n := by
  simp [mem_map, idxCfName_inj]

theorem notMem_fams {ds : List (IndexDef ρ κ)} {n : Str} (h : ∀ d ∈ ds, d.name ≠ n) :
    idxCfName base n ∉ ds.map fun d => idxCfName base d.name := by
  rw [mem_fams_iff]
  rintro ⟨d, hd, hEq⟩
  exact h d hd hEq

section Commit

variable {index : List (IndexEntry κ π)} {s : IndexFamilies κ π}

theorem get_runAlter_dropped {n : Str} (hDrop : ∃ d ∈ a.drops, d.name = n) :
    (runAlter a base createOk index true s).get (idxCfName base n) = none := by
  simp only [runAlter, if_true, Store.get_dropAll]
  exact if_pos (mem_fams_iff.mpr hDrop)

theorem get_runAlter_kept (hOk : (prepareAdds base createOk a.adds s).ok = true) {n : Str}
    (hDrop : ∀ d ∈ a.drops, d.name ≠ n) (hAdd : ∀ d ∈ a.adds, d.name ≠ n) :
    (runAlter a base createOk index true s).get (idxCfName base n) = s.get (idxCfName base n) := by
  simp only [runAlter, if_true, hOk, Store.get_dropAll]
  rw [if_neg (notMem_fams hDrop), get_fill_of_notMem (notMem_fams hAdd)]
  apply prepareAdds_get_of_notMem
  rw [(prepareAdds_ok hOk).1]
  exact notMem_fams hAdd

theorem get_runAlter_added (hOk : (prepareAdds base createOk a.adds s).ok = true) {i : Nat} {d : IndexDef ρ κ}
    (hi : a.adds[i]? = some d) (hDrop : ∀ d' ∈ a.drops, d'.name ≠ d.name) :
    (runAlter a base createOk index true s).get (idxCfName base d.name) =
      some (index.filterMap fun x => if x.1 = i then some x.2 else none) := by
  simp only [runAlter, if_true, hOk, Store.get_dropAll]
  rw [if_neg (notMem_fams hDrop)]
  apply Store.get_putAll_of_mem
  · rw [map_fst_fill]
    exact nodup_adds a
  · exact mem_map.mpr ⟨(d, i), mem_zipIdx_iff_getElem?.mpr hi, rfl⟩

end Commit

end Names

section Outcome

variable [LinearOrder π] {a : Alter ρ κ} {base : Str} {createOk : Str → Bool} {data : SortedMap π ρ}
  {index : List (IndexEntry κ π)} {s s' : IndexFamilies κ π}

theorem holds_congr {d : IndexDef ρ κ} (h : s'.get (idxCfName base d.name) = s.get (idxCfName base d.name)) :
    Holds base data s' d ↔ Holds base data s d := by
  rw [Holds, Holds, h]

theorem not_holds_of_none {d : IndexDef ρ κ} (h : s.get (idxCfName base d.name) = none) : ¬Holds base data s d := by
  rintro ⟨es, hGet, _⟩
  rw [h] at hGet
  cases hGet

theorem NoWrites.settled {adds : List (IndexDef ρ κ)} {w : World π ρ κ} {act : Action π ρ} (h : NoWrites w act) :
    WriteSettled adds w act := by
  cases act with
  | write k v => exact absurd h not_false
  | reseek seekOk => exact h
  | beginScan | visit | finish | fail | commitAlter => trivial

theorem Built.complete [DecidableEq κ] {adds : List (IndexDef ρ κ)} (h : Built data adds index) :
    Complete adds data index := by
  obtain ⟨rfl, rfl⟩ | ⟨w, hReach, hPhase, rfl⟩ := h
  · intro x
    constructor
    · intro hx
      cases hx
    · rintro ⟨k, r, _, hx⟩
      cases hx
  · have hInv : IndexBuild.Inv adds w ∧ w.data = data := by
      refine hReach.invariant (fun w => IndexBuild.Inv adds w ∧ w.data = data) ⟨rfl, rfl⟩ ?_
      rintro w act w' ⟨hInv, hData⟩ hGuard hStep
      refine ⟨step_inv hInv hGuard.settled hStep, (step_data hStep ?_).trans hData⟩
      rintro k v rfl
      exact hGuard
    obtain ⟨hComplete, hData⟩ := hInv
    rw [IndexBuild.Inv, hPhase] at hComplete
    rw [← hData]
    exact hComplete

theorem commit_iff [DecidableEq κ] (hAdded : ∀ d ∈ a.adds, d.kind = .ordinary)
    (hOk : (prepareAdds base createOk a.adds s).ok = true) (hBuilt : Built data a.adds index)
    (hOld : ∀ d ∈ a.oldDefs, d.kind ≠ .fulltext → Holds base data s d) :
    (∀ d ∈ a.newDefs, d.kind ≠ .fulltext → Holds base data (runAlter a base createOk index true s) d) ↔
      CommitSafe base data a s := by
  have hKeepDrop : ∀ d, KeyChange.keep d ∈ a.changes → ∀ d' ∈ a.drops, d'.name ≠ d.name := fun d hd d' hd' =>
    name_ne_of_nodup a.oldNodup (mem_drops.mp hd') hd (by simp) rfl rfl
  have hKeepAdd : ∀ d, KeyChange.keep d ∈ a.changes → ∀ d' ∈ a.adds, d'.name ≠ d.name := fun d hd d' hd' =>
    name_ne_of_nodup a.newNodup (mem_adds.mp hd') hd (by simp) rfl rfl
  have hRenameAdd : ∀ d n, KeyChange.rename d n ∈ a.changes → ∀ d' ∈ a.adds, d'.name ≠ n := fun d n hd d' hd' =>
    name_ne_of_nodup a.newNodup (mem_adds.mp hd') hd (by simp) rfl rfl
  constructor
  · intro h
    refine ⟨fun d hd d' hd' hEq => ?_, fun d n hd hKind => ?_⟩
    · have hHolds := h d (mem_newDefs.mpr (Or.inr (Or.inl (mem_adds.mp hd)))) (by simp [hAdded d hd])
      exact not_holds_of_none (get_runAlter_dropped ⟨d', hd', hEq⟩) hHolds
    · have hHolds := h _ (mem_newDefs.mpr (Or.inr (Or.inr ⟨d, n, hd, rfl⟩))) hKind
      have hDrop : ∀ d' ∈ a.drops, d'.name ≠ n := by
        intro d' hd' hEq
        exact not_holds_of_none (get_runAlter_dropped ⟨d', hd', hEq⟩) hHolds
      exact ⟨hDrop, (holds_congr (get_runAlter_kept hOk hDrop (hRenameAdd d n hd))).mp hHolds⟩
  · rintro ⟨hAdd, hRename⟩ d hd hKind
    obtain hKeep | hNew | ⟨d₀, n, hMoved, rfl⟩ := mem_newDefs.mp hd
    · refine (holds_congr (get_runAlter_kept hOk (hKeepDrop d hKeep) (hKeepAdd d hKeep))).mpr (hOld d ?_ hKind)
      exact mem_filterMap.mpr ⟨_, hKeep, rfl⟩
    · obtain ⟨i, hi⟩ := mem_iff_getElem?.mp (mem_adds.mpr hNew)
      refine ⟨_, get_runAlter_added hOk hi (hAdd d (mem_adds.mpr hNew)), fun key k => ?_⟩
      rw [← hBuilt.complete.mem_iff hi (hAdded d (mem_adds.mpr hNew)), mem_filterMap]
      constructor
      · rintro ⟨⟨i', x⟩, hMem, hx⟩
        split at hx
        · rename_i hTag
          cases hTag
          cases hx
          exact hMem
        · cases hx
      · intro hMem
        exact ⟨_, hMem, if_pos rfl⟩
    · obtain ⟨hDrop, hHolds⟩ := hRename d₀ n hMoved hKind
      exact (holds_congr (get_runAlter_kept hOk hDrop (hRenameAdd d₀ n hMoved))).mpr hHolds

theorem rollback_iff (hOld : ∀ d ∈ a.oldDefs, d.kind ≠ .fulltext → Holds base data s d) :
    (∀ d ∈ a.oldDefs, d.kind ≠ .fulltext → Holds base data (runAlter a base createOk index false s) d) ↔
      RollbackSafe base a createOk := by
  constructor
  · intro h d' hd' d hd hKind hEq
    refine not_holds_of_none ?_ (h d hd hKind)
    rw [get_runAlter_rollback, if_pos (mem_fams_iff.mpr ⟨d', hd', hEq.symm⟩)]
  · intro h d hd hKind
    refine (holds_congr ?_).mpr (hOld d hd hKind)
    rw [get_runAlter_rollback, if_neg]
    exact notMem_fams fun d' hd' hEq => h d' hd' d hd hKind hEq.symm

theorem Alter.Accepted.adds_ordinary (h : a.Accepted) : ∀ d ∈ a.adds, d.kind = .ordinary := by
  intro d hd
  obtain hInstant | hNoLock := h
  · have hFlag : ∃ f ∈ a.request.flags, f ∉ instantSet := by
      refine ⟨_, mem_append_left _ (mem_filterMap.mpr ⟨_, mem_adds.mp hd, rfl⟩), ?_⟩
      split
      · decide
      · split <;> decide
    obtain ⟨f, hf, hNot⟩ := hFlag
    exact absurd (((check_eq_instant_iff _).mp hInstant).2 f hf) hNot
  · exact added_ordinary_of_noLock hNoLock _ (mem_map_of_mem hd)

/-- What each ending leaves is right exactly when no name of the list it drops by, and no new name of a renamed index,
gets in the way. -/
theorem index_families_iff [DecidableEq κ] (a : Alter ρ κ) (base : Str) (createOk : Str → Bool)
    (data : SortedMap π ρ) (index : List (IndexEntry κ π)) (commit : Bool) (s : IndexFamilies κ π)
    (hAccepted : a.Accepted)
    (hCommit : commit = true → (prepareAdds base createOk a.adds s).ok = true ∧ Built data a.adds index)
    (hOld : ∀ d ∈ a.oldDefs, d.kind ≠ .fulltext → Holds base data s d) :
    (∀ d ∈ if commit then a.newDefs else a.oldDefs, d.kind ≠ .fulltext →
        Holds base data (runAlter a base createOk index commit s) d) ↔
      if commit then CommitSafe base data a s else RollbackSafe base a createOk := by
  cases commit with
  | true => exact commit_iff hAccepted.adds_ordinary (hCommit rfl).1 (hCommit rfl).2 hOld
  | false => exact rollback_iff hOld

end Outcome

def halfIndex : IndexDef Nat Nat := ⟨['v'], .ordinary, fun r => r / 2, fun _ => false, false⟩

def addOnly : Alter Nat Nat := ⟨[.add valueIndex], [], true, true, by decide, by decide⟩

def recreate : Alter Nat Nat := ⟨[.drop valueIndex, .add halfIndex], [], true, true, by decide, by decide⟩

def renameOnly : Alter Nat Nat := ⟨[.rename valueIndex ['w']], [], true, true, by decide, by decide⟩

def noFamilies : IndexFamilies Nat Nat := Store.ofNames (fun _ => []) [] nodup_nil

def valueFamily : IndexFamilies Nat Nat :=
  Store.ofNames (fun _ => [(50, 5)]) [idxCfName ['t'] ['v']] (nodup_singleton _)

theorem built_oneRow {d : IndexDef Nat Nat} (hNew : duplicate [d] [] 50 = false) :
    Built oneRow [d] (rowEntries [d] 5 50) := by
  have hStart : Reach (step [d]) NoWrites (init oneRow) ⟨oneRow, [], .scanning ⟨[(5, 50)], none, 0, [], []⟩⟩ :=
    Reach.init.step Action.beginScan trivial rfl
  have hVisit := hStart.step Action.visit trivial (by simp only [step, hNew]; rfl)
  exact Or.inr ⟨_, hVisit.step Action.finish trivial rfl, rfl, rfl⟩

theorem holds_valueFamily : Holds ['t'] oneRow valueFamily valueIndex := by
  refine ⟨[(50, 5)], rfl, fun key k => ?_⟩
  show (key, k) ∈ [(50, 5)] ↔ ∃ r, (k, r) ∈ [(5, 50)] ∧ key = r
  simp only [mem_singleton, Prod.mk.injEq]
  constructor
  · rintro ⟨rfl, rfl⟩
    exact ⟨50, ⟨rfl, rfl⟩, rfl⟩
  · rintro ⟨r, ⟨rfl, rfl⟩, rfl⟩
    exact ⟨rfl, rfl⟩

theorem index_families_added : Holds ['t'] oneRow
    (runAlter addOnly ['t'] (fun _ => true) [(0, 50, 5)] true noFamilies) valueIndex := by
  have hSafe : CommitSafe ['t'] oneRow addOnly noFamilies := by
    constructor
    · intro d _ d' hd'
      cases hd'
    · intro d n hd
      cases hd with
      | tail _ h => cases h
  have h := (index_families_iff addOnly ['t'] (fun _ => true) oneRow [(0, 50, 5)] true noFamilies
    (Or.inr rfl) (fun _ => ⟨rfl, built_oneRow rfl⟩) (fun d hd => by cases hd)).mpr hSafe
  exact h valueIndex (mem_singleton.mpr rfl) (by decide)

/-- Re-creating an index under its name loses its family at either ending, and a renamed index
has none. -/
theorem recreated_and_renamed_index_without_family :
    (recreate.Accepted ∧ Holds ['t'] oneRow valueFamily valueIndex ∧ Built oneRow recreate.adds [(0, 25, 5)] ∧
      (prepareAdds ['t'] (fun _ => true) recreate.adds valueFamily).ok = true ∧
      recreate.newDefs = [halfIndex] ∧
      (runAlter recreate ['t'] (fun _ => true) [(0, 25, 5)] true valueFamily).get (idxCfName ['t'] ['v']) = none ∧
      recreate.oldDefs = [valueIndex] ∧
      (runAlter recreate ['t'] (fun _ => true) [(0, 25, 5)] false valueFamily).get (idxCfName ['t'] ['v']) = none) ∧
    renameOnly.Accepted ∧ renameOnly.newDefs = [{ valueIndex with name := ['w'] }] ∧
      (runAlter renameOnly ['t'] (fun _ => true) [] true valueFamily).get (idxCfName ['t'] ['w']) = none :=
  ⟨⟨Or.inr rfl, holds_valueFamily, built_oneRow rfl, rfl, rfl, rfl, rfl, rfl⟩, Or.inl rfl, rfl, rfl⟩

end TideSql.InplaceAlter
