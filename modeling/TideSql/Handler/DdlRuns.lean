import TideSql.Handler.DdlDeferred

/-!
# Runs of `CREATE TABLE` and `DROP TABLE` over restarts

Sessions start statements, commit them or roll them back, and run the post-DDL hook; the server may stop at
any step.
-/

namespace TideSql.DdlRuns
open CfName Lifecycle DdlDeferred Lib Lib.Run List Option Function

inductive Phase where
  | running
  | committed
  | rolledBack
  deriving DecidableEq

structure Change where
  sess : Nat
  entry : Entry Str
  indexes : List Str
  logged : Bool
  phase : Phase
  deriving DecidableEq

/-- A table of the dictionary has an incarnation and the names of its indexes. What is put into a family is marked with
the incarnation it was put for. -/
structure Server where
  store : Storage Nat
  dict : Str → Option (Nat × List Str)
  inflight : List Change
  recovery : List (Entry Str)
  recovered : Bool
  boot : Nat
  seq : Nat
  incarnation : Nat

inductive Action where
  | create (sess : Nat) (path : Str) (indexes : List Str) (recordOk : Bool)
  | drop (sess : Nat) (path : Str) (recordOk : Bool)
  | insert (path : Str)
  | commit (sess : Nat)
  | rollback (sess : Nat)
  | hookRecover (recoverOk : Bool)
  | recoverNext (f : Faults)
  | hookOwn (k : Key) (f : Faults)
  | restart

section Families

def familiesOf (path : Str) (indexes : List Str) : List Str :=
  toCfName path :: indexes.map (idxCfName (toCfName path))

/-- `create()` keeps a family that is already there. -/
def createMissing (fs : Families (List Nat)) (z : Str) : Families (List Nat) :=
  if (fs.get z).isNone then fs.put z [] else fs

def addRow (i : Nat) (fs : Families (List Nat)) (z : Str) : Families (List Nat) := fs.modify z (i :: ·)

/-- Nothing is in a family that the table has, or that its removal would take. -/
def Blank (fs : Families (List Nat)) (path : Str) : Prop := ∀ z, Takes path z → ∀ rows, fs.get z = some rows → rows = []

theorem Blank.congr {fs fs' : Families (List Nat)} {path : Str} (h : Blank fs path)
    (hSame : ∀ z, Takes path z → fs'.get z = fs.get z) : Blank fs' path := fun z hz rows hRows =>
  h z hz rows ((hSame z hz).symm.trans hRows)

theorem takes_of_mem {path z : Str} {indexes : List Str} (h : z ∈ familiesOf path indexes) : Takes path z := by
  obtain rfl | hIndex := mem_cons.mp h
  · exact .inl rfl
  · obtain ⟨k, -, rfl⟩ := mem_map.mp hIndex
    exact .inr (prefix_append _ k)

theorem get_createMissing (zs : List Str) (fs : Families (List Nat)) (z : Str) :
    (zs.foldl createMissing fs).get z = if z ∈ zs ∧ fs.get z = none then some [] else fs.get z := by
  induction zs generalizing fs with
  | nil => simp
  | cons a zs ih =>
    have hHead : (createMissing fs a).get z = if z = a ∧ fs.get z = none then some [] else fs.get z := by
      rw [createMissing]
      obtain rfl | hNe := eq_or_ne z a
      · cases hGet : fs.get z with
        | none => simp
        | some rows => simp [hGet]
      · split <;> simp [hNe]
    rw [foldl_cons, ih, hHead]
    by_cases hNone : fs.get z = none
    · obtain rfl | hNe := eq_or_ne z a
      · simp [hNone]
      · simp [hNone, hNe]
    · simp [hNone]

theorem get_addRows (i : Nat) (zs : List Str) (fs : Families (List Nat)) (z : Str) :
    ∃ added : List Nat, (∀ r ∈ added, r = i) ∧ (z ∉ zs → added = []) ∧
      (zs.foldl (addRow i) fs).get z = (fs.get z).map (added ++ ·) := by
  induction zs generalizing fs with
  | nil => exact ⟨[], nofun, fun _ => rfl, by simp⟩
  | cons a zs ih =>
    obtain ⟨added, hAll, hNot, hGet⟩ := ih (addRow i fs a)
    rw [foldl_cons]
    obtain rfl | hNe := eq_or_ne z a
    · refine ⟨added ++ [i], fun r hr => ?_, fun h => absurd mem_cons_self h, ?_⟩
      · exact (mem_append.mp hr).elim (hAll r) mem_singleton.mp
      · rw [hGet, addRow, Store.get_modify_self, Option.map_map]
        congr 1
        funext rows
        simp
    · refine ⟨added, hAll, fun h => hNot fun hIn => h (mem_cons_of_mem a hIn), ?_⟩
      rw [hGet, addRow, Store.get_modify_of_ne fs hNe]

end Families

namespace Server

def init : Server := ⟨⟨Store.empty, []⟩, fun _ => none, [], [], false, 1, 0, 0⟩

def key (s : Server) : Key := ⟨s.boot, s.seq⟩

/-- The metadata lock: a statement touches a table only while no other change of it is in flight,
and only before it has committed or rolled back. -/
def MayTouch (s : Server) (sess : Nat) (n : Str) : Prop :=
  ∀ c ∈ s.inflight, c.entry.path ≠ n ∧ (c.sess = sess → c.phase = .running)

instance (s : Server) (sess : Nat) (n : Str) : Decidable (s.MayTouch sess n) :=
  inferInstanceAs (Decidable (∀ c ∈ s.inflight, c.entry.path ≠ n ∧ (c.sess = sess → c.phase = .running)))

/-- A record that cannot be written is only warned about. -/
def afterCreate (s : Server) (sess : Nat) (n : Str) (indexes : List Str) (recordOk : Bool) : Server :=
  { s with
    store := { s.store with families := (familiesOf n indexes).foldl createMissing s.store.families }
    inflight := s.inflight ++ [⟨sess, ⟨s.key, .create, n⟩, indexes, recordOk, .running⟩]
    seq := s.seq + 1 }

/-- A `DROP` only records its intent, and fails without effect when it cannot. -/
def afterDrop (s : Server) (sess : Nat) (n : Str) (recordOk : Bool) : Server :=
  { s with
    inflight := if recordOk then s.inflight ++ [⟨sess, ⟨s.key, .drop, n⟩, [], true, .running⟩] else s.inflight
    seq := s.seq + 1 }

/-- A row and its index entries. -/
def afterInsert (s : Server) (n : Str) (i : Nat) (indexes : List Str) : Server :=
  { s with store := { s.store with families := (familiesOf n indexes).foldl (addRow i) s.store.families } }

def openChanges (s : Server) (sess : Nat) : List Change :=
  s.inflight.filter fun c => c.sess = sess ∧ c.phase = .running

def finish (s : Server) (sess : Nat) (p : Phase) : List Change :=
  s.inflight.map fun c => if c.sess = sess ∧ c.phase = .running then { c with phase := p } else c

def dictAfter (s : Server) (sess : Nat) (n : Str) : Option (Nat × List Str) :=
  match (s.openChanges sess).find? fun c => c.entry.path = n with
  | none => s.dict n
  | some c => if c.entry.what = .create then some (s.incarnation, c.indexes) else none

def afterCommit (s : Server) (sess : Nat) : Server :=
  { s with
    store := { s.store with
      log := s.store.log ++ ((s.openChanges sess).filter fun c => c.logged).map Change.entry }
    dict := s.dictAfter sess
    inflight := s.finish sess .committed
    incarnation := s.incarnation + 1 }

def afterHookRecover (s : Server) (recoverOk : Bool) : Server :=
  { s with
    recovered := true
    recovery := if recoverOk then s.store.log.filter fun e => e.key.boot ≠ s.boot else [] }

def afterRecoverNext (s : Server) (f : Faults) (e : Entry Str) (rest : List (Entry Str)) : Server :=
  { s with store := resolve f s.store e true, recovery := rest }

/-- A statement's own record is resolved by whether it is in storage; a change whose record was
never written has nothing to resolve. -/
def afterHookOwn (s : Server) (f : Faults) (c : Change) : Server :=
  { s with
    store := if c.logged then resolve f s.store c.entry (recordSurvived f s.store.log c.entry.key) else s.store
    inflight := s.inflight.filter fun c' => c'.entry.key ≠ c.entry.key }

def afterRestart (s : Server) : Server :=
  { s with inflight := [], recovery := [], recovered := false, boot := s.boot + 1, seq := 0 }

def step (s : Server) : Action → Option Server
  | .create sess n indexes recordOk =>
    if s.dict n = none ∧ s.MayTouch sess n then some (s.afterCreate sess n indexes recordOk) else none
  | .drop sess n recordOk =>
    if s.dict n ≠ none ∧ s.MayTouch sess n then some (s.afterDrop sess n recordOk) else none
  | .insert n =>
    match s.dict n with
    | none => none
    | some (i, indexes) =>
      if (familiesOf n indexes).all fun z => (s.store.families.get z).isSome then some (s.afterInsert n i indexes)
      else none
  | .commit sess => some (s.afterCommit sess)
  | .rollback sess => some { s with inflight := s.finish sess .rolledBack }
  | .hookRecover recoverOk => if s.recovered then none else some (s.afterHookRecover recoverOk)
  | .recoverNext f =>
    match s.recovery with
    | [] => none
    | e :: rest => some (s.afterRecoverNext f e rest)
  | .hookOwn k f =>
    match s.inflight.find? fun c => c.entry.key = k with
    | none => none
    | some c => if c.phase ≠ .running then some (s.afterHookOwn f c) else none
  | .restart => some s.afterRestart

end Server

/-- Every table of the dictionary has its families, and they hold rows of this incarnation only. -/
def Safe (s : Server) : Prop :=
  ∀ n i indexes, s.dict n = some (i, indexes) → ∀ z ∈ familiesOf n indexes,
    ∃ rows, s.store.families.get z = some rows ∧ ∀ r ∈ rows, r = i

def IsHook : Action → Prop
  | .hookRecover _ | .recoverNext _ | .hookOwn _ _ => True
  | _ => False

/-- The record can be looked up. -/
def Looked (f : Faults) (k : Key) : Prop := f.openOk k = true ∧ f.beginOk k = true ∧ f.getOk k = true

/-- Of the calls that remove a table's families only the one for the data family may fail. -/
def Thorough (f : Faults) (k : Key) : Prop := f.listOk k = true ∧ f.indexFails k = []

/-- A table that is created is one of those named, and no record of a `DROP` of it is left in the log. Hooks look their
records up and remove all families or none. -/
def Settled (names : Str → Bool) (s : Server) : Action → Prop
  | .create _ n _ _ => names n = true ∧ ∀ e ∈ s.store.log, e.what = .drop → e.path ≠ n
  | .recoverNext f => ∀ e ∈ s.recovery.head?, Thorough f e.key
  | .hookOwn k f => Looked f k ∧ Thorough f k
  | _ => True

/-- No two of the tables can have a family in common. -/
def Separate (names : Str → Bool) : Prop := ∀ p q, names p = true → names q = true → p ≠ q → Apart p q

theorem Separate.eq_of_takes {names : Str → Bool} (h : Separate names) {p q z : Str} (hp : names p = true)
    (hq : names q = true) (hpz : Takes p z) (hqz : Takes q z) : p = q := by
  by_contra hNe
  exact h p q hp hq hNe z ⟨hpz, hqz⟩

/-- What is done to the families of one table leaves every other table as it is. -/
theorem Separate.same {names : Str → Bool} (h : Separate names) {p n : Str} (hp : names p = true)
    {fs fs' : Families (List Nat)} (hFamilies : ∀ z, ¬Takes p z → fs'.get z = fs.get z) (hn : names n = true)
    (hNe : n ≠ p) {z : Str} (hz : Takes n z) : fs'.get z = fs.get z :=
  hFamilies z fun hTakes => hNe (h.eq_of_takes hn hp hz hTakes)

theorem Separate.resolve_same {names : Str → Bool} (h : Separate names) (f : Faults) (st : Storage Nat) {e : Entry Str}
    {committed : Bool} (he : names e.path = true) {n z : Str} (hn : names n = true)
    (hKeep : n = e.path → decide (e.what = .drop) ≠ committed) (hz : Takes n z) :
    (resolve f st e committed).families.get z = st.families.get z := by
  obtain ⟨hRemoves, hDrops, -⟩ | ⟨-, hSame⟩ := resolve_families f st e committed z
  · exact absurd hRemoves.1 (hKeep (h.eq_of_takes hn he hz (takes_of_drops hDrops)))
  · exact hSame

theorem drops_of_thorough {f : Faults} {k : Key} (h : Thorough f k) {path z : Str} (hz : Takes path z) :
    Drops f k path z := by
  have hIndex : f.indexOk k z = true := by
    rw [Faults.indexOk, h.2]
    rfl
  exact hz.imp_right fun hPre => ⟨h.1, hIndex, hPre⟩

structure ChangeInv (s : Server) (c : Change) : Prop where
  dropLogged : c.entry.what = .drop → c.logged = true
  notLogged : c.phase ≠ .committed → ∀ e ∈ s.store.log, e.key ≠ c.entry.key
  inLog : c.phase = .committed → c.logged = true → c.entry ∈ s.store.log
  absent : (c.entry.what = .create ↔ c.phase ≠ .committed) → s.dict c.entry.path = none
  present : (c.entry.what = .create ↔ c.phase = .committed) → s.dict c.entry.path ≠ none
  made : c.entry.what = .create → c.phase = .running → Blank s.store.families c.entry.path ∧
    ∀ z ∈ familiesOf c.entry.path c.indexes, s.store.families.get z ≠ none

theorem ChangeInv.made_congr {s : Server} {c : Change} (h : ChangeInv s c) {fs : Families (List Nat)}
    (hSame : ∀ z, Takes c.entry.path z → fs.get z = s.store.families.get z) (hWhat : c.entry.what = .create)
    (hRun : c.phase = .running) :
    Blank fs c.entry.path ∧ ∀ z ∈ familiesOf c.entry.path c.indexes, fs.get z ≠ none := by
  obtain ⟨hBlank, hThere⟩ := h.made hWhat hRun
  exact ⟨hBlank.congr hSame, fun z hz hNone => hThere z hz ((hSame z (takes_of_mem hz)).symm.trans hNone)⟩

structure Inv (names : Str → Bool) (s : Server) : Prop where
  live : Safe s
  dropped : ∀ e ∈ s.store.log, e.what = .drop →
    s.dict e.path = none ∧ ∀ c ∈ s.inflight, c.entry.path = e.path → c.entry.what = .drop
  orphan : ∀ n, names n = true → s.dict n = none → (∀ e ∈ s.store.log, e.what = .drop → e.path ≠ n) →
    Blank s.store.families n
  dictNamed : ∀ n, s.dict n ≠ none → names n = true
  logNamed : ∀ e ∈ s.store.log, names e.path = true
  named : ∀ c ∈ s.inflight, names c.entry.path = true
  recoveryLog : ∀ e ∈ s.recovery, e ∈ s.store.log ∧ e.key.boot ≠ s.boot
  recoveryKeys : (s.recovery.map Entry.key).Nodup
  logKeys : (s.store.log.map Entry.key).Nodup
  logBound : ∀ e ∈ s.store.log, e.key.boot < s.boot ∨ e.key.boot = s.boot ∧ e.key.seq < s.seq
  paths : (s.inflight.map fun c => c.entry.path).Nodup
  keys : (s.inflight.map fun c => c.entry.key).Nodup
  keyBound : ∀ c ∈ s.inflight, c.entry.key.boot = s.boot ∧ c.entry.key.seq < s.seq
  change : ∀ c ∈ s.inflight, ChangeInv s c

theorem step_hookOwn {s s' : Server} {k : Key} {f : Faults} (hStep : s.step (.hookOwn k f) = some s') :
    ∃ c ∈ s.inflight, c.entry.key = k ∧ c.phase ≠ .running ∧ s' = s.afterHookOwn f c := by
  rw [Server.step] at hStep
  split at hStep
  · cases hStep
  · rename_i c hFind
    have hKey : c.entry.key = k := by simpa using find?_some hFind
    split at hStep
    · rename_i hEnded
      cases hStep
      exact ⟨c, mem_of_find?_eq_some hFind, hKey, hEnded, rfl⟩
    · cases hStep

namespace Inv

variable {names : Str → Bool} {s : Server}

theorem named_of_dict (h : Inv names s) {n : Str} {table : Nat × List Str} (hn : s.dict n = some table) :
    names n = true :=
  h.dictNamed n (by rw [hn]; exact some_ne_none table)

theorem key_notMem_log (h : Inv names s) : ∀ e ∈ s.store.log, e.key ≠ s.key := by
  intro e he hKey
  obtain hBoot | ⟨_, hSeq⟩ := h.logBound e he
  · rw [hKey] at hBoot
    exact absurd hBoot (Nat.lt_irrefl _)
  · rw [hKey] at hSeq
    exact absurd hSeq (Nat.lt_irrefl _)

theorem key_notMem_inflight (h : Inv names s) : ∀ c ∈ s.inflight, c.entry.key ≠ s.key := by
  intro c hc hKey
  have hSeq := (h.keyBound c hc).2
  rw [hKey] at hSeq
  exact absurd hSeq (Nat.lt_irrefl _)

theorem push_nodup {β : Type} {f : Entry Str → β} {c : Change} (h : (s.inflight.map fun c => f c.entry).Nodup)
    (hNew : ∀ c' ∈ s.inflight, f c'.entry ≠ f c.entry) : ((s.inflight ++ [c]).map fun c => f c.entry).Nodup := by
  rw [map_append]
  refine h.append (nodup_singleton _) ?_
  rw [map_singleton, disjoint_singleton]
  intro hMem
  obtain ⟨c', hc', hEq⟩ := mem_map.mp hMem
  exact hNew c' hc' hEq

theorem push (h : Inv names s) (hSep : Separate names) (c : Change) (families : Families (List Nat))
    (hKey : c.entry.key = s.key) (hNamed : names c.entry.path = true)
    (hPath : ∀ c' ∈ s.inflight, c'.entry.path ≠ c.entry.path)
    (hLog : c.entry.what = .create → ∀ e ∈ s.store.log, e.what = .drop → e.path ≠ c.entry.path)
    (hFamilies : ∀ z, ¬Takes c.entry.path z → families.get z = s.store.families.get z)
    (hRows : (families = s.store.families ∧ c.entry.what = .drop) ∨
      (s.dict c.entry.path = none ∧ Blank families c.entry.path ∧
        ∀ z ∈ familiesOf c.entry.path c.indexes, families.get z ≠ none)) (hPhase : c.phase = .running)
    (hDict : s.dict c.entry.path = none ↔ c.entry.what = .create) (hLogged : c.entry.what = .drop → c.logged = true) :
    Inv names
      { s with store := { s.store with families := families }, inflight := s.inflight ++ [c], seq := s.seq + 1 } where
  live := by
    intro n i indexes hn z hz
    obtain ⟨rows, hGet, hAll⟩ := h.live n i indexes hn z hz
    obtain rfl | hNe := eq_or_ne n c.entry.path
    · obtain ⟨rfl, _⟩ | ⟨hNone, _⟩ := hRows
      · exact ⟨rows, hGet, hAll⟩
      · cases hNone.symm.trans hn
    · exact ⟨rows, (hSep.same hNamed hFamilies (h.named_of_dict hn) hNe (takes_of_mem hz)).trans hGet, hAll⟩
  dropped := by
    intro e he hDrop
    refine ⟨(h.dropped e he hDrop).1, fun c' hc' hEq => ?_⟩
    obtain hOld | hNew := mem_append.mp hc'
    · exact (h.dropped e he hDrop).2 c' hOld hEq
    · obtain rfl := mem_singleton.mp hNew
      cases hWhat : c'.entry.what with
      | drop => rfl
      | create => exact absurd hEq.symm (hLog hWhat e he hDrop)
  orphan := by
    intro n hName hn hFree
    obtain rfl | hNe := eq_or_ne n c.entry.path
    · obtain ⟨_, hDrop⟩ | ⟨_, hBlank, _⟩ := hRows
      · rw [hDict.mp hn] at hDrop
        cases hDrop
      · exact hBlank
    · exact (h.orphan n hName hn hFree).congr fun z => hSep.same hNamed hFamilies hName hNe
  dictNamed := h.dictNamed
  logNamed := h.logNamed
  named := by
    intro c' hc'
    obtain hOld | hNew := mem_append.mp hc'
    · exact h.named c' hOld
    · rwa [mem_singleton.mp hNew]
  recoveryLog := h.recoveryLog
  recoveryKeys := h.recoveryKeys
  logKeys := h.logKeys
  logBound := by
    intro e he
    have hOld := h.logBound e he
    change e.key.boot < s.boot ∨ e.key.boot = s.boot ∧ e.key.seq < s.seq + 1
    omega
  paths := push_nodup h.paths hPath
  keys := push_nodup h.keys fun c' hc' => hKey ▸ h.key_notMem_inflight c' hc'
  keyBound := by
    intro c' hc'
    obtain hOld | hNew := mem_append.mp hc'
    · have hBound := h.keyBound c' hOld
      exact ⟨hBound.1, Nat.lt_succ_of_lt hBound.2⟩
    · obtain rfl := mem_singleton.mp hNew
      rw [hKey]
      exact ⟨rfl, Nat.lt_succ_self _⟩
  change := by
    intro c' hc'
    obtain hOld | hNew := mem_append.mp hc'
    · have hInv := h.change c' hOld
      have hSame := fun z => hSep.same hNamed hFamilies (h.named c' hOld) (hPath c' hOld) (z := z)
      exact ⟨hInv.dropLogged, hInv.notLogged, hInv.inLog, hInv.absent, hInv.present, hInv.made_congr hSame⟩
    · obtain rfl := mem_singleton.mp hNew
      refine ⟨hLogged, fun _ e he => ?_, fun hCommitted => ?_, fun hIff => ?_, fun hIff => ?_, fun hWhat _ => ?_⟩
      · rw [hKey]
        exact h.key_notMem_log e he
      · rw [hPhase] at hCommitted
        cases hCommitted
      · exact hDict.mpr (hIff.mpr (by simp [hPhase]))
      · intro hNone
        have hCommitted := hIff.mp (hDict.mp hNone)
        rw [hPhase] at hCommitted
        cases hCommitted
      · obtain ⟨_, hDrop⟩ | ⟨_, hMade⟩ := hRows
        · rw [hWhat] at hDrop
          cases hDrop
        · exact hMade

variable {sess : Nat}

theorem afterCreate (h : Inv names s) (hSep : Separate names) {n : Str} {indexes : List Str} {recordOk : Bool}
    (hDict : s.dict n = none) (hTouch : s.MayTouch sess n)
    (hGuard : Settled names s (.create sess n indexes recordOk)) :
    Inv names (s.afterCreate sess n indexes recordOk) := by
  have hBlank := h.orphan n hGuard.1 hDict hGuard.2
  have hGet := get_createMissing (familiesOf n indexes) s.store.families
  refine h.push hSep ⟨sess, ⟨s.key, .create, n⟩, indexes, recordOk, .running⟩ _ rfl hGuard.1
    (fun c hc => (hTouch c hc).1) (fun _ => hGuard.2) (fun z hz => ?_)
    (Or.inr ⟨hDict, fun z hz rows hRows => ?_, fun z hz => ?_⟩) rfl (by simp [hDict]) (fun hDrop => by cases hDrop)
  · rw [hGet, if_neg fun hIn => hz (takes_of_mem hIn.1)]
  · rw [hGet] at hRows
    split at hRows
    · cases hRows
      rfl
    · exact hBlank z hz rows hRows
  · rw [hGet]
    split
    · exact some_ne_none _
    · rename_i hThere
      exact fun hNone => hThere ⟨hz, hNone⟩

theorem bumpSeq (h : Inv names s) : Inv names { s with seq := s.seq + 1 } :=
  { h with
    live := h.live
    logBound := by
      intro e he
      have hOld := h.logBound e he
      change e.key.boot < s.boot ∨ e.key.boot = s.boot ∧ e.key.seq < s.seq + 1
      omega
    keyBound := fun c hc => ⟨(h.keyBound c hc).1, Nat.lt_succ_of_lt (h.keyBound c hc).2⟩
    change := fun c hc => { h.change c hc with } }

theorem afterDrop (h : Inv names s) (hSep : Separate names) {n : Str} {recordOk : Bool} (hDict : s.dict n ≠ none)
    (hTouch : s.MayTouch sess n) : Inv names (s.afterDrop sess n recordOk) := by
  cases recordOk with
  | false => exact h.bumpSeq
  | true =>
    exact h.push hSep ⟨sess, ⟨s.key, .drop, n⟩, [], true, .running⟩ s.store.families rfl (h.dictNamed n hDict)
      (fun c hc => (hTouch c hc).1) (fun hCreate => by cases hCreate) (fun _ _ => rfl) (Or.inl ⟨rfl, rfl⟩) rfl
      (by simp [hDict]) (fun _ => rfl)

theorem afterInsert (h : Inv names s) (hSep : Separate names) {n : Str} {i : Nat} {indexes : List Str}
    (hDict : s.dict n = some (i, indexes)) : Inv names (s.afterInsert n i indexes) := by
  have hName := h.named_of_dict hDict
  have hGet := get_addRows i (familiesOf n indexes) s.store.families
  have hFamilies : ∀ z, ¬Takes n z → (s.afterInsert n i indexes).store.families.get z = s.store.families.get z := by
    intro z hz
    obtain ⟨added, -, hNil, hSome⟩ := hGet z
    rw [hNil fun hIn => hz (takes_of_mem hIn)] at hSome
    exact hSome.trans (by simp)
  have hOther : ∀ n', names n' = true → s.dict n' = none → ∀ z, Takes n' z →
      (s.afterInsert n i indexes).store.families.get z = s.store.families.get z := by
    intro n' hName' hNone z hz
    refine hSep.same hName hFamilies hName' ?_ hz
    rintro rfl
    cases hDict.symm.trans hNone
  refine { h with live := ?_, orphan := ?_, change := ?_ }
  · intro n' i' indexes' hn' z hz
    obtain ⟨rows, hRows, hAll⟩ := h.live n' i' indexes' hn' z hz
    obtain rfl | hNe := eq_or_ne n' n
    · cases hDict.symm.trans hn'
      obtain ⟨added, hAdded, -, hSome⟩ := hGet z
      rw [hRows] at hSome
      exact ⟨added ++ rows, hSome, fun r hr => (mem_append.mp hr).elim (hAdded r) (hAll r)⟩
    · exact ⟨rows, (hSep.same hName hFamilies (h.named_of_dict hn') hNe (takes_of_mem hz)).trans hRows, hAll⟩
  · intro n' hName' hNone hFree
    exact (h.orphan n' hName' hNone hFree).congr (hOther n' hName' hNone)
  · intro c hc
    have hInv := h.change c hc
    refine { hInv with made := fun hWhat hRun => ?_ }
    have hNone : s.dict c.entry.path = none := hInv.absent (by simp [hWhat, hRun])
    exact hInv.made_congr (hOther _ (h.named c hc) hNone) hWhat hRun

theorem mem_openChanges {c : Change} :
    c ∈ s.openChanges sess ↔ c ∈ s.inflight ∧ c.sess = sess ∧ c.phase = .running := by
  simp [Server.openChanges, mem_filter]

theorem mem_finish {p : Phase} {c : Change} : c ∈ s.finish sess p ↔ ∃ c₀ ∈ s.inflight,
      (c₀ ∈ s.openChanges sess ∧ c = { c₀ with phase := p }) ∨ (c₀ ∉ s.openChanges sess ∧ c = c₀) := by
  simp only [Server.finish, List.mem_map, mem_openChanges]
  refine exists_congr fun c₀ => and_congr_right fun h₀ => ?_
  split
  · rename_i hOpen
    simp only [h₀, hOpen, and_self, not_true_eq_false, true_and, false_and, or_false]
    exact eq_comm
  · rename_i hClosed
    simp only [hClosed, and_false, not_false_eq_true, true_and, false_and, false_or]
    exact eq_comm

theorem map_entry_finish (sess : Nat) (p : Phase) :
    (s.finish sess p).map Change.entry = s.inflight.map Change.entry := by
  rw [Server.finish, List.map_map]
  refine map_congr_left fun c _ => ?_
  rw [comp_apply]
  split
  · rfl
  · rfl

theorem exists_of_mem_finish {p : Phase} {c : Change} (hc : c ∈ s.finish sess p) :
    ∃ c₀ ∈ s.inflight, c₀.entry = c.entry := by
  have hMem := mem_map_of_mem (f := Change.entry) hc
  rw [map_entry_finish] at hMem
  exact mem_map.mp hMem

theorem finish_nodup {β : Type} {f : Entry Str → β} (h : (s.inflight.map fun c => f c.entry).Nodup) (sess : Nat)
    (p : Phase) : ((s.finish sess p).map fun c => f c.entry).Nodup := by
  have hMap := congrArg (List.map f) (map_entry_finish (s := s) sess p)
  rw [List.map_map, List.map_map] at hMap
  exact hMap ▸ h

theorem finish_keyBound (h : Inv names s) {p : Phase} {c : Change} (hc : c ∈ s.finish sess p) :
    c.entry.key.boot = s.boot ∧ c.entry.key.seq < s.seq := by
  obtain ⟨c₀, hc₀, hEntry⟩ := exists_of_mem_finish hc
  exact hEntry ▸ h.keyBound c₀ hc₀

theorem finish_named (h : Inv names s) {p : Phase} {c : Change} (hc : c ∈ s.finish sess p) :
    names c.entry.path = true := by
  obtain ⟨c₀, hc₀, hEntry⟩ := exists_of_mem_finish hc
  exact hEntry ▸ h.named c₀ hc₀

theorem eq_of_path (h : Inv names s) {c c' : Change} (hc : c ∈ s.inflight) (hc' : c' ∈ s.inflight)
    (hPath : c.entry.path = c'.entry.path) : c = c' :=
  inj_on_of_nodup_map h.paths hc hc' hPath

theorem dictAfter_of_mem (h : Inv names s) {c : Change} (hc : c ∈ s.openChanges sess) :
    s.dictAfter sess c.entry.path = if c.entry.what = .create then some (s.incarnation, c.indexes) else none := by
  rw [Server.dictAfter]
  cases hFind : (s.openChanges sess).find? fun c' => c'.entry.path = c.entry.path with
  | none =>
    have hNot := find?_eq_none.mp hFind c hc
    simp at hNot
  | some c' =>
    have hPath : c'.entry.path = c.entry.path := by simpa using find?_some hFind
    have hMem := mem_openChanges.mp (mem_of_find?_eq_some hFind)
    obtain rfl := h.eq_of_path hMem.1 (mem_openChanges.mp hc).1 hPath
    rfl

theorem dictAfter_of_notMem {n : Str} (hn : ∀ c ∈ s.openChanges sess, c.entry.path ≠ n) :
    s.dictAfter sess n = s.dict n := by
  have hFind : ((s.openChanges sess).find? fun c => c.entry.path = n) = none := by
    rw [find?_eq_none]
    intro c hc
    simpa using hn c hc
  rw [Server.dictAfter, hFind]

theorem dictAfter_cases (h : Inv names s) (sess : Nat) (n : Str) : (∃ c ∈ s.openChanges sess, c.entry.path = n ∧
        s.dictAfter sess n = if c.entry.what = .create then some (s.incarnation, c.indexes) else none) ∨
      ((∀ c ∈ s.openChanges sess, c.entry.path ≠ n) ∧ s.dictAfter sess n = s.dict n) := by
  by_cases hOpen : ∃ c ∈ s.openChanges sess, c.entry.path = n
  · obtain ⟨c, hc, rfl⟩ := hOpen
    exact Or.inl ⟨c, hc, rfl, h.dictAfter_of_mem hc⟩
  · have hNone : ∀ c ∈ s.openChanges sess, c.entry.path ≠ n := fun c hc hEq => hOpen ⟨c, hc, hEq⟩
    exact Or.inr ⟨hNone, dictAfter_of_notMem hNone⟩

theorem mem_log_afterCommit {e : Entry Str} : e ∈ (s.afterCommit sess).store.log ↔
      e ∈ s.store.log ∨ ∃ c ∈ s.openChanges sess, c.logged = true ∧ c.entry = e := by
  simp only [Server.afterCommit, mem_append, List.mem_map, mem_filter, and_assoc]

section

variable (h : Inv names s)
include h

theorem changeInv_committed {c : Change} (hOpen : c ∈ s.openChanges sess) :
    ChangeInv (s.afterCommit sess) { c with phase := .committed } := by
  have hAfter := h.dictAfter_of_mem hOpen
  have hInv := h.change c (mem_openChanges.mp hOpen).1
  refine ⟨hInv.dropLogged, fun hPhase => absurd rfl hPhase, fun _ hLogged => ?_, fun hIff => ?_, fun hIff => ?_,
    fun _ hRun => by cases hRun⟩
  · exact mem_log_afterCommit.mpr (Or.inr ⟨c, hOpen, hLogged, rfl⟩)
  · have hNot : c.entry.what ≠ .create := fun hCreate => hIff.mp hCreate rfl
    exact hAfter.trans (if_neg hNot)
  · have hCreate : c.entry.what = .create := hIff.mpr rfl
    intro hNone
    have hSome := hAfter.symm.trans hNone
    rw [if_pos hCreate] at hSome
    cases hSome

theorem changeInv_kept {c : Change} (hc : c ∈ s.inflight) (hClosed : c ∉ s.openChanges sess) :
    ChangeInv (s.afterCommit sess) c := by
  have hInv := h.change c hc
  have hAfter : s.dictAfter sess c.entry.path = s.dict c.entry.path := by
    apply dictAfter_of_notMem
    intro c' hc' hPath
    exact hClosed (h.eq_of_path hc (mem_openChanges.mp hc').1 hPath.symm ▸ hc')
  refine ⟨hInv.dropLogged, fun hPhase e he => ?_, fun hPhase hLogged => ?_,
    fun hIff => hAfter.trans (hInv.absent hIff), fun hIff hNone => hInv.present hIff (hAfter.symm.trans hNone),
    hInv.made⟩
  · obtain hOld | ⟨c', hc', _, rfl⟩ := mem_log_afterCommit.mp he
    · exact hInv.notLogged hPhase e hOld
    · intro hKey
      have hEq : c' = c := inj_on_of_nodup_map h.keys (mem_openChanges.mp hc').1 hc hKey
      exact hClosed (hEq ▸ hc')
  · exact mem_log_afterCommit.mpr (Or.inl (hInv.inLog hPhase hLogged))

theorem afterCommit (sess : Nat) : Inv names (s.afterCommit sess) where
  live := by
    intro n i indexes hn z hz
    obtain ⟨c, hc, rfl, hAfter⟩ | ⟨_, hAfter⟩ := h.dictAfter_cases sess n
    · obtain ⟨hMem, _, hRun⟩ := mem_openChanges.mp hc
      have hSome := hAfter.symm.trans hn
      split at hSome
      · rename_i hCreate
        cases hSome
        obtain ⟨hBlank, hThere⟩ := (h.change c hMem).made hCreate hRun
        obtain ⟨rows, hRows⟩ := ne_none_iff_exists'.mp (hThere z hz)
        obtain rfl := hBlank z (takes_of_mem hz) rows hRows
        exact ⟨[], hRows, nofun⟩
      · cases hSome
    · exact h.live n i indexes (hAfter.symm.trans hn) z hz
  dropped := by
    intro e he hDrop
    have hSame : ∀ c₀ ∈ s.inflight, c₀.entry.path = e.path → c₀.entry.what = .drop := by
      intro c₀ hc₀ hPath
      obtain hOld | ⟨c, hc, _, rfl⟩ := mem_log_afterCommit.mp he
      · exact (h.dropped e hOld hDrop).2 c₀ hc₀ hPath
      · obtain rfl := h.eq_of_path hc₀ (mem_openChanges.mp hc).1 hPath
        exact hDrop
    refine ⟨?_, fun c hc hPath => ?_⟩
    · obtain ⟨c, hc, hPath, hAfter⟩ | ⟨hNone, hAfter⟩ := h.dictAfter_cases sess e.path
      · rw [hSame c (mem_openChanges.mp hc).1 hPath] at hAfter
        exact hAfter
      · obtain hOld | ⟨c, hc, _, rfl⟩ := mem_log_afterCommit.mp he
        · exact hAfter.trans (h.dropped e hOld hDrop).1
        · exact absurd rfl (hNone c hc)
    · obtain ⟨c₀, hc₀, hEntry⟩ := exists_of_mem_finish hc
      rw [← hEntry] at hPath ⊢
      exact hSame c₀ hc₀ hPath
  orphan := by
    intro n hName hNone hFree
    obtain ⟨c, hc, rfl, hAfter⟩ | ⟨_, hAfter⟩ := h.dictAfter_cases sess n
    · have hEnd := hAfter.symm.trans hNone
      cases hWhat : c.entry.what with
      | create => simp [hWhat] at hEnd
      | drop =>
        have hLogged := (h.change c (mem_openChanges.mp hc).1).dropLogged hWhat
        exact absurd rfl (hFree c.entry (mem_log_afterCommit.mpr (Or.inr ⟨c, hc, hLogged, rfl⟩)) hWhat)
    · exact h.orphan n hName (hAfter.symm.trans hNone) fun e he => hFree e (mem_log_afterCommit.mpr (Or.inl he))
  dictNamed := by
    intro n hSome
    obtain ⟨c, hc, rfl, -⟩ | ⟨-, hAfter⟩ := h.dictAfter_cases sess n
    · exact h.named c (mem_openChanges.mp hc).1
    · exact h.dictNamed n fun hNone => hSome (hAfter.trans hNone)
  logNamed := by
    intro e he
    obtain hOld | ⟨c, hc, -, rfl⟩ := mem_log_afterCommit.mp he
    · exact h.logNamed e hOld
    · exact h.named c (mem_openChanges.mp hc).1
  named _ hc := h.finish_named hc
  recoveryLog := fun e he => ⟨mem_log_afterCommit.mpr (Or.inl (h.recoveryLog e he).1), (h.recoveryLog e he).2⟩
  recoveryKeys := h.recoveryKeys
  logKeys := by
    have hKeys : (s.inflight.map fun c => c.entry.key).Nodup := h.keys
    change ((s.store.log ++ ((s.openChanges sess).filter fun c => c.logged).map Change.entry).map Entry.key).Nodup
    rw [map_append, List.map_map]
    refine h.logKeys.append (hKeys.sublist ?_) ?_
    · exact (List.filter_sublist.trans filter_sublist).map _
    · intro k hk hk'
      obtain ⟨e, he, rfl⟩ := List.mem_map.mp hk
      obtain ⟨c, hc, hEq⟩ := List.mem_map.mp hk'
      obtain ⟨hMem, _, hRun⟩ := mem_openChanges.mp (mem_of_mem_filter hc)
      exact (h.change c hMem).notLogged (by simp [hRun]) e he hEq.symm
  logBound := by
    intro e he
    obtain hOld | ⟨c, hc, _, rfl⟩ := mem_log_afterCommit.mp he
    · exact h.logBound e hOld
    · exact Or.inr (h.keyBound c (mem_openChanges.mp hc).1)
  paths := finish_nodup h.paths sess .committed
  keys := finish_nodup h.keys sess .committed
  keyBound _ hc := h.finish_keyBound hc
  change c hc := by
    obtain ⟨c₀, hc₀, ⟨hOpen, rfl⟩ | ⟨hClosed, rfl⟩⟩ := mem_finish.mp hc
    · exact h.changeInv_committed hOpen
    · exact h.changeInv_kept hc₀ hClosed

theorem rollback (sess : Nat) : Inv names { s with inflight := s.finish sess .rolledBack } := by
  refine { h with
    live := h.live
    dropped := ?_
    named := fun _ hc => h.finish_named hc
    paths := finish_nodup h.paths sess .rolledBack
    keys := finish_nodup h.keys sess .rolledBack
    keyBound := fun _ hc => h.finish_keyBound hc
    change := ?_ }
  · intro e he hDrop
    refine ⟨(h.dropped e he hDrop).1, fun c hc hPath => ?_⟩
    obtain ⟨c₀, hc₀, hEntry⟩ := exists_of_mem_finish hc
    rw [← hEntry] at hPath ⊢
    exact (h.dropped e he hDrop).2 c₀ hc₀ hPath
  · intro c hc
    obtain ⟨c₀, hc₀, ⟨hOpen, rfl⟩ | ⟨_, rfl⟩⟩ := mem_finish.mp hc
    · obtain ⟨_, _, hRun⟩ := mem_openChanges.mp hOpen
      have hInv := h.change c₀ hc₀
      refine ⟨hInv.dropLogged, fun _ => hInv.notLogged (by simp [hRun]), fun hPhase => ?_,
        fun hIff => hInv.absent (by simpa [hRun] using hIff), fun hIff => hInv.present (by simpa [hRun] using hIff),
        fun _ hPhase => ?_⟩
      · cases hPhase
      · cases hPhase
    · exact { h.change c hc₀ with }

theorem afterHookRecover (recoverOk : Bool) : Inv names (s.afterHookRecover recoverOk) := by
  cases recoverOk with
  | false =>
    exact { h with
      live := h.live
      recoveryLog := nofun
      recoveryKeys := nodup_nil
      change := fun c hc => { h.change c hc with } }
  | true =>
    refine { h with live := h.live, recoveryLog := ?_, recoveryKeys := ?_, change := fun c hc =>
      { h.change c hc with } }
    · intro e he
      obtain ⟨hMem, hBoot⟩ := mem_filter.mp he
      refine ⟨hMem, ?_⟩
      change e.key.boot ≠ s.boot
      simpa using hBoot
    · exact h.logKeys.sublist (filter_sublist.map _)

theorem afterRestart : Inv names s.afterRestart where
  live := h.live
  dropped := fun e he hDrop => ⟨(h.dropped e he hDrop).1, nofun⟩
  orphan := h.orphan
  dictNamed := h.dictNamed
  logNamed := h.logNamed
  named := nofun
  recoveryLog := nofun
  recoveryKeys := nodup_nil
  logKeys := h.logKeys
  logBound := by
    intro e he
    have hOld := h.logBound e he
    change e.key.boot < s.boot + 1 ∨ e.key.boot = s.boot + 1 ∧ e.key.seq < 0
    omega
  paths := nodup_nil
  keys := nodup_nil
  keyBound := nofun
  change := nofun

theorem resolved (hSep : Separate names) (f : Faults) (e : Entry Str) (v : Bool) (inflight : List Change)
    (recovery : List (Entry Str)) (hNamed : names e.path = true) (hThorough : Thorough f e.key)
    (hInflight : inflight.Sublist s.inflight) (hRecovery : recovery.Sublist s.recovery)
    (hAbsent : decide (e.what = .drop) = v → s.dict e.path = none)
    (hErased : ∀ e' ∈ s.store.log, e'.key = e.key → e'.what = .drop → e'.path = e.path ∧ decide (e.what = .drop) = v)
    (hKeepRecovery : ∀ e' ∈ recovery, e'.key ≠ e.key) (hKeepKey : ∀ c ∈ inflight, c.entry.key ≠ e.key)
    (hKeepRows : ∀ c ∈ inflight, c.entry.what = .create → c.phase = .running → c.entry.path = e.path →
      decide (e.what = .drop) ≠ v) :
    Inv names { s with store := resolve f s.store e v, inflight := inflight, recovery := recovery } where
  live := by
    intro n i indexes hn z hz
    obtain ⟨rows, hGet, hAll⟩ := h.live n i indexes hn z hz
    have hSame := hSep.resolve_same f s.store hNamed (h.named_of_dict hn)
      (fun hEq hVerdict => by cases (hEq ▸ hAbsent hVerdict : s.dict n = none).symm.trans hn) (takes_of_mem hz)
    exact ⟨rows, hSame.trans hGet, hAll⟩
  dropped := by
    intro e' he' hDrop
    obtain ⟨hNone, hOnly⟩ := h.dropped e' (mem_resolve_log f s.store e v he') hDrop
    exact ⟨hNone, fun c hc => hOnly c (hInflight.subset hc)⟩
  orphan := by
    intro n hName hNone hFree z hz rows hGet
    by_cases hOld : ∀ e' ∈ s.store.log, e'.what = .drop → e'.path ≠ n
    · obtain ⟨_, _, hGone⟩ | ⟨_, hSame⟩ := resolve_families f s.store e v z
      · cases hGone.symm.trans hGet
      · exact h.orphan n hName hNone hOld z hz rows (hSame.symm.trans hGet)
    · -- the record of the `DROP` is gone, and with it every family the table had
      push Not at hOld
      obtain ⟨e', he', hDrop, rfl⟩ := hOld
      obtain ⟨hKey, hRemoves⟩ := removes_of_erased f s.store e v he' fun hIn => hFree e' hIn hDrop rfl
      obtain ⟨hPath, hVerdict⟩ := hErased e' he' hKey hDrop
      rw [hPath] at hz
      obtain ⟨_, _, hGone⟩ | ⟨hNot, _⟩ := resolve_families f s.store e v z
      · cases hGone.symm.trans hGet
      · exact absurd ⟨hRemoves hVerdict, drops_of_thorough hThorough hz⟩ hNot
  dictNamed := h.dictNamed
  logNamed := fun e' he' => h.logNamed e' (mem_resolve_log f s.store e v he')
  named := fun c hc => h.named c (hInflight.subset hc)
  recoveryLog := by
    intro e' he'
    obtain ⟨hLog, hBoot⟩ := h.recoveryLog e' (hRecovery.subset he')
    exact ⟨mem_resolve_log_of_ne f s.store e v (hKeepRecovery e' he') hLog, hBoot⟩
  recoveryKeys := h.recoveryKeys.sublist (hRecovery.map _)
  logKeys := h.logKeys.sublist ((resolve_log_sublist f s.store e v).map _)
  logBound := fun e' he' => h.logBound e' (mem_resolve_log f s.store e v he')
  paths := h.paths.sublist (hInflight.map _)
  keys := h.keys.sublist (hInflight.map _)
  keyBound := fun c hc => h.keyBound c (hInflight.subset hc)
  change := by
    intro c hc
    have hInv := h.change c (hInflight.subset hc)
    refine ⟨hInv.dropLogged, fun hPhase e' he' => hInv.notLogged hPhase e' (mem_resolve_log f s.store e v he'),
      fun hPhase hLogged => mem_resolve_log_of_ne f s.store e v (hKeepKey c hc) (hInv.inLog hPhase hLogged),
      hInv.absent, hInv.present, fun hWhat hRun => ?_⟩
    have hSame := fun z => hSep.resolve_same f s.store hNamed (h.named c (hInflight.subset hc))
      (hKeepRows c hc hWhat hRun) (z := z)
    exact hInv.made_congr hSame hWhat hRun

theorem eq_of_logKey {e e' : Entry Str} (he : e ∈ s.store.log) (he' : e' ∈ s.store.log) (hKey : e.key = e'.key) :
    e = e' :=
  inj_on_of_nodup_map h.logKeys he he' hKey

theorem afterRecoverNext (hSep : Separate names) {f : Faults} {e : Entry Str} {rest : List (Entry Str)}
    (hRecovery : s.recovery = e :: rest) (hThorough : Thorough f e.key) :
    Inv names (s.afterRecoverNext f e rest) := by
  obtain ⟨hLog, hBoot⟩ := h.recoveryLog e (hRecovery ▸ mem_cons_self)
  have hKeys := h.recoveryKeys
  rw [hRecovery, map_cons, nodup_cons] at hKeys
  refine h.resolved hSep f e true s.inflight rest (h.logNamed e hLog) hThorough (Sublist.refl _)
    (hRecovery ▸ sublist_cons_self e rest) (fun hDrop => ?_) (fun e' he' hKey hDrop => ?_) (fun e' he' hKey => ?_)
    (fun c hc hKey => ?_) (fun c hc hCreate _ hPath hDrop => ?_)
  · exact (h.dropped e hLog (by simpa using hDrop)).1
  · obtain rfl := h.eq_of_logKey he' hLog hKey
    exact ⟨rfl, by simpa using hDrop⟩
  · exact hKeys.1 (hKey ▸ mem_map_of_mem he')
  · exact hBoot (hKey ▸ (h.keyBound c hc).1)
  · have hWhat := (h.dropped e hLog (by simpa using hDrop)).2 c hc hPath
    rw [hCreate] at hWhat
    cases hWhat

end

theorem recordSurvived_own (h : Inv names s) (f : Faults) {c : Change} (hc : c ∈ s.inflight)
    (hLogged : c.logged = true) (hOk : Looked f c.entry.key) :
    recordSurvived f s.store.log c.entry.key = true ↔ c.phase = .committed := by
  refine (recordSurvived_eq_true_iff f _ _).trans ((and_iff_right hOk).trans ?_)
  constructor
  · rintro ⟨e, he, hKey⟩
    by_contra hPhase
    exact (h.change c hc).notLogged hPhase e he hKey
  · intro hPhase
    exact ⟨c.entry, (h.change c hc).inLog hPhase hLogged, rfl⟩

theorem own_removes_iff (h : Inv names s) (f : Faults) {c : Change} (hc : c ∈ s.inflight)
    (hLogged : c.logged = true) (hOk : Looked f c.entry.key) :
    decide (c.entry.what = .drop) = recordSurvived f s.store.log c.entry.key ↔
      (c.entry.what = .create ↔ c.phase ≠ .committed) := by
  rw [Bool.eq_iff_iff, h.recordSurvived_own f hc hLogged hOk, decide_eq_true_iff]
  cases c.entry.what with
  | drop | create => simp

theorem afterHookOwn (h : Inv names s) (hSep : Separate names) (f : Faults) {c : Change} (hc : c ∈ s.inflight)
    (hOk : Looked f c.entry.key) (hThorough : Thorough f c.entry.key) : Inv names (s.afterHookOwn f c) := by
  have hKeepKey : ∀ c' ∈ s.inflight.filter fun c' => c'.entry.key ≠ c.entry.key, c'.entry.key ≠ c.entry.key := by
    intro c' hc'
    simpa using (mem_filter.mp hc').2
  cases hLogged : c.logged with
  | false =>
    have hStore : s.afterHookOwn f c =
        { s with inflight := s.inflight.filter fun c' => c'.entry.key ≠ c.entry.key } := by
      simp [Server.afterHookOwn, hLogged]
    rw [hStore]
    refine { h with live := h.live, dropped := ?_, named := ?_, paths := ?_, keys := ?_, keyBound := ?_, change := ?_ }
    · intro e he hDrop
      exact ⟨(h.dropped e he hDrop).1, fun c' hc' => (h.dropped e he hDrop).2 c' (mem_of_mem_filter hc')⟩
    · exact fun c' hc' => h.named c' (mem_of_mem_filter hc')
    · exact h.paths.sublist (filter_sublist.map _)
    · exact h.keys.sublist (filter_sublist.map _)
    · exact fun c' hc' => h.keyBound c' (mem_of_mem_filter hc')
    · exact fun c' hc' => { h.change c' (mem_of_mem_filter hc') with }
  | true =>
    have hStore : s.afterHookOwn f c = { s with
        store := resolve f s.store c.entry (recordSurvived f s.store.log c.entry.key)
        inflight := s.inflight.filter fun c' => c'.entry.key ≠ c.entry.key
        recovery := s.recovery } := by
      simp [Server.afterHookOwn, hLogged]
    rw [hStore]
    refine h.resolved hSep f c.entry _ _ s.recovery (h.named c hc) hThorough filter_sublist (Sublist.refl _)
      (fun hRemove => ?_) (fun e' he' hKey hDrop => ?_) (fun e' he' hKey => ?_) hKeepKey (fun c' hc' _ _ hPath => ?_)
    · exact (h.change c hc).absent ((h.own_removes_iff f hc hLogged hOk).mp hRemove)
    · have hPhase : c.phase = .committed := by
        by_contra hPhase
        exact (h.change c hc).notLogged hPhase e' he' hKey
      obtain rfl := h.eq_of_logKey he' ((h.change c hc).inLog hPhase hLogged) hKey
      exact ⟨rfl, (h.own_removes_iff f hc hLogged hOk).mpr (by simp [hDrop, hPhase])⟩
    · exact (h.recoveryLog e' he').2 (hKey ▸ (h.keyBound c hc).1)
    · obtain rfl := h.eq_of_path (mem_of_mem_filter hc') hc hPath
      exact absurd rfl (hKeepKey c' hc')

theorem step (h : Inv names s) (hSep : Separate names) {a : Action} {s' : Server} (hGuard : Settled names s a)
    (hStep : s.step a = some s') : Inv names s' := by
  cases a with
  | create sess n indexes recordOk =>
    rw [Server.step] at hStep
    split at hStep
    · rename_i hCond
      cases hStep
      exact h.afterCreate hSep hCond.1 hCond.2 hGuard
    · cases hStep
  | drop sess n recordOk =>
    rw [Server.step] at hStep
    split at hStep
    · rename_i hCond
      cases hStep
      exact h.afterDrop hSep hCond.1 hCond.2
    · cases hStep
  | insert n =>
    rw [Server.step] at hStep
    split at hStep
    · cases hStep
    · rename_i i indexes hDict
      split at hStep
      · cases hStep
        exact h.afterInsert hSep hDict
      · cases hStep
  | commit sess =>
    cases hStep
    exact h.afterCommit sess
  | rollback sess =>
    cases hStep
    exact h.rollback sess
  | hookRecover recoverOk =>
    rw [Server.step] at hStep
    split at hStep
    · cases hStep
    · cases hStep
      exact h.afterHookRecover recoverOk
  | recoverNext f =>
    rw [Server.step] at hStep
    split at hStep
    · cases hStep
    · rename_i e rest hRecovery
      cases hStep
      exact h.afterRecoverNext hSep hRecovery (hGuard e (by rw [hRecovery]; rfl))
  | hookOwn k f =>
    obtain ⟨c, hc, rfl, _, rfl⟩ := step_hookOwn hStep
    exact h.afterHookOwn hSep f hc hGuard.1 hGuard.2
  | restart =>
    cases hStep
    exact h.afterRestart

theorem init : Inv names Server.init where
  live := fun n i indexes hn => by cases hn
  dropped := nofun
  orphan := fun n _ _ _ z _ rows hGet => by cases hGet
  dictNamed := fun n hn => absurd rfl hn
  logNamed := nofun
  named := nofun
  recoveryLog := nofun
  recoveryKeys := nodup_nil
  logKeys := nodup_nil
  logBound := nofun
  paths := nodup_nil
  keys := nodup_nil
  keyBound := nofun
  change := nofun

theorem hook_frame (h : Inv names s) (hSep : Separate names) {a : Action} {s' : Server} (hHook : IsHook a)
    (hGuard : Settled names s a) (hStep : s.step a = some s') (n : Str) (hn : s.dict n ≠ none) (z : Str)
    (hz : Takes n z) : s'.store.families.get z = s.store.families.get z := by
  have hName := h.dictNamed n hn
  cases a with
  | hookRecover recoverOk =>
    rw [Server.step] at hStep
    split at hStep
    · cases hStep
    · cases hStep
      rfl
  | recoverNext f =>
    rw [Server.step] at hStep
    split at hStep
    · cases hStep
    · rename_i e rest hRecovery
      cases hStep
      have hLog := (h.recoveryLog e (hRecovery ▸ mem_cons_self)).1
      refine hSep.resolve_same f s.store (h.logNamed e hLog) hName (fun hEq hDrop => hn ?_) hz
      rw [hEq]
      exact (h.dropped e hLog (by simpa using hDrop)).1
  | hookOwn k f =>
    obtain ⟨c, hc, rfl, _, rfl⟩ := step_hookOwn hStep
    cases hLogged : c.logged with
    | false => simp [Server.afterHookOwn, hLogged]
    | true =>
      have hStore : (s.afterHookOwn f c).store =
          resolve f s.store c.entry (recordSurvived f s.store.log c.entry.key) := by
        simp [Server.afterHookOwn, hLogged]
      rw [hStore]
      refine hSep.resolve_same f s.store (h.named c hc) hName (fun hEq hRemoves => hn ?_) hz
      rw [hEq]
      exact (h.change c hc).absent ((h.own_removes_iff f hc hLogged hGuard.1).mp hRemoves)
  | create sess n indexes recordOk | drop sess n recordOk | insert n | commit sess => exact absurd hHook not_false
  | rollback sess | restart => exact absurd hHook not_false

end Inv

theorem inv_of_reach {names : Str → Bool} (hSep : Separate names) {s : Server}
    (h : Reach Server.step (Settled names) Server.init s) : Inv names s :=
  h.invariant (Inv names) Inv.init fun _ _ _ hInv hGuard hStep => hInv.step hSep hGuard hStep

/-- In every run in which a name is created again only after the records of its `DROP` are gone, and in which no two
tables can share a family, the tables of the dictionary keep their families, with their own rows. -/
theorem ddl_log_safe (names : Str → Bool) (hSep : Separate names) (s : Server)
    (h : Reach Server.step (Settled names) Server.init s) :
    Safe s ∧ ∀ a s', IsHook a → Settled names s a → s.step a = some s' → ∀ n, s.dict n ≠ none → ∀ z, Takes n z →
      s'.store.families.get z = s.store.families.get z := by
  have hInv := inv_of_reach hSep h
  exact ⟨hInv.live, fun a s' hHook hGuard hStep => hInv.hook_frame hSep hHook hGuard hStep⟩

section Hook

/-- The dictionary is the same, and its tables have the families they had. -/
def Kept (s s' : Server) : Prop :=
  s'.dict = s.dict ∧ ∀ n, s.dict n ≠ none → ∀ z, Takes n z → s'.store.families.get z = s.store.families.get z

theorem Kept.trans {s s' s'' : Server} (h : Kept s s') (h' : Kept s' s'') : Kept s s'' :=
  ⟨h'.1.trans h.1, fun n hn z hz => (h'.2 n (h.1 ▸ hn) z hz).trans (h.2 n hn z hz)⟩

/-- A change whose statement is over and whose record the hook has to resolve. -/
structure Finished (s : Server) (c : Change) : Prop where
  pending : c ∈ s.inflight
  ended : c.phase ≠ .running
  logged : c.logged = true

variable {names : Str → Bool} (hSep : Separate names) {f : Faults} (hCalls : ∀ k, Looked f k ∧ Thorough f k)
include hSep hCalls

theorem reach_recoverNext {s : Server} (h : Reach Server.step (Settled names) Server.init s) :
    let s' := { s with store := resolveAll f (fun _ _ => true) s.recovery s.store, recovery := [] }
    Reach Server.step (Settled names) Server.init s' ∧ Kept s s' := by
  generalize hRecovery : s.recovery = es
  induction es generalizing s with
  | nil =>
    have hSame : { s with store := resolveAll f (fun _ _ => true) [] s.store, recovery := [] } = s := by
      obtain ⟨store, dict, inflight, recovery⟩ := s
      cases hRecovery
      rfl
    rw [hSame]
    exact ⟨h, rfl, fun _ _ _ _ => rfl⟩
  | cons e es ih =>
    have hStep : s.step (.recoverNext f) = some (s.afterRecoverNext f e es) := by
      rw [Server.step, hRecovery]
    have hGuard : Settled names s (.recoverNext f) := fun e _ => (hCalls e.key).2
    have hFrame := (inv_of_reach hSep h).hook_frame hSep (show IsHook (.recoverNext f) from trivial) hGuard hStep
    have hKept : Kept s (s.afterRecoverNext f e es) := ⟨rfl, hFrame⟩
    obtain ⟨hReach, hRest⟩ := ih (h.step _ hGuard hStep) rfl
    exact ⟨hReach, hKept.trans hRest⟩

theorem reach_hookOwn {cs : List Change} (hKeys : (cs.map fun c => c.entry.key).Nodup) {s : Server}
    (h : Reach Server.step (Settled names) Server.init s) (hOwn : ∀ c ∈ cs, Finished s c) :
    ∃ s', Reach Server.step (Settled names) Server.init s' ∧ Kept s s' ∧
      s'.store = resolveAll f (recordSurvived f) (cs.map Change.entry) s.store := by
  induction cs generalizing s with
  | nil => exact ⟨s, h, ⟨rfl, fun _ _ _ _ => rfl⟩, rfl⟩
  | cons c cs ih =>
    obtain ⟨hHead, hTail⟩ := nodup_cons.mp hKeys
    have hInv := inv_of_reach hSep h
    have hc := hOwn c mem_cons_self
    -- the keys of the pending changes differ, so that the one found by the key is the change itself
    have hFind : s.inflight.find? (fun c' => c'.entry.key = c.entry.key) = some c := by
      cases hFound : s.inflight.find? fun c' => c'.entry.key = c.entry.key with
      | none => simpa using find?_eq_none.mp hFound c hc.pending
      | some c' =>
        have hKey : c'.entry.key = c.entry.key := by simpa using find?_some hFound
        rw [inj_on_of_nodup_map hInv.keys (mem_of_find?_eq_some hFound) hc.pending hKey]
    have hStep : s.step (.hookOwn c.entry.key f) = some (s.afterHookOwn f c) := by
      simp only [Server.step, hFind, if_pos hc.ended]
    have hGuard : Settled names s (.hookOwn c.entry.key f) := hCalls c.entry.key
    have hFrame := hInv.hook_frame hSep (show IsHook (.hookOwn c.entry.key f) from trivial) hGuard hStep
    have hRest : ∀ c' ∈ cs, Finished (s.afterHookOwn f c) c' := by
      intro c' hc'
      obtain ⟨hPending, hEnded, hLogged⟩ := hOwn c' (mem_cons_of_mem c hc')
      refine ⟨mem_filter.mpr ⟨hPending, ?_⟩, hEnded, hLogged⟩
      exact decide_eq_true fun hEq => hHead (mem_map.mpr ⟨c', hc', hEq⟩)
    have hKept : Kept s (s.afterHookOwn f c) := ⟨rfl, hFrame⟩
    obtain ⟨s', hReach, hKept', hStore⟩ := ih hTail (h.step _ hGuard hStep) hRest
    refine ⟨s', hReach, hKept.trans hKept', ?_⟩
    rw [hStore, Server.afterHookOwn, if_pos hc.logged]
    rfl

omit hSep hCalls in
/-- A whole call of the hook is made of the steps of the runs above: it ends in a state of such a run, and the tables of
the dictionary keep their families over it. -/
theorem postDdl_keeps_tables (names : Str → Bool) (hSep : Separate names) (f : Faults)
    (hCalls : ∀ k, Looked f k ∧ Thorough f k) (s : Server) (h : Reach Server.step (Settled names) Server.init s)
    (cs : List Change) (hKeys : (cs.map fun c => c.entry.key).Nodup) (hOwn : ∀ c ∈ cs, Finished s c) :
    ∃ s', Reach Server.step (Settled names) Server.init s' ∧ Kept s s' ∧ Safe s' ∧
      s'.store = postDdl f s.boot s.recovered (cs.map Change.entry) s.store := by
  rw [postDdl]
  cases hRecovered : s.recovered with
  | true =>
    obtain ⟨s', hReach, hKept, hStore⟩ := reach_hookOwn hSep hCalls hKeys h hOwn
    exact ⟨s', hReach, hKept, (inv_of_reach hSep hReach).live, hStore⟩
  | false =>
    have hStep : s.step (.hookRecover f.recoverOk) = some (s.afterHookRecover f.recoverOk) := by
      rw [Server.step, if_neg (by simp [hRecovered])]
    have hGuard : Settled names s (.hookRecover f.recoverOk) := trivial
    obtain ⟨hSwept, hKept⟩ := reach_recoverNext hSep hCalls (h.step _ hGuard hStep)
    obtain ⟨s', hReach, hKept', hStore⟩ :=
      reach_hookOwn hSep hCalls hKeys hSwept fun c hc => ⟨(hOwn c hc).pending, (hOwn c hc).ended, (hOwn c hc).logged⟩
    refine ⟨s', hReach, Kept.trans ⟨hKept.1, hKept.2⟩ hKept', (inv_of_reach hSep hReach).live, hStore.trans ?_⟩
    rw [if_neg Bool.false_ne_true, recover, Server.afterHookRecover]
    split <;> rfl

end Hook

instance (names : Str → Bool) (s : Server) (a : Action) : Decidable (Settled names s a) :=
  match a with
  | .create _ n _ _ =>
    inferInstanceAs (Decidable (names n = true ∧ ∀ e ∈ s.store.log, e.what = .drop → e.path ≠ n))
  | .recoverNext f =>
    inferInstanceAs (Decidable (∀ e ∈ s.recovery.head?, f.listOk e.key = true ∧ f.indexFails e.key = []))
  | .hookOwn k f => inferInstanceAs (Decidable
      ((f.openOk k = true ∧ f.beginOk k = true ∧ f.getOk k = true) ∧ f.listOk k = true ∧ f.indexFails k = []))
  | .drop .. | .insert .. | .commit .. | .rollback .. | .hookRecover .. | .restart => .isTrue trivial

section Samples

def sampleNames (p : Str) : Bool := decide (p = pathT) || decide (p = pathU)

theorem separate_samples : Separate sampleNames := by
  intro p q hp hq hNe
  simp only [sampleNames, Bool.or_eq_true, decide_eq_true_eq] at hp hq
  obtain rfl | rfl := hp
  · obtain rfl | rfl := hq
    · exact absurd rfl hNe
    · exact apart_samples
  · obtain rfl | rfl := hq
    · exact apart_samples.symm
    · exact absurd rfl hNe

def indexK : Str := "k".toList

/-- A table named like an index of `t`. -/
def pathTK : Str := "./d/t__idx_k".toList

/-- `t` is dropped with a row in it, and the server stops before the hook. -/
def droppedBeforeHook : List Action :=
  [.create 0 pathT [indexK] true, .create 1 pathU [indexK] true, .commit 0, .commit 1, .hookOwn ⟨1, 0⟩ allOk,
    .insert pathT, .insert pathU, .drop 0 pathT true, .commit 0, .restart]

/-- The first hook cannot remove the data family, the one of the next run can. -/
def sweepAndCreate : List Action :=
  [.hookRecover true, .recoverNext allOk, .recoverNext { allOk with removeOk := fun _ => false }, .restart,
    .hookRecover true, .recoverNext allOk, .create 0 pathT [indexK] true, .commit 0, .insert pathT,
    .hookOwn ⟨3, 0⟩ allOk]

theorem ddl_log_safe_after_sweep : ∃ s : Server, guardedRun Server.step (Settled sampleNames) Server.init
    (droppedBeforeHook ++ sweepAndCreate) = some s ∧ Safe s ∧
      ∀ a s', IsHook a → Settled sampleNames s a → s.step a = some s' → ∀ n, s.dict n ≠ none → ∀ z, Takes n z →
        s'.store.families.get z = s.store.families.get z := by
  obtain ⟨s, hs⟩ := Option.isSome_iff_exists.mp (show (guardedRun Server.step (Settled sampleNames) Server.init
    (droppedBeforeHook ++ sweepAndCreate)).isSome = true by decide)
  exact ⟨s, hs, ddl_log_safe sampleNames separate_samples s (reach_of_guardedRun _ .init hs)⟩

/-- The hook of a rolled back `DROP` of `u` finishes the `DROP` of `t` that the server run before left. -/
theorem postDdl_keeps_tables_rolled_back : ∃ s s' c, guardedRun Server.step (Settled sampleNames) Server.init
    (droppedBeforeHook ++ [.drop 0 pathU true, .rollback 0]) = some s ∧ s.inflight = [c] ∧
      (Reach Server.step (Settled sampleNames) Server.init s' ∧ Kept s s' ∧ Safe s' ∧
        s'.store = postDdl allOk s.boot s.recovered [c.entry] s.store) ∧
      s.store.families.get (toCfName pathT) = some [0] ∧ s'.store.families.get (toCfName pathT) = none ∧
      s'.store.families.get (toCfName pathU) = some [1] := by
  obtain ⟨s, hRun⟩ := Option.isSome_iff_exists.mp (show (guardedRun Server.step (Settled sampleNames) Server.init
    (droppedBeforeHook ++ [.drop 0 pathU true, .rollback 0])).isSome = true by decide)
  have hReach : Reach Server.step (Settled sampleNames) Server.init s := reach_of_guardedRun _ .init hRun
  cases hRun
  obtain ⟨s', h⟩ := postDdl_keeps_tables sampleNames separate_samples allOk
    (fun _ => ⟨⟨rfl, rfl, rfl⟩, rfl, rfl⟩) _ hReach [⟨0, ⟨⟨2, 0⟩, .drop, pathU⟩, [], true, .rolledBack⟩]
    (nodup_singleton _) fun c hc => by
      cases mem_singleton.mp hc
      exact ⟨mem_cons_self, by decide, rfl⟩
  refine ⟨_, s', _, rfl, rfl, h, by decide, ?_, ?_⟩
  · rw [h.2.2.2]
    decide
  · rw [h.2.2.2]
    decide

/-- Created again before the first hook of the new server run, `t` shows the old row, and the hook then removes the
families of the live table. An index family that could not be removed comes back with the old entries. The removal of
`t` takes a table named like one of its indexes. -/
theorem recreated_table_inherits_and_loses_rows :
    (∃ s s' : Server,
      run Server.step Server.init (droppedBeforeHook ++ [.create 0 pathT [indexK] true, .commit 0]) = some s ∧
      ¬Safe s ∧ run Server.step s [.hookRecover true, .recoverNext allOk, .recoverNext allOk] = some s' ∧
      s'.dict pathT ≠ none ∧ s.store.families.get (toCfName pathT) = some [0] ∧
      s'.store.families.get (toCfName pathT) = none) ∧
    (∃ s : Server, run Server.step Server.init
        [.create 0 pathT [indexK] true, .commit 0, .hookOwn ⟨1, 0⟩ allOk, .insert pathT, .drop 0 pathT true, .commit 0,
          .hookOwn ⟨1, 1⟩ { allOk with indexFails := fun _ => [idxCfName (toCfName pathT) indexK] },
          .create 0 pathT [indexK] true, .commit 0] = some s ∧
      s.store.log.all (fun e => decide (e.what = .create)) = true ∧ s.dict pathT = some (2, [indexK]) ∧
      s.store.families.get (idxCfName (toCfName pathT) indexK) = some [0]) ∧
    ∃ s : Server, run Server.step Server.init
        [.create 0 pathT [] true, .create 0 pathTK [] true, .commit 0, .hookOwn ⟨1, 0⟩ allOk, .insert pathTK,
          .drop 1 pathT true, .commit 1, .hookOwn ⟨1, 2⟩ allOk] = some s ∧
      s.dict pathTK ≠ none ∧ s.store.families.get (toCfName pathTK) = none := by
  refine ⟨⟨_, _, rfl, fun hSafe => ?_, rfl, by decide, by decide, by decide⟩,
    ⟨_, rfl, by decide, by decide, by decide⟩, _, rfl, by decide, by decide⟩
  obtain ⟨rows, hGet, hAll⟩ := hSafe pathT 3 [indexK] (by decide) (toCfName pathT) mem_cons_self
  obtain rfl : [0] = rows := some.inj hGet
  exact absurd (hAll 0 (mem_singleton_self 0)) (by decide)

end Samples

end TideSql.DdlRuns
