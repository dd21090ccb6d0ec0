import TideSql.Handler.WriteErrors

/-!
# A bulk delete and its range tombstone

The handler that runs a multi-row `DELETE` holds the tombstones of the rows back.
-/

namespace TideSql.BulkDelete
open WriteErrors SortKey Lib Lib.Bytes Lib.ByteOrder Lib.Run List Function Bool Prod

def tidesdbBulkDeleteMinRange : Nat := 64

structure Bulk where
  deferring : Bool
  keys : List Bytes
  rows : Nat
  minPk : Bytes
  maxPk : Bytes

def startBulkDelete (hasUserPk triggers : Bool) : Bulk := ⟨hasUserPk && !triggers, [], 0, [], []⟩

def Bulk.track (b : Bulk) (compactAfter : Bool) (key : Bytes) : Bulk :=
  if b.deferring || compactAfter then
    if b.rows = 0 then { b with minPk := key, maxPk := key, rows := b.rows + 1 }
    else
      { b with
        minPk := if key < b.minPk then key else b.minPk
        maxPk := if b.maxPk < key then key else b.maxPk
        rows := b.rows + 1 }
  else b

/-- The last byte below `0xff` is incremented and the rest dropped. -/
def dataKeySuccessor : Bytes → Option Bytes
  | [] => none
  | b :: bs =>
    match dataKeySuccessor bs with
    | some hi => some (b :: hi)
    | none => if b = 0xff then none else some [b + 1]

def rirPrefixSuccessor (in_ : Bytes) : Option Bytes := dataKeySuccessor in_

def inSpan (lo hi key : Bytes) : Prop := lo ≤ key ∧ key < hi

instance instDecidableInSpan (lo hi key : Bytes) : Decidable (inSpan lo hi key) :=
  inferInstanceAs (Decidable (lo ≤ key ∧ key < hi))

/-- The upper end of the range tombstone, where one is written: `counted` is what `count_live_data_keys` finds, if
it succeeds. -/
def rangeEnd (b : Bulk) (counted : Option Nat) (rangeOk : Bool) : Option Bytes :=
  if tidesdbBulkDeleteMinRange ≤ b.keys.length ∧ b.minPk ≠ [] ∧ b.maxPk ≠ [] then
    match dataKeySuccessor b.maxPk with
    | some hi => if counted = some b.keys.length ∧ rangeOk then some hi else none
    | none => none
  else none

def endBulkDelete (b : Bulk) (live : Finset Bytes) (counted : Option Nat) (rangeOk : Bool) : Finset Bytes :=
  if b.deferring ∧ b.keys ≠ [] then
    match rangeEnd b counted rangeOk with
    | some hi => live.filter fun key => ¬inSpan b.minPk hi key
    | none => live \ b.keys.toFinset
  else live

structure State (η : Type) where
  live : Finset Bytes
  bulk : Bulk
  current : η → Bytes
  stack : List (η × Bytes)
  /-- The rows that `delete_row` was called on. -/
  called : List Bytes
  /-- The rows whose time to live has run out during the statement. -/
  expired : List Bytes
  finished : Bool

inductive Action (η : Type) where
  | enter (h : η) (key : Bytes)
  | leave
  | expire (key : Bytes)
  | finish (counted : Option Nat) (rangeOk : Bool)

section Model

variable {η : Type} [DecidableEq η] (self : η) (compactAfter : Bool)

def removeRow (s : State η) (h : η) : State η :=
  let key := s.current h
  if h = self then
    let b := s.bulk.track compactAfter key
    if b.deferring then
      let keys := b.keys ++ [key]
      if tidesdbBulkDeleteDeferCap ≤ keys.length then
        { s with live := s.live \ keys.toFinset, bulk := { b with deferring := false, keys := [] } }
      else { s with bulk := { b with keys := keys } }
    else { s with live := s.live.erase key, bulk := b }
  else { s with live := s.live.erase key }

/-- The statement reads through its own handler, a referential action through any. -/
def step (s : State η) : Action η → Option (State η)
  | .enter h key =>
    if s.finished = false ∧ key ∈ s.live ∧ (s.stack = [] → h = self) then
      some { s with
        current := update s.current h key, stack := (h, key) :: s.stack, called := s.called ++ [key] }
    else none
  | .leave =>
    match s.stack with
    | [] => none
    | (h, _) :: stack => some (removeRow self compactAfter { s with stack := stack } h)
  | .expire key =>
    if s.finished = false ∧ key ∈ s.live then
      some { s with live := s.live.erase key, expired := s.expired ++ [key] }
    else none
  | .finish counted rangeOk =>
    if s.finished = false ∧ s.stack = [] then
      some { s with live := endBulkDelete s.bulk s.live counted rangeOk, finished := true }
    else none

def init (live : Finset Bytes) (hasUserPk triggers : Bool) : State η :=
  ⟨live, startBulkDelete hasUserPk triggers, fun _ => [], [], [], [], false⟩

/-- The iterator that counts the rows of the span yields at least the rows of it. -/
def Counts (s : State η) : Action η → Prop
  | .finish (some n) _ => ∀ hi, dataKeySuccessor s.bulk.maxPk = some hi →
    (s.live.filter fun key => inSpan s.bulk.minPk hi key).card ≤ n
  | _ => True

/-- `delete_row` is called on no row twice, and on no handler that is in the middle of a call, and a row it was
called on does not expire. -/
def Once (s : State η) : Action η → Prop
  | .enter h key => key ∉ s.called ∧ h ∉ s.stack.map fst
  | .expire key => key ∉ s.called
  | _ => True

/-- The rows gone are those that `delete_row` was called on and those that have expired. -/
def Exact (live : Finset Bytes) (s : State η) : Prop :=
  s.finished = true → s.live = live \ (s.called ++ s.expired).toFinset

end Model

section Span

theorem dataKeySuccessor_eq_none_iff (key : Bytes) : dataKeySuccessor key = none ↔ ∀ b ∈ key, b = 0xff := by
  induction key with
  | nil => simp [dataKeySuccessor]
  | cons b bs ih =>
    rw [dataKeySuccessor, forall_mem_cons, ← ih]
    cases dataKeySuccessor bs with
    | some hi => simp
    | none => simp

theorem cons_below_iff {b c : UInt8} {bs cs : Bytes} :
    (c :: cs < b :: bs ∨ b :: bs <+: c :: cs) ↔ c < b ∨ c = b ∧ (cs < bs ∨ bs <+: cs) := by
  rw [cons_lt_cons_iff, cons_prefix_cons, eq_comm (a := b)]
  tauto

theorem below_of_none {key : Bytes} (h : dataKeySuccessor key = none) (x : Bytes) : x < key ∨ key <+: x := by
  rw [dataKeySuccessor_eq_none_iff] at h
  induction key generalizing x with
  | nil => exact .inr nil_prefix
  | cons b bs ih =>
    cases x with
    | nil => exact .inl (nil_lt_cons b bs)
    | cons c cs =>
      obtain ⟨hb, hbs⟩ := forall_mem_cons.mp h
      have hLe : c ≤ b := hb ▸ UInt8.le_iff_toNat_le.mpr (Nat.le_of_lt_succ c.toNat_lt)
      rw [cons_below_iff]
      exact (lt_or_eq_of_le hLe).imp_right fun hEq => ⟨hEq, ih hbs cs⟩

theorem lt_succ_iff {b : UInt8} (hb : b ≠ 0xff) (c : UInt8) : c < b + 1 ↔ c ≤ b := by
  have hLt := b.toNat_lt
  have hNe : b.toNat ≠ 255 := fun hEq => hb (UInt8.toNat_inj.mp hEq)
  rw [UInt8.lt_iff_toNat_lt, UInt8.le_iff_toNat_le, UInt8.toNat_add]
  simp only [UInt8.reduceToNat]
  omega

theorem lt_dataKeySuccessor_iff {key hi : Bytes} (h : dataKeySuccessor key = some hi) (x : Bytes) :
    x < hi ↔ x < key ∨ key <+: x := by
  induction key generalizing hi x with
  | nil => cases h
  | cons b bs ih =>
    rw [dataKeySuccessor] at h
    split at h
    · rename_i hi' hRest
      cases h
      cases x with
      | nil => exact iff_of_true (nil_lt_cons b hi') (.inl (nil_lt_cons b bs))
      | cons c cs => rw [cons_below_iff, cons_lt_cons_iff, ih hRest]
    · rename_i hRest
      split at h
      · cases h
      · rename_i hByte
        cases h
        cases x with
        | nil => exact iff_of_true (nil_lt_cons ..) (.inl (nil_lt_cons b bs))
        | cons c cs =>
          rw [cons_below_iff, cons_lt_cons_iff, lt_succ_iff hByte, or_iff_left fun hLt => not_lt_nil cs hLt.2,
            and_iff_left (below_of_none hRest cs), le_iff_lt_or_eq]

structure SuccessorRight (successor : Bytes → Option Bytes) : Prop where
  none_iff : ∀ key, key ≠ [] → (successor key = none ↔ ∀ b ∈ key, b = 0xff)
  above : ∀ key hi, key ≠ [] → successor key = some hi → ∀ x, key <+: x → x < hi
  least : ∀ key hi, key ≠ [] → successor key = some hi → ∀ y, (∀ x, key <+: x → x < y) → hi ≤ y
  range : ∀ key hi, key ≠ [] → successor key = some hi → ∀ x, inSpan key hi x ↔ key <+: x

theorem successorRight_dataKeySuccessor : SuccessorRight dataKeySuccessor where
  none_iff key _ := dataKeySuccessor_eq_none_iff key
  above key hi _ h x hx := (lt_dataKeySuccessor_iff h x).mpr (.inr hx)
  least key hi _ h y hy := by
    refine not_lt.mp fun hLt => ?_
    obtain hBefore | hPre := (lt_dataKeySuccessor_iff h y).mp hLt
    · exact lt_asymm hBefore (hy key prefix_rfl)
    · exact lt_irrefl y (hy y hPre)
  range key hi _ h x := by
    rw [inSpan, lt_dataKeySuccessor_iff h, ← not_lt]
    constructor
    · exact fun hx => hx.2.resolve_left hx.1
    · exact fun hPre => ⟨not_lt.mpr ( prefix_le hPre), .inr hPre⟩

/-- Both functions give the least key above all those that begin with the given one. -/
theorem successors_right : SuccessorRight rirPrefixSuccessor ∧ SuccessorRight dataKeySuccessor :=
  ⟨successorRight_dataKeySuccessor, successorRight_dataKeySuccessor⟩

section

variable (b : Bulk) (compactAfter : Bool) (key : Bytes)

theorem Bulk.track_keys : (b.track compactAfter key).keys = b.keys := by
  rw [Bulk.track]
  split
  · split
    · rfl
    · rfl
  · rfl

theorem Bulk.track_deferring : (b.track compactAfter key).deferring = b.deferring := by
  rw [Bulk.track]
  split
  · split
    · rfl
    · rfl
  · rfl

end

structure Spans (b : Bulk) : Prop where
  off : b.deferring = false → b.keys = []
  rows : b.deferring = true → b.rows = b.keys.length
  min_le {key : Bytes} : key ∈ b.keys → b.minPk ≤ key
  le_max {key : Bytes} : key ∈ b.keys → key ≤ b.maxPk

theorem spans_start (hasUserPk triggers : Bool) : Spans (startBulkDelete hasUserPk triggers) where
  off _ := rfl
  rows _ := rfl
  min_le := nofun
  le_max := nofun

theorem Spans.track {b : Bulk} (h : Spans b) (hOn : b.deferring = true) (compactAfter : Bool) (key : Bytes) :
    (b.track compactAfter key).rows = b.rows + 1 ∧
      ∀ k ∈ b.keys ++ [key], (b.track compactAfter key).minPk ≤ k ∧ k ≤ (b.track compactAfter key).maxPk := by
  have hRows := h.rows hOn
  rw [Bulk.track, hOn, Bool.true_or, if_pos rfl]
  split
  · rename_i hNone
    refine ⟨rfl, fun k hk => ?_⟩
    rw [eq_nil_of_length_eq_zero (hRows.symm.trans hNone)] at hk
    obtain rfl := mem_singleton.mp hk
    exact ⟨le_rfl, le_rfl⟩
  · refine ⟨rfl, fun k hk => ?_⟩
    dsimp only
    obtain hk | hk := mem_append.mp hk
    · constructor
      · split
        · rename_i hLess
          exact hLess.le.trans (h.min_le hk)
        · exact h.min_le hk
      · split
        · rename_i hMore
          exact (h.le_max hk).trans hMore.le
        · exact h.le_max hk
    · obtain rfl := mem_singleton.mp hk
      constructor
      · split
        · exact le_rfl
        · rename_i hNot
          exact not_lt.mp hNot
      · split
        · exact le_rfl
        · rename_i hNot
          exact not_lt.mp hNot

theorem Spans.push {b : Bulk} (h : Spans b) (hOn : b.deferring = true) (compactAfter : Bool) (key : Bytes) :
    Spans ⟨b.deferring, b.keys ++ [key], (b.track compactAfter key).rows, (b.track compactAfter key).minPk,
      (b.track compactAfter key).maxPk⟩ where
  off hOff := absurd (hOn.symm.trans hOff) (by decide)
  rows _ := by
    rw [(h.track hOn compactAfter key).1, h.rows hOn, length_append]
    rfl
  min_le hk := ((h.track hOn compactAfter key).2 _ hk).1
  le_max hk := ((h.track hOn compactAfter key).2 _ hk).2

theorem spans_of_off {b : Bulk} (hOff : b.deferring = false) (hNone : b.keys = []) : Spans b where
  off _ := hNone
  rows hOn := absurd (hOff.symm.trans hOn) false_ne_true
  min_le hk := by
    rw [hNone] at hk
    cases hk
  le_max hk := by
    rw [hNone] at hk
    cases hk

end Span

section Runs

variable {η : Type} {self : η} {compactAfter : Bool} {s s' : State η}

def State.left (s : State η) : Finset Bytes := s.live \ s.bulk.keys.toFinset

structure Held (s : State η) : Prop where
  nodup : s.bulk.keys.Nodup
  live {key : Bytes} : key ∈ s.bulk.keys → key ∈ s.live
  spans : Spans s.bulk

theorem range_eq (h : Held s) {counted : Option Nat} {rangeOk : Bool} (hCounts : Counts s (.finish counted rangeOk))
    {hi : Bytes} (hEnd : rangeEnd s.bulk counted rangeOk = some hi) :
    (s.live.filter fun key => inSpan s.bulk.minPk hi key) = s.bulk.keys.toFinset := by
  rw [rangeEnd] at hEnd
  split at hEnd
  · split at hEnd
    · rename_i hi' hSuccessor
      split at hEnd
      · rename_i hCounted
        cases hEnd
        rw [hCounted.1] at hCounts
        refine (Finset.eq_of_subset_of_card_le (fun key hKey => ?_) ?_).symm
        · rw [mem_toFinset] at hKey
          exact Finset.mem_filter.mpr ⟨h.live hKey, h.spans.min_le hKey,
            (h.spans.le_max hKey).trans_lt ((lt_dataKeySuccessor_iff hSuccessor _).mpr (.inr prefix_rfl))⟩
        · rw [toFinset_card_of_nodup h.nodup]
          exact hCounts _ hSuccessor
      · cases hEnd
    · cases hEnd
  · cases hEnd

theorem endBulkDelete_eq (h : Held s) {counted : Option Nat} {rangeOk : Bool}
    (hCounts : Counts s (.finish counted rangeOk)) : endBulkDelete s.bulk s.live counted rangeOk = s.left := by
  rw [endBulkDelete, State.left]
  split
  · split
    · rename_i hi hEnd
      rw [← range_eq h hCounts hEnd, Finset.filter_not]
    · rfl
  · rename_i hNot
    have hNone : s.bulk.keys = [] := by
      by_contra hSome
      refine hNot ⟨?_, hSome⟩
      by_contra hOff
      exact hSome (h.spans.off (not_eq_true _ ▸ hOff))
    rw [hNone, toFinset_nil, Finset.sdiff_empty]

theorem Held.erase (h : Held s) {key : Bytes} (hKey : key ∈ s.left) {b : Bulk} (hKeys : b.keys = s.bulk.keys)
    (hSpans : Spans b) : Held { s with live := s.live.erase key, bulk := b } ∧
      State.left { s with live := s.live.erase key, bulk := b } = s.left.erase key := by
  rw [State.left, Finset.mem_sdiff, mem_toFinset] at hKey
  refine ⟨⟨?_, fun {k} hk => ?_, hSpans⟩, ?_⟩
  · dsimp only
    rw [hKeys]
    exact h.nodup
  · dsimp only at hk ⊢
    rw [hKeys] at hk
    exact Finset.mem_erase.mpr ⟨fun hEq => hKey.2 (hEq ▸ hk), h.live hk⟩
  · rw [State.left, State.left, hKeys, Finset.erase_sdiff_comm]

variable [DecidableEq η]

theorem track_eq_of_off {b : Bulk} (hSpans : Spans b) (hOff : b.deferring = false) (compactAfter : Bool) (key : Bytes) :
    Spans (b.track compactAfter key) :=
  spans_of_off ((b.track_deferring compactAfter key).trans hOff)
    ((b.track_keys compactAfter key).trans (hSpans.off hOff))

theorem removeRow_spec (self : η) (compactAfter : Bool) (h : Held s) {caller : η} (hKey : s.current caller ∈ s.left) :
    Held (removeRow self compactAfter s caller) ∧
      (removeRow self compactAfter s caller).left = s.left.erase (s.current caller) ∧
      ∀ k ∈ (removeRow self compactAfter s caller).bulk.keys, k ∈ s.bulk.keys ∨ k = s.current caller := by
  have hParts := Finset.mem_sdiff.mp hKey
  rw [mem_toFinset] at hParts
  rw [removeRow]
  dsimp only
  split
  · rw [Bulk.track_deferring, Bulk.track_keys]
    split
    · rename_i hOn
      have hLeft : s.live \ (s.bulk.keys ++ [s.current caller]).toFinset = s.left.erase (s.current caller) := by
        ext k
        simp only [State.left, Finset.mem_sdiff, Finset.mem_erase, mem_toFinset, mem_append, mem_singleton]
        tauto
      split
      · refine ⟨⟨nodup_nil, nofun, spans_of_off rfl rfl⟩, ?_, nofun⟩
        rw [← hLeft, State.left, toFinset_nil, Finset.sdiff_empty]
      · refine ⟨⟨?_, fun {k} hk => ?_, h.spans.push hOn compactAfter _⟩, hLeft, fun k hk => ?_⟩
        · exact h.nodup.append (nodup_singleton _) (by simpa using hParts.2)
        · obtain hk | hk := mem_append.mp hk
          · exact h.live hk
          · exact mem_singleton.mp hk ▸ hParts.1
        · obtain hk | hk := mem_append.mp hk
          · exact .inl hk
          · exact .inr (mem_singleton.mp hk)
    · rename_i hOff
      have hOff : s.bulk.deferring = false := not_eq_true _ ▸ hOff
      obtain ⟨hHeld, hLeft⟩ := h.erase hKey (s.bulk.track_keys compactAfter (s.current caller))
        (track_eq_of_off h.spans hOff compactAfter _)
      exact ⟨hHeld, hLeft, fun k hk => .inl (s.bulk.track_keys compactAfter (s.current caller) ▸ hk)⟩
  · obtain ⟨hHeld, hLeft⟩ := h.erase hKey rfl h.spans
    exact ⟨hHeld, hLeft, fun k hk => .inl hk⟩

theorem removeRow_frame (self : η) (compactAfter : Bool) (s : State η) (caller : η) :
    (removeRow self compactAfter s caller).current = s.current ∧
      (removeRow self compactAfter s caller).stack = s.stack ∧
      (removeRow self compactAfter s caller).called = s.called ∧
      (removeRow self compactAfter s caller).expired = s.expired ∧
      (removeRow self compactAfter s caller).finished = s.finished := by
  rw [removeRow]
  dsimp only
  split
  · split
    · split
      · exact ⟨rfl, rfl, rfl, rfl, rfl⟩
      · exact ⟨rfl, rfl, rfl, rfl, rfl⟩
    · exact ⟨rfl, rfl, rfl, rfl, rfl⟩
  · exact ⟨rfl, rfl, rfl, rfl, rfl⟩

structure Running (live : Finset Bytes) (s : State η) : Prop where
  held : Held s
  left (key : Bytes) : key ∈ s.left ↔ (key ∈ live ∧ key ∉ s.expired) ∧ (key ∉ s.called ∨ key ∈ s.stack.map snd)
  keys {key : Bytes} : key ∈ s.bulk.keys → key ∈ s.called
  pending {key : Bytes} : key ∈ s.stack.map snd → key ∈ s.called ∧ key ∈ live ∧ key ∉ s.expired
  current {h : η} {key : Bytes} : (h, key) ∈ s.stack → s.current h = key
  nodupKeys : (s.stack.map snd).Nodup
  nodupHandlers : (s.stack.map fst).Nodup

theorem Running.enter {live : Finset Bytes} (hRun : Running live s) {h : η} {key : Bytes} (hLive : key ∈ s.live)
    (hOnce : Once s (.enter h key)) :
    Running live { s with
      current := update s.current h key, stack := (h, key) :: s.stack, called := s.called ++ [key] } := by
  obtain ⟨hNew, hFree⟩ := hOnce
  have hLeft : key ∈ s.left :=
    Finset.mem_sdiff.mpr ⟨hLive, fun hk => hNew (hRun.keys (mem_toFinset.mp hk))⟩
  have hThere : key ∈ live ∧ key ∉ s.expired := ((hRun.left key).mp hLeft).1
  constructor
  · exact ⟨hRun.held.nodup, hRun.held.live, hRun.held.spans⟩
  · intro k
    refine (hRun.left k).trans (and_congr_right fun _ => ?_)
    rw [mem_append, mem_singleton, map_cons, mem_cons]
    by_cases hk : k = key
    · rw [hk]
      simp [hNew]
    · simp [hk]
  · exact fun hk => mem_append_left _ (hRun.keys hk)
  · intro k hk
    obtain rfl | hk := mem_cons.mp hk
    · exact ⟨mem_append_right _ mem_cons_self, hThere⟩
    · exact ⟨mem_append_left _ (hRun.pending hk).1, (hRun.pending hk).2⟩
  · intro caller k hk
    obtain hk | hk := mem_cons.mp hk
    · cases hk
      exact update_self ..
    · have hNe : caller ≠ h := fun hEq => hFree (hEq ▸ mem_map_of_mem hk)
      exact (update_of_ne hNe ..).trans (hRun.current hk)
  · exact nodup_cons.mpr ⟨fun hk => hNew (hRun.pending hk).1, hRun.nodupKeys⟩
  · exact nodup_cons.mpr ⟨hFree, hRun.nodupHandlers⟩

theorem Running.leave {live : Finset Bytes} (hRun : Running live s) {h : η} {key : Bytes} {stack : List (η × Bytes)}
    (hStack : s.stack = (h, key) :: stack) :
      Running live (removeRow self compactAfter { s with stack := stack } h) := by
  have hTop : (h, key) ∈ s.stack := hStack ▸ mem_cons_self
  have hCurrent : s.current h = key := hRun.current hTop
  have hPending : key ∈ s.stack.map snd := mem_map_of_mem hTop
  obtain ⟨hCalled, hThere⟩ := hRun.pending hPending
  have hKeys := hRun.nodupKeys
  have hHandlers := hRun.nodupHandlers
  rw [hStack, map_cons, nodup_cons] at hKeys hHandlers
  have hBelow {k : Bytes} (hk : k ∈ stack.map snd) : k ∈ s.stack.map snd := by
    rw [hStack]
    exact mem_cons_of_mem _ hk
  have hHeld : Held { s with stack := stack } := ⟨hRun.held.nodup, hRun.held.live, hRun.held.spans⟩
  have hLeft : s.current h ∈ s.left := hCurrent ▸ (hRun.left key).mpr ⟨hThere, .inr hPending⟩
  obtain ⟨hAfter, hErased, hIn⟩ := removeRow_spec self compactAfter hHeld hLeft
  obtain ⟨hCur, hSt, hCa, hEx, -⟩ := removeRow_frame self compactAfter { s with stack := stack } h
  constructor
  · exact hAfter
  · intro k
    rw [hErased, hCa, hSt, hEx, Finset.mem_erase]
    change k ≠ s.current h ∧ k ∈ s.left ↔ _
    rw [hRun.left, hCurrent, hStack, map_cons, mem_cons]
    by_cases hk : k = key
    · rw [hk]
      simp [hCalled, hKeys.1]
    · simp [hk]
  · intro k hk
    rw [hCa]
    obtain hk | rfl := hIn k hk
    · exact hRun.keys hk
    · exact hCurrent ▸ hCalled
  · intro k hk
    rw [hSt] at hk
    rw [hCa, hEx]
    exact hRun.pending (hBelow hk)
  · intro caller k hk
    rw [hSt] at hk
    rw [hCur]
    exact hRun.current (hStack ▸ mem_cons_of_mem _ hk)
  · rw [hSt]
    exact hKeys.2
  · rw [hSt]
    exact hHandlers.2

omit [DecidableEq η] in
theorem Running.expire {live : Finset Bytes} (hRun : Running live s) {key : Bytes} (hLive : key ∈ s.live)
    (hNew : key ∉ s.called) : Running live { s with live := s.live.erase key, expired := s.expired ++ [key] } := by
  have hFree : key ∉ s.bulk.keys := fun hk => hNew (hRun.keys hk)
  have hLeft : key ∈ s.left := Finset.mem_sdiff.mpr ⟨hLive, fun hk => hFree (mem_toFinset.mp hk)⟩
  obtain ⟨hHeld, hErased⟩ := hRun.held.erase hLeft rfl hRun.held.spans
  refine ⟨⟨hHeld.nodup, hHeld.live, hHeld.spans⟩, fun k => ?_, hRun.keys, fun hk => ?_, hRun.current, hRun.nodupKeys,
    hRun.nodupHandlers⟩
  · change k ∈ State.left { s with live := s.live.erase key } ↔ _
    rw [hErased, Finset.mem_erase, hRun.left, mem_append, mem_singleton]
    tauto
  · obtain ⟨hCalled, hThere, hAlive⟩ := hRun.pending hk
    refine ⟨hCalled, hThere, fun hIn => ?_⟩
    obtain hIn | hIn := mem_append.mp hIn
    · exact hAlive hIn
    · exact hNew (mem_singleton.mp hIn ▸ hCalled)

def Inv (live : Finset Bytes) (s : State η) : Prop :=
  (s.finished = false ∧ Running live s) ∨
    (s.finished = true ∧ s.stack = [] ∧ s.live = live \ (s.called ++ s.expired).toFinset)

omit [DecidableEq η] in
theorem Inv.running {live : Finset Bytes} (h : Inv live s) (hOn : s.finished = false) : Running live s := by
  obtain ⟨-, hRun⟩ | ⟨hEnd, -⟩ := h
  · exact hRun
  · exact absurd (hOn.symm.trans hEnd) false_ne_true

theorem inv_step {live : Finset Bytes} {a : Action η} (hInv : Inv live s) (hCounts : Counts s a) (hOnce : Once s a)
    (hStep : step self compactAfter s a = some s') : Inv live s' := by
  cases a with
  | enter h key =>
    rw [step] at hStep
    split at hStep
    · rename_i hOk
      cases hStep
      exact .inl ⟨hOk.1, (hInv.running hOk.1).enter hOk.2.1 hOnce⟩
    · cases hStep
  | leave =>
    rw [step] at hStep
    split at hStep
    · cases hStep
    · rename_i h key stack hStack
      cases hStep
      obtain ⟨hOn, hRun⟩ | ⟨-, hEmpty, -⟩ := hInv
      · exact .inl ⟨(removeRow_frame ..).2.2.2.2.trans hOn, hRun.leave hStack⟩
      · rw [hEmpty] at hStack
        cases hStack
  | expire key =>
    rw [step] at hStep
    split at hStep
    · rename_i hOk
      cases hStep
      exact .inl ⟨hOk.1, (hInv.running hOk.1).expire hOk.2 hOnce⟩
    · cases hStep
  | finish counted rangeOk =>
    rw [step] at hStep
    split at hStep
    · rename_i hOk
      cases hStep
      have hRun := hInv.running hOk.1
      refine .inr ⟨rfl, hOk.2, (endBulkDelete_eq hRun.held hCounts).trans (Finset.ext fun key => ?_)⟩
      rw [hRun.left, hOk.2, Finset.mem_sdiff, mem_toFinset, mem_append, map_nil, or_iff_left not_mem_nil]
      tauto
    · cases hStep

end Runs

theorem running_init {η : Type} (live : Finset Bytes) (hasUserPk triggers : Bool) :
    Running live (init live hasUserPk triggers : State η) := by
  refine ⟨⟨nodup_nil, nofun, spans_start ..⟩, fun key => ?_, nofun, nofun, nofun, nodup_nil, nodup_nil⟩
  simp [State.left, init, startBulkDelete]

/-- The rows gone are those that `delete_row` was called on and those that have expired, when it is called on no row
twice and on no handler in the middle of a call, and no row it was called on expires. -/
theorem bulk_delete_exact {η : Type} [DecidableEq η] {self : η} {compactAfter : Bool} {live : Finset Bytes}
    {hasUserPk triggers : Bool} {s : State η}
    (hReach : Reach (step self compactAfter) (fun s a => Counts s a ∧ Once s a) (init live hasUserPk triggers) s) :
    Exact live s := by
  have hInv := hReach.invariant (Inv live) (.inl ⟨rfl, running_init ..⟩)
    fun s a s' hInv hGuard hStep => inv_step hInv hGuard.1 hGuard.2 hStep
  intro hEnd
  obtain ⟨hOn, -⟩ | ⟨-, -, hLive⟩ := hInv
  · exact absurd (hOn.symm.trans hEnd) false_ne_true
  · exact hLive

section Samples

instance instDecidableCounts {η : Type} (s : State η) (a : Action η) : Decidable (Counts s a) :=
  match a with
  | .finish (some n) _ =>
    match h : dataKeySuccessor s.bulk.maxPk with
    | some hi =>
      decidable_of_iff ((s.live.filter fun key => inSpan s.bulk.minPk hi key).card ≤ n)
        ⟨fun hCard hi' h' => by rw [h] at h'; cases h'; exact hCard, fun hAll => hAll hi h⟩
    | none => .isTrue fun hi' h' => by rw [h] at h'; cases h'
  | .finish none _ => .isTrue trivial
  | .enter _ _ => .isTrue trivial
  | .leave => .isTrue trivial
  | .expire _ => .isTrue trivial

instance instDecidableOnce {η : Type} [DecidableEq η] (s : State η) (a : Action η) : Decidable (Once s a) :=
  match a with
  | .enter h key => inferInstanceAs (Decidable (key ∉ s.called ∧ h ∉ s.stack.map fst))
  | .leave => .isTrue trivial
  | .expire key => inferInstanceAs (Decidable (key ∉ s.called))
  | .finish _ _ => .isTrue trivial

def rowKey (i : Nat) : Bytes := [1, UInt8.ofNat i]

def bystander : Bytes := [1, 1, 7]

inductive Reader where
  | statement
  | action
  deriving DecidableEq, Repr

def visit (key : Bytes) : List (Action Reader) := [.enter .statement key, .leave]

def rowKeys : List Bytes := (range' 1 64).map rowKey

/-- The rows of the span, one that a referential action deletes and one that stays. -/
def wholeTable : Finset Bytes := (bystander :: rowKey 66 :: rowKey 70 :: rowKeys).toFinset

def cascade : List (Action Reader) :=
  visit (rowKey 1) ++ [.enter .statement (rowKey 2), .enter .action (rowKey 66), .leave, .leave] ++
    (rowKeys.drop 2).flatMap visit ++ [.expire bystander, .finish (some 64) true]

theorem cascade_exact : ∃ s, Reach (step Reader.statement false) (fun s a => Counts s a ∧ Once s a)
    (init wholeTable true false) s ∧ (s.finished = true ∧ rangeEnd s.bulk (some 64) true = some [1, 65]) ∧
      Exact wholeTable s := by
  have hEnds : (guardedRun (step Reader.statement false) (fun s a => Counts s a ∧ Once s a)
      (init wholeTable true false) cascade).any
        (fun s => s.finished && decide (rangeEnd s.bulk (some 64) true = some [1, 65])) = true := by
    decide +kernel
  obtain ⟨s, hReach, hFinished⟩ := reach_of_any_guardedRun hEnds
  simp only [and_eq_true, decide_eq_true_eq] at hFinished
  exact ⟨s, hReach, hFinished, bulk_delete_exact hReach⟩

def circular : List (Action Reader) :=
  visit (rowKey 1) ++ [.enter .statement (rowKey 2), .enter .action (rowKey 1), .leave, .leave] ++
    (rowKeys.drop 2).flatMap visit ++ [.finish (some 64) true]

def expiring : List (Action Reader) := rowKeys.flatMap visit ++ [.expire (rowKey 1), .finish (some 64) true]

theorem not_exact_of_run {actions : List (Action Reader)}
    (hEnds : (guardedRun (step .statement false) Counts (init (bystander :: rowKeys).toFinset true false) actions).any
      (fun s => s.finished && decide (bystander ∉ s.live) && decide (bystander ∉ s.called ++ s.expired)) = true) :
    ∃ s, guardedRun (step .statement false) Counts (init (bystander :: rowKeys).toFinset true false) actions = some s ∧
      ¬Exact (bystander :: rowKeys).toFinset s := by
  obtain ⟨s, hRun, hEnd⟩ := (Option.any_eq_true _ _).mp hEnds
  simp only [and_eq_true, decide_eq_true_eq] at hEnd
  refine ⟨s, hRun, fun hExact => hEnd.1.2 ?_⟩
  rw [hExact hEnd.1.1, Finset.mem_sdiff, mem_toFinset, mem_toFinset]
  exact ⟨mem_cons_self, hEnd.2⟩

/-- Of the 64 rows held back one is gone already, deleted a second time or expired, and a row that was not visited
makes up for it in the count: the range tombstone removes it. -/
theorem bystander_removed :
    (∃ s, guardedRun (step .statement false) Counts (init (bystander :: rowKeys).toFinset true false) circular =
      some s ∧ ¬Exact (bystander :: rowKeys).toFinset s) ∧
    ∃ s, guardedRun (step .statement false) Counts (init (bystander :: rowKeys).toFinset true false) expiring =
      some s ∧ ¬Exact (bystander :: rowKeys).toFinset s :=
  ⟨not_exact_of_run (by decide +kernel), not_exact_of_run (by decide +kernel)⟩

end Samples

end TideSql.BulkDelete
