import TideSql.Core.Spatial
import TideSql.Lib.ByteOrder
import TideSql.Lib.Cursor

/-!
# Scans of a spatial index

A scan walks through the ranges of a decomposed query box and hands back the rows whose stored box passes the
test.
-/

namespace TideSql.SpatialScan
open Spatial Lib Lib.ByteOrder List Nat

structure Stored where
  key : Bytes
  value : Option Mbr

structure Table where
  entries : List Stored
  hasRow : Bytes → Bool

structure Scan where
  ranges : List (Nat × Nat)
  pos : List Stored
  moving : Bool
  result : Option Bytes

section Model

variable (T : Table) (mode : Predicate) (q : Mbr)

def seek (lo : Nat) : List Stored := T.entries.filter fun e => decide (encodeHilbertBe lo ≤ e.key)

def scanRange (curHi : Nat) : List Stored → Option Bytes × List Stored
  | [] => (none, [])
  | e :: rest =>
    if e.key.length ≤ hilbertKeyLen then scanRange curHi rest
    else if decodeHilbertBe e.key > curHi then (none, e :: rest)
    else
      match e.value with
      | none => scanRange curHi rest
      | some m =>
        if mbrPredicate mode q m then
          if T.hasRow (e.key.drop hilbertKeyLen) then (some (e.key.drop hilbertKeyLen), e :: rest)
          else scanRange curHi rest
        else scanRange curHi rest

def spatialScanNext (moving : Bool) : List (Nat × Nat) → List Stored → Scan
  | [], pos => ⟨[], pos, moving, none⟩
  | r :: rs, pos =>
    match scanRange T mode q r.2 pos with
    | (some pk, pos') => ⟨r :: rs, pos', true, some pk⟩
    | (none, pos') => spatialScanNext moving rs (rs.head?.elim pos' fun r' => seek T r'.1)

def queryRanges : Option (List (Nat × Nat)) :=
  if mode = .disjoint then some [(rangeFullLo, rangeFullHi)]
  else
    decomposeRanges (doubleToLexUint32 q.xmin) (doubleToLexUint32 q.ymin) (doubleToLexUint32 q.xmax)
      (doubleToLexUint32 q.ymax)

/-- `index_read_spatial`, with the rectangle that `parse_query_mbr` gives. -/
def indexReadSpatial (pos : List Stored) : Option Scan :=
  (queryRanges mode q).map fun ranges =>
    spatialScanNext T mode q false ranges (ranges.head?.elim pos fun r => seek T r.1)

def indexNext (s : Scan) : Scan := spatialScanNext T mode q s.moving s.ranges (if s.moving then s.pos.tail else s.pos)

def readOn : Nat → Scan → List Bytes × Bool
  | n, s =>
    match s.result, n with
    | none, _ => ([], true)
    | some pk, 0 => ([pk], false)
    | some pk, n + 1 => (pk :: (readOn n (indexNext T mode q s)).1, (readOn n (indexNext T mode q s)).2)

end Model

section Walk

variable {T : Table} {mode : Predicate} {q : Mbr}

def distance (e : Stored) : Nat := decodeHilbertBe e.key

def hit (T : Table) (mode : Predicate) (q : Mbr) (e : Stored) : Bool :=
  e.value.any (mbrPredicate mode q) && T.hasRow (e.key.drop hilbertKeyLen)

def rowOf (e : Stored) : Bytes := e.key.drop hilbertKeyLen

def pending (T : Table) (mode : Predicate) (q : Mbr) (hi : Nat) (pos : List Stored) : List Stored :=
  pos.filter fun e => decide (distance e ≤ hi) && hit T mode q e

structure Ordered (pos : List Stored) : Prop where
  long : ∀ e ∈ pos, hilbertKeyLen < e.key.length
  sorted : pos.Pairwise fun a b => distance a ≤ distance b

variable {pos : List Stored}

theorem Ordered.tail {e : Stored} (h : Ordered (e :: pos)) : Ordered pos :=
  ⟨fun x hx => h.long x (mem_cons_of_mem _ hx), (pairwise_cons.mp h.sorted).2⟩

theorem Ordered.of_suffix {pos pos' : List Stored} (h : Ordered pos) (hSuffix : pos' <:+ pos) : Ordered pos' :=
  ⟨fun e he => h.long e (hSuffix.subset he), h.sorted.sublist hSuffix.sublist⟩

theorem scanRange_cons {e : Stored} (hLong : hilbertKeyLen < e.key.length) (hi : Nat) :
    scanRange T mode q hi (e :: pos) = if distance e > hi then (none, e :: pos)
      else if hit T mode q e then (some (rowOf e), e :: pos) else scanRange T mode q hi pos := by
  rw [scanRange, if_neg (not_le.mpr hLong), distance, hit, rowOf]
  split
  · rfl
  · cases e.value with
    | none => rfl
    | some m => by_cases hPred : mbrPredicate mode q m = true <;> simp [hPred]

theorem scanRange_spec (T : Table) (mode : Predicate) (q : Mbr) (h : Ordered pos) (hi : Nat) :
    match pending T mode q hi pos with
    | [] => (scanRange T mode q hi pos).1 = none
    | e :: es => ∃ rest, scanRange T mode q hi pos = (some (rowOf e), e :: rest) ∧ e :: rest <:+ pos ∧
        pending T mode q hi rest = es := by
  induction pos with
  | nil => rfl
  | cons e pos ih =>
    rw [scanRange_cons (h.long e mem_cons_self)]
    by_cases hBeyond : distance e > hi
    · have hNone : pending T mode q hi (e :: pos) = [] := by
        rw [pending, filter_eq_nil_iff]
        intro x hx
        have hGe : distance e ≤ distance x := by
          obtain rfl | hx := mem_cons.mp hx
          · exact le_rfl
          · exact (pairwise_cons.mp h.sorted).1 x hx
        rw [decide_eq_false (not_le.mpr (lt_of_lt_of_le hBeyond hGe))]
        exact Bool.false_ne_true
      rw [hNone, if_pos hBeyond]
    · rw [if_neg hBeyond]
      have hCons : pending T mode q hi (e :: pos) =
          if hit T mode q e then e :: pending T mode q hi pos else pending T mode q hi pos := by
        rw [pending, filter_cons, decide_eq_true (not_lt.mp hBeyond), Bool.true_and, ← pending]
      by_cases hHit : hit T mode q e = true
      · rw [hCons, if_pos hHit, if_pos hHit]
        exact ⟨pos, rfl, suffix_rfl, rfl⟩
      · rw [hCons, if_neg hHit, if_neg hHit]
        have hRest := ih h.tail
        cases hPending : pending T mode q hi pos with
        | nil =>
          rw [hPending] at hRest
          exact hRest
        | cons x xs =>
          rw [hPending] at hRest
          obtain ⟨rest, hScan, hSuffix, hLeft⟩ := hRest
          exact ⟨rest, hScan, hSuffix.trans (suffix_cons ..), hLeft⟩

def todo (T : Table) (mode : Predicate) (q : Mbr) : List (Nat × Nat) → List Stored → List Stored
  | [], _ => []
  | r :: rs, pos => pending T mode q r.2 pos ++ rs.flatMap fun r' => pending T mode q r'.2 (seek T r'.1)

/-- The scan stands on the first of the entries and will come to the others, in this order. -/
def Shows (T : Table) (mode : Predicate) (q : Mbr) (s : Scan) : List Stored → Prop
  | [] => s.result = none
  | e :: es => s.result = some (rowOf e) ∧ s.moving = true ∧
      ∃ rest, s.pos = e :: rest ∧ rest <:+ T.entries ∧ todo T mode q s.ranges rest = es

structure Kept (T : Table) : Prop where
  long : ∀ e ∈ T.entries, hilbertKeyLen < e.key.length
  sorted : T.entries.Pairwise fun a b => a.key < b.key

theorem distance_le_of_lt {a b : Stored} (ha : hilbertKeyLen < a.key.length) (hb : hilbertKeyLen < b.key.length)
    (h : a.key < b.key) : distance a ≤ distance b := by
  have hLen : (a.key.take hilbertKeyLen).length = (b.key.take hilbertKeyLen).length := by
    rw [length_take_of_le ha.le, length_take_of_le hb.le]
  rw [← take_append_drop hilbertKeyLen a.key, ← take_append_drop hilbertKeyLen b.key] at h
  exact ofBE_le_ofBE hLen (le_of_append_le_append hLen h.le)

theorem Kept.ordered (h : Kept T) : Ordered T.entries :=
  ⟨h.long, h.sorted.imp_of_mem fun ha hb hLt => distance_le_of_lt (h.long _ ha) (h.long _ hb) hLt⟩

theorem Kept.seek_suffix (h : Kept T) (lo : Nat) : seek T lo <:+ T.entries := by
  refine Cursor.filter_suffix h.sorted fun a _ b _ hLt ha => ?_
  rw [decide_eq_true_eq] at ha ⊢
  exact ha.trans hLt.le

theorem todo_next (rs : List (Nat × Nat)) (pos : List Stored) :
    todo T mode q rs (rs.head?.elim pos fun r => seek T r.1) =
      rs.flatMap fun r => pending T mode q r.2 (seek T r.1) := by
  cases rs with
  | nil | cons r rs => rfl

theorem spatialScanNext_shows (h : Kept T) (moving : Bool) (ranges : List (Nat × Nat)) (hPos : pos <:+ T.entries) :
    Shows T mode q (spatialScanNext T mode q moving ranges pos) (todo T mode q ranges pos) := by
  induction ranges generalizing pos with
  | nil => rfl
  | cons r rs ih =>
    have hRange := scanRange_spec T mode q (h.ordered.of_suffix hPos) r.2
    rw [spatialScanNext, todo]
    cases hPending : pending T mode q r.2 pos with
    | nil =>
      rw [hPending] at hRange
      rcases hScan : scanRange T mode q r.2 pos with ⟨pk, pos'⟩
      rw [hScan] at hRange
      cases hRange
      rw [nil_append, ← todo_next rs pos']
      cases rs with
      | nil => rfl
      | cons r' rs => exact ih (h.seek_suffix r'.1)
    | cons e es =>
      rw [hPending] at hRange
      obtain ⟨rest, hScan, hSuffix, hLeft⟩ := hRange
      rw [hScan]
      refine ⟨rfl, rfl, rest, rfl, (suffix_cons e rest).trans (hSuffix.trans hPos), ?_⟩
      rw [todo, hLeft]
      rfl

theorem readOn_shows (h : Kept T) {l : List Stored} {s : Scan} (hShows : Shows T mode q s l) {n : Nat}
    (hn : l.length ≤ n) : readOn T mode q n s = (l.map rowOf, true) := by
  induction l generalizing s n with
  | nil =>
    rw [Shows] at hShows
    unfold readOn
    rw [hShows, map_nil]
  | cons e es ih =>
    obtain ⟨hResult, hMoving, rest, hPos, hSuffix, hTodo⟩ := hShows
    cases n with
    | zero => exact absurd hn (not_succ_le_zero _)
    | succ n =>
      have hNext : Shows T mode q (indexNext T mode q s) es := by
        rw [indexNext, hMoving, if_pos rfl, hPos, tail_cons, ← hTodo]
        exact spatialScanNext_shows h true s.ranges hSuffix
      unfold readOn
      rw [hResult]
      simp only [ih hNext (le_of_succ_le_succ hn), map_cons]

end Walk

section Index

def mbrCentroidDiv : Float := 2.0

structure Entry where
  pk : Bytes
  mbr : Mbr

namespace Entry

variable (e : Entry)

def cx : Float := (e.mbr.xmin + e.mbr.xmax) / mbrCentroidDiv
def cy : Float := (e.mbr.ymin + e.mbr.ymax) / mbrCentroidDiv

def stored : Stored := ⟨buildKey e.cx e.cy e.pk, some e.mbr⟩

end Entry

structure SpatialIndex where
  rows : List Entry
  sorted : rows.Pairwise fun a b => a.stored.key < b.stored.key
  pk_ne : ∀ e ∈ rows, e.pk ≠ []
  nodup : (rows.map Entry.pk).Nodup

def SpatialIndex.table (I : SpatialIndex) : Table :=
  ⟨I.rows.map Entry.stored, fun pk => I.rows.any fun e => decide (e.pk = pk)⟩

def Answers (I : SpatialIndex) (mode : Predicate) (q : Mbr) (pks : List Bytes) : Prop :=
  ∀ pos, ∃ s, indexReadSpatial I.table mode q pos = some s ∧
    ∀ n, I.rows.length ≤ n → readOn I.table mode q n s = (pks, true)

/-- Each row that passes the test is returned once, and nothing else. -/
def Right (I : SpatialIndex) (mode : Predicate) (q : Mbr) (pks : List Bytes) : Prop :=
  (∀ e ∈ I.rows, pks.count e.pk = if mbrPredicate mode q e.mbr then 1 else 0) ∧ ∀ pk ∈ pks, ∃ e ∈ I.rows, e.pk = pk

def WideBox (q : Mbr) : Prop :=
  Wide (doubleToLexUint32 q.xmin) (doubleToLexUint32 q.ymin) (doubleToLexUint32 q.xmax) (doubleToLexUint32 q.ymax)

def cell (v : Float) : Nat := cellOf (doubleToLexUint32 v)

def CentreIn (q : Mbr) (e : Entry) : Prop :=
  (cell q.xmin ≤ cell e.cx ∧ cell e.cx ≤ cell q.xmax) ∧ (cell q.ymin ≤ cell e.cy ∧ cell e.cy ≤ cell q.ymax)

/-- The centre of every box that passes the test lies in a cell of the query box. -/
def Centred (I : SpatialIndex) (mode : Predicate) (q : Mbr) : Prop :=
  (cell q.xmin ≤ cell q.xmax ∧ cell q.ymin ≤ cell q.ymax) ∧
    ∀ e ∈ I.rows, mbrPredicate mode q e.mbr = true → CentreIn q e

variable {I : SpatialIndex} {mode : Predicate} {q : Mbr}

theorem key_stored (e : Entry) : e.stored.key =
    encodeHilbertBe (hilbertXy2d64 (doubleToLexUint32 e.cx) (doubleToLexUint32 e.cy)) ++ e.pk := rfl

theorem length_encodeHilbertBe (h : Nat) : (encodeHilbertBe h).length = hilbertKeyLen := Bytes.length_toBE ..

theorem rowOf_stored (e : Entry) : rowOf e.stored = e.pk := by
  rw [rowOf, key_stored, drop_left' (length_encodeHilbertBe _)]

theorem distance_stored (e : Entry) :
    distance e.stored = hilbertXy2d64 (doubleToLexUint32 e.cx) (doubleToLexUint32 e.cy) := by
  rw [distance, decodeHilbertBe, key_stored, take_left' (length_encodeHilbertBe _), encodeHilbertBe, Bytes.ofBE_toBE]
  exact mod_eq_of_lt (hilbertXy2d64_lt ..)

theorem SpatialIndex.kept (I : SpatialIndex) : Kept I.table where
  long := fun s hs => by
    obtain ⟨e, he, rfl⟩ := mem_map.mp hs
    have hPos := length_pos_iff.mpr (I.pk_ne e he)
    rw [key_stored, length_append, length_encodeHilbertBe]
    omega
  sorted := pairwise_map.mpr I.sorted

theorem hit_stored {e : Entry} (he : e ∈ I.rows) : hit I.table mode q e.stored = mbrPredicate mode q e.mbr := by
  have hRow : I.table.hasRow e.pk = true := any_eq_true.mpr ⟨e, he, decide_eq_true rfl⟩
  have hDrop : e.stored.key.drop hilbertKeyLen = e.pk := rowOf_stored e
  rw [hit, hDrop, hRow, Bool.and_true]
  rfl

theorem encode_le_iff {lo : Nat} (hLo : lo < 2 ^ 64) (e : Entry) :
    encodeHilbertBe lo ≤ e.stored.key ↔ lo ≤ distance e.stored := by
  have hLen := (length_encodeHilbertBe lo).trans
    (length_encodeHilbertBe (hilbertXy2d64 (doubleToLexUint32 e.cx) (doubleToLexUint32 e.cy))).symm
  have hBytes : encodeHilbertBe lo ≤ e.stored.key ↔
      encodeHilbertBe lo ≤ encodeHilbertBe (hilbertXy2d64 (doubleToLexUint32 e.cx) (doubleToLexUint32 e.cy)) := by
    rw [key_stored]
    constructor
    · intro h
      rw [← append_nil (encodeHilbertBe lo)] at h
      exact le_of_append_le_append hLen h
    · exact fun h => h.trans (prefix_le (prefix_append ..))
  rw [hBytes, ← ofBE_le_ofBE_iff hLen, encodeHilbertBe, encodeHilbertBe, Bytes.ofBE_toBE, Bytes.ofBE_toBE,
    mod_eq_of_lt (show lo < 256 ^ hilbertKeyLen from hLo), distance_stored,
    mod_eq_of_lt (show _ < 256 ^ hilbertKeyLen from hilbertXy2d64_lt ..)]

def rowsIn (I : SpatialIndex) (mode : Predicate) (q : Mbr) (r : Nat × Nat) : List Entry :=
  I.rows.filter fun e => decide (r.1 ≤ distance e.stored ∧ distance e.stored ≤ r.2) && mbrPredicate mode q e.mbr

theorem pending_seek {r : Nat × Nat} (hr : r.1 < 2 ^ 64) :
    pending I.table mode q r.2 (seek I.table r.1) = (rowsIn I mode q r).map Entry.stored := by
  rw [pending, seek, filter_filter, SpatialIndex.table, filter_map, rowsIn]
  refine congrArg (map _) (filter_congr fun e he => ?_)
  have hHit : hit I.table mode q e.stored = mbrPredicate mode q e.mbr := hit_stored he
  rw [SpatialIndex.table] at hHit
  rw [Function.comp_apply, hHit, Bool.eq_iff_iff]
  simp only [Bool.and_eq_true, decide_eq_true_eq, encode_le_iff hr]
  tauto

theorem covers_full (e : Entry) : Covers [(rangeFullLo, rangeFullHi)] (distance e.stored) := by
  rw [distance_stored]
  exact ⟨_, mem_singleton_self _, zero_le _, le_sub_one_of_lt (hilbertXy2d64_lt ..)⟩

variable {ranges : List (Nat × Nat)}

theorem queryRanges_spec (h : queryRanges mode q = some ranges) : Separated ranges ∧ (∀ r ∈ ranges, r.1 < 2 ^ 64) ∧
      ∀ e : Entry, Covers ranges (distance e.stored) ↔ mode = .disjoint ∨ WideBox q ∨ CentreIn q e := by
  rw [queryRanges] at h
  split at h
  · rename_i hDisjoint
    cases h
    refine ⟨pairwise_singleton .., fun r hr => ?_, fun e => iff_of_true (covers_full e) (.inl hDisjoint)⟩
    rw [mem_singleton.mp hr]
    exact Nat.two_pow_pos 64
  · rename_i hMode
    obtain ⟨hApart, hBounds, hCovers⟩ := decomposeRanges_spec h
    refine ⟨hApart.imp Nat.lt_of_succ_lt, fun r hr => (hBounds r hr).1.trans_lt (hBounds r hr).2, fun e => ?_⟩
    rw [distance_stored, hCovers, or_iff_right hMode]
    rfl

theorem queryRanges_isSome_iff : (queryRanges mode q).isSome ↔
      mode = .disjoint ∨ WideBox q ∨ (cell q.xmin ≤ cell q.xmax ∧ cell q.ymin ≤ cell q.ymax) := by
  rw [queryRanges]
  split
  · rename_i hDisjoint
    exact iff_of_true rfl (.inl hDisjoint)
  · rename_i hMode
    rw [decomposeRanges_isSome_iff, or_iff_right hMode]
    rfl

def found (I : SpatialIndex) (mode : Predicate) (q : Mbr) (ranges : List (Nat × Nat)) : List Entry :=
  ranges.flatMap (rowsIn I mode q)

theorem mem_found {e : Entry} :
    e ∈ found I mode q ranges ↔ e ∈ I.rows ∧ mbrPredicate mode q e.mbr = true ∧ Covers ranges (distance e.stored) := by
  simp only [found, mem_flatMap, rowsIn, mem_filter, Bool.and_eq_true, decide_eq_true_eq, Covers]
  constructor
  · rintro ⟨r, hr, he, hDistance, hPred⟩
    exact ⟨he, hPred, r, hr, hDistance⟩
  · rintro ⟨he, hPred, r, hr, hDistance⟩
    exact ⟨r, hr, he, hDistance, hPred⟩

theorem nodup_found (h : Separated ranges) : (found I mode q ranges).Nodup := by
  have hRows : I.rows.Nodup := I.nodup.of_map _
  refine nodup_flatMap.mpr ⟨fun r _ => hRows.filter _, h.imp fun {r r'} hBefore e he he' => ?_⟩
  rw [rowsIn, mem_filter, Bool.and_eq_true, decide_eq_true_eq] at he he'
  exact absurd (he'.2.1.1.trans he.2.1.2) (not_le.mpr hBefore)

theorem pk_inj {e e' : Entry} (he : e ∈ I.rows) (he' : e' ∈ I.rows) (h : e.pk = e'.pk) : e = e' :=
  inj_on_of_nodup_map I.nodup he he' h

theorem nodup_pks (h : Separated ranges) : ((found I mode q ranges).map Entry.pk).Nodup :=
  Nodup.map_on (fun _ he _ he' hPk => pk_inj (mem_found.mp he).1 (mem_found.mp he').1 hPk) (nodup_found h)

theorem answers_found (h : queryRanges mode q = some ranges) :
    Answers I mode q ((found I mode q ranges).map Entry.pk) := by
  obtain ⟨hSeparated, hBounded, -⟩ := queryRanges_spec h
  intro pos
  refine ⟨_, by rw [indexReadSpatial, h, Option.map_some], fun n hn => ?_⟩
  have hTodo : todo I.table mode q ranges (ranges.head?.elim pos fun r => seek I.table r.1) =
      (found I mode q ranges).map Entry.stored := by
    rw [todo_next, found, map_flatMap]
    exact flatMap_congr fun r hr => pending_seek (hBounded r hr)
  have hShows : Shows I.table mode q (spatialScanNext I.table mode q false ranges
      (ranges.head?.elim pos fun r => seek I.table r.1)) ((found I mode q ranges).map Entry.stored) := by
    rw [← hTodo]
    cases ranges with
    | nil => rfl
    | cons r rs => exact spatialScanNext_shows I.kept false _ (I.kept.seek_suffix r.1)
  have hLength : (found I mode q ranges).length ≤ I.rows.length :=
    (subperm_of_subset (nodup_found hSeparated) fun e he => (mem_found.mp he).1).length_le
  rw [readOn_shows I.kept hShows (by rw [length_map]; exact hLength.trans hn), map_map]
  refine congrArg (·, true) (map_congr_left fun e _ => rowOf_stored e)

theorem answers_unique {pks pks' : List Bytes} (h : Answers I mode q pks) (h' : Answers I mode q pks') :
    pks = pks' := by
  obtain ⟨s, hs, hRead⟩ := h []
  obtain ⟨s', hs', hRead'⟩ := h' []
  obtain rfl : s = s' := Option.some.inj (hs.symm.trans hs')
  exact congrArg Prod.fst ((hRead _ le_rfl).symm.trans (hRead' _ le_rfl))

theorem right_iff (h : Separated ranges) : Right I mode q ((found I mode q ranges).map Entry.pk) ↔
      ∀ e ∈ I.rows, mbrPredicate mode q e.mbr = true → Covers ranges (distance e.stored) := by
  have hMem (e : Entry) (he : e ∈ I.rows) : e.pk ∈ (found I mode q ranges).map Entry.pk ↔
      mbrPredicate mode q e.mbr = true ∧ Covers ranges (distance e.stored) := by
    constructor
    · intro hIn
      obtain ⟨e', he', hPk⟩ := mem_map.mp hIn
      obtain rfl := pk_inj (mem_found.mp he').1 he hPk
      exact (mem_found.mp he').2
    · exact fun hFound => mem_map_of_mem (mem_found.mpr ⟨he, hFound⟩)
  constructor
  · intro hRight e he hPred
    have hCount := hRight.1 e he
    rw [if_pos hPred] at hCount
    exact ((hMem e he).mp (count_pos_iff.mp (hCount ▸ one_pos))).2
  · intro hCovers
    refine ⟨fun e he => ?_, fun pk hPk => ?_⟩
    · rw [(nodup_pks h).count]
      refine if_congr ?_ rfl rfl
      rw [hMem e he]
      exact ⟨And.left, fun hPred => ⟨hPred, hCovers e he hPred⟩⟩
    · obtain ⟨e, he, rfl⟩ := mem_map.mp hPk
      exact ⟨e, (mem_found.mp he).1, rfl⟩

/-- A spatial scan is complete exactly when it reads the whole curve or the centres of the rows
it has to return lie in the cells of the query box. -/
theorem spatial_scan_complete_iff (I : SpatialIndex) (mode : Predicate) (x₀ x₁ y₀ y₁ : Float) :
    (∃ pks, Answers I mode (parseQueryMbr x₀ x₁ y₀ y₁) pks ∧ Right I mode (parseQueryMbr x₀ x₁ y₀ y₁) pks) ↔
      mode = .disjoint ∨ WideBox (parseQueryMbr x₀ x₁ y₀ y₁) ∨ Centred I mode (parseQueryMbr x₀ x₁ y₀ y₁) := by
  generalize parseQueryMbr x₀ x₁ y₀ y₁ = q
  cases hRanges : queryRanges mode q with
  | none =>
    have hNone : ¬(mode = .disjoint ∨ WideBox q ∨ (cell q.xmin ≤ cell q.xmax ∧ cell q.ymin ≤ cell q.ymax)) := by
      rw [← queryRanges_isSome_iff, hRanges]
      exact Bool.false_ne_true
    refine iff_of_false ?_ fun hCond => hNone (hCond.imp_right (Or.imp_right And.left))
    rintro ⟨pks, hAnswers, -⟩
    obtain ⟨s, hs, -⟩ := hAnswers []
    rw [indexReadSpatial, hRanges] at hs
    cases hs
  | some ranges =>
    obtain ⟨hSeparated, -, hCovers⟩ := queryRanges_spec hRanges
    have hSome := queryRanges_isSome_iff.mp (show (queryRanges mode q).isSome by rw [hRanges]; rfl)
    have hIff : (∃ pks, Answers I mode q pks ∧ Right I mode q pks) ↔
        Right I mode q ((found I mode q ranges).map Entry.pk) := by
      constructor
      · rintro ⟨pks, hAnswers, hRight⟩
        exact answers_unique hAnswers (answers_found hRanges) ▸ hRight
      · exact fun hRight => ⟨_, answers_found hRanges, hRight⟩
    rw [hIff, right_iff hSeparated]
    simp only [hCovers]
    constructor
    · intro hAll
      by_cases hWhole : mode = .disjoint ∨ WideBox q
      · exact or_assoc.mp (.inl hWhole)
      · have hOrder := (or_assoc.mpr hSome).resolve_left hWhole
        exact .inr (.inr ⟨hOrder, fun e he hPred => (or_assoc.mpr (hAll e he hPred)).resolve_left hWhole⟩)
    · exact fun hCond e he hPred => hCond.imp_right (Or.imp_right fun hCentred => hCentred.2 e he hPred)

end Index

section Sample

def square : Entry := ⟨[1], 0.0, 0.0, 100.0, 100.0⟩

theorem pk_ne_square {e : Entry} (he : e ∈ [square]) : e.pk ≠ [] := by
  rw [mem_singleton.mp he]
  exact cons_ne_nil 1 []

def oneSquare : SpatialIndex where
  rows := [square]
  sorted := pairwise_singleton ..
  pk_ne := fun _ => pk_ne_square
  nodup := nodup_singleton _

/-- The square contains the point (1, 1), and the scan at this point does not return it. -/
theorem square_not_found : mbrPredicate .intersect (parseQueryMbr 1.0 1.0 1.0 1.0) square.mbr = true ∧
      (indexReadSpatial oneSquare.table .intersect (parseQueryMbr 1.0 1.0 1.0 1.0) []).map Scan.result = some none ∧
      cell square.cx = 0xC0 ∧ cell 1.0 = 0xBF := by
  decide +kernel

end Sample

end TideSql.SpatialScan
