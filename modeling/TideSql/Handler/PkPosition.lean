import TideSql.Handler.IndexRead

/-!
# Where a read by primary key comes to stand

The server gives the leading parts of a key and a find flag.
-/

namespace TideSql.PkPosition
open KeyCodec SortKey IndexRead Lib.ByteOrder Lib.Cursor List Option

section Meaning

def leading (comp key : Bytes) : Bytes := key.take comp.length

def admits (flag : FindFlag) (comp key : Bytes) : Bool :=
  match flag with
  | .keyExact | .prefixAny | .prefixLast => leading comp key = comp
  | .keyOrNext => comp ≤ leading comp key
  | .afterKey => comp < leading comp key
  | .keyOrPrev | .prefixLastOrPrev => leading comp key ≤ comp
  | .beforeKey => leading comp key < comp

/-- What a read asks for: the first key in its direction among those the flag admits. -/
def located (flag : FindFlag) (comp : Bytes) (keys : List Bytes) : Option Bytes :=
  if flag.isBackward then (keys.filter (admits flag comp)).getLast? else (keys.filter (admits flag comp)).head?

def smaller (comp : Bytes) (keys : List Bytes) : List Bytes := keys.filter fun k => leading comp k < comp
def same (comp : Bytes) (keys : List Bytes) : List Bytes := keys.filter fun k => leading comp k = comp
def greater (comp : Bytes) (keys : List Bytes) : List Bytes := keys.filter fun k => comp < leading comp k

variable {comp : Bytes} {keys : List Bytes}

theorem leading_append (comp k : Bytes) : leading comp k ++ k.drop comp.length = k := take_append_drop ..

theorem length_leading {k : Bytes} (h : comp.length ≤ k.length) : (leading comp k).length = comp.length :=
  length_take_of_le h

theorem le_iff_leading {k : Bytes} (h : comp.length ≤ k.length) : comp ≤ k ↔ comp ≤ leading comp k := by
  constructor
  · intro hLe
    have hParts : comp ++ [] ≤ leading comp k ++ k.drop comp.length := by rwa [append_nil, leading_append]
    exact le_of_append_le_append (length_leading h).symm hParts
  · intro hLe
    exact hLe.trans (prefix_le ( take_prefix _ _))

theorem lt_iff_leading {k : Bytes} (h : comp.length ≤ k.length) : k < comp ↔ leading comp k < comp := by
  rw [← not_le, ← not_le, le_iff_leading h]

theorem leading_mono {x y : Bytes} (hx : comp.length ≤ x.length) (hy : comp.length ≤ y.length) (h : x < y) :
    leading comp x ≤ leading comp y := by
  rw [← not_lt]
  intro hLt
  have hBack := append_lt_append ((length_leading hy).trans (length_leading hx).symm) hLt (y.drop comp.length)
    (x.drop comp.length)
  rw [leading_append, leading_append] at hBack
  exact lt_asymm h hBack

section Blocks

variable (hSorted : keys.Pairwise (· < ·)) (hLong : ∀ k ∈ keys, comp.length ≤ k.length)
include hSorted hLong

theorem filter_ge : keys.filter (fun k => comp ≤ leading comp k) = same comp keys ++ greater comp keys := by
  have hParts := filter_append_filter (p := fun k => decide (leading comp k = comp))
    (hSorted.filter fun k => decide (comp ≤ leading comp k)) (by
      intro x hx y hy hLt hEq
      obtain ⟨hx, hGe⟩ := List.mem_filter.mp hx
      have hLe := leading_mono (hLong x hx) (hLong y (mem_of_mem_filter hy)) hLt
      rw [of_decide_eq_true hEq] at hLe
      exact decide_eq_true (le_antisymm hLe (of_decide_eq_true hGe)))
  rw [← hParts, List.filter_filter, List.filter_filter, same, greater]
  congr 1
  · refine filter_congr fun k _ => ?_
    rw [Bool.eq_iff_iff, Bool.and_eq_true_iff, decide_eq_true_iff, decide_eq_true_iff]
    exact ⟨fun h => h.1, fun h => ⟨h, h.ge⟩⟩
  · refine filter_congr fun k _ => ?_
    rw [Bool.eq_iff_iff, Bool.and_eq_true_iff, Bool.not_eq_true', decide_eq_false_iff_not, decide_eq_true_iff,
      decide_eq_true_iff, lt_iff_le_and_ne, and_comm, ne_comm]

theorem filter_le : keys.filter (fun k => leading comp k ≤ comp) = smaller comp keys ++ same comp keys := by
  have hParts := filter_append_filter (p := fun k => decide (leading comp k < comp))
    (hSorted.filter fun k => decide (leading comp k ≤ comp)) (by
      intro x hx y hy hLt hSmall
      have hLe := leading_mono (hLong x (mem_of_mem_filter hx)) (hLong y (mem_of_mem_filter hy)) hLt
      exact decide_eq_true (hLe.trans_lt (of_decide_eq_true hSmall)))
  rw [← hParts, List.filter_filter, List.filter_filter, same, smaller]
  congr 1
  · refine filter_congr fun k _ => ?_
    rw [Bool.eq_iff_iff, Bool.and_eq_true_iff, decide_eq_true_iff, decide_eq_true_iff]
    exact ⟨fun h => h.1, fun h => ⟨h, h.le⟩⟩
  · refine filter_congr fun k _ => ?_
    rw [Bool.eq_iff_iff, Bool.and_eq_true_iff, Bool.not_eq_true', decide_eq_false_iff_not, decide_eq_true_iff,
      decide_eq_true_iff, not_lt, and_comm, ← le_antisymm_iff]

theorem located_eq (flag : FindFlag) : located flag comp keys = match flag with
      | .keyExact | .prefixAny => (same comp keys).head?
      | .prefixLast => (same comp keys).getLast?
      | .keyOrNext => (same comp keys ++ greater comp keys).head?
      | .afterKey => (greater comp keys).head?
      | .keyOrPrev | .prefixLastOrPrev => (smaller comp keys ++ same comp keys).getLast?
      | .beforeKey => (smaller comp keys).getLast? := by
  cases flag with
  | keyExact | prefixAny | prefixLast => rfl
  | keyOrNext => exact congrArg head? (filter_ge hSorted hLong)
  | afterKey => rfl
  | keyOrPrev | prefixLastOrPrev => exact congrArg getLast? (filter_le hSorted hLong)
  | beforeKey => rfl

end Blocks

end Meaning

section Reads

variable {ι : Type} (T : Setup ι)

def rowKeys : List Bytes := (T.dataKeys.filter isDataKey).map (drop 1)

def metaBelow : Bool := T.dataKeys.any fun k => !isDataKey k && decide (k < [keyNsData])

def Answers (s : Scan ι) : Option Bytes → Prop
  | some pk => s.result = none ∧ s.record = ⟨T.row pk, pk⟩
  | none => s.result = some .keyNotFound ∨ s.result = some .endOfFile

structure Quiet (env : Env) : Prop where
  iter : env.iterError = none
  fetch : ∀ phase pk, env.fetchError phase pk = none
  alive : ∀ ik, env.killedAt ik = false
  read : ∀ key, env.readFails key = false

variable {T}

theorem Answers.unique {s : Scan ι} {a b : Option Bytes} (ha : Answers T s a) (hb : Answers T s b) : a = b := by
  cases a with
  | none =>
    cases b with
    | none => rfl
    | some pk =>
      rw [Answers, hb.1] at ha
      simp at ha
  | some pk =>
    cases b with
    | none =>
      rw [Answers, ha.1] at hb
      simp at hb
    | some pk' =>
      have hRecord := ha.2.symm.trans hb.2
      rw [Record.mk.injEq] at hRecord
      rw [hRecord.2]

theorem dataKey_eq {k : Bytes} (h : isDataKey k = true) : keyNsData :: k.drop 1 = k := by
  cases k with
  | nil => cases h
  | cons b k =>
    rw [isDataKey, head?_cons, beq_iff_eq, some_inj] at h
    rw [h, drop_one, tail_cons]

theorem lt_of_not_isDataKey {k r : Bytes} (h : isDataKey k = false) : k < keyNsData :: r ↔ k < [keyNsData] := by
  cases k with
  | nil => simp
  | cons b k =>
    have hNe : b ≠ keyNsData := by
      rintro rfl
      cases h
    simp [cons_lt_cons_iff, hNe]

theorem mem_rowKeys {r : Bytes} : r ∈ rowKeys T ↔ keyNsData :: r ∈ T.dataKeys := by
  rw [rowKeys, List.mem_map]
  constructor
  · rintro ⟨k, hk, rfl⟩
    obtain ⟨hMem, hData⟩ := List.mem_filter.mp hk
    rwa [dataKey_eq hData]
  · intro h
    exact ⟨_, List.mem_filter.mpr ⟨h, rfl⟩, rfl⟩

theorem rowKeys_sorted : (rowKeys T).Pairwise (· < ·) := by
  rw [rowKeys, pairwise_map]
  refine (T.dataKeys_sorted.filter isDataKey).imp_of_mem fun {a b} ha hb hLt => ?_
  rw [← dataKey_eq (mem_filter.mp ha).2, ← dataKey_eq (mem_filter.mp hb).2, cons_lt_cons_iff] at hLt
  obtain hHead | ⟨-, hTail⟩ := hLt
  · exact absurd hHead (lt_irrefl _)
  · exact hTail

theorem map_filter_rows {q q' : Bytes → Bool} (hq : ∀ r, q (keyNsData :: r) = q' r) :
    ((T.dataKeys.filter q).filter isDataKey).map (List.drop 1) = (rowKeys T).filter q' := by
  rw [rowKeys, List.filter_map, List.filter_filter, List.filter_filter]
  refine congrArg (map _) (filter_congr fun k _ => ?_)
  cases hData : isDataKey k with
  | false => simp
  | true => rw [Bool.true_and, Bool.and_true, Function.comp_apply, ← hq, dataKey_eq hData]

section

variable (comp r : Bytes)

theorem atLeast_cons : atLeast (keyNsData :: comp) (keyNsData :: r) = decide (comp ≤ r) := by
  rw [atLeast, decide_eq_decide, ← not_lt, ← not_lt, cons_lt_cons_iff]
  simp

theorem above_cons : above (keyNsData :: comp) (keyNsData :: r) = decide (comp < r) := by
  rw [above, decide_eq_decide, cons_lt_cons_iff]
  simp

theorem atMost_cons : atMost (keyNsData :: comp) (keyNsData :: r) = decide (r ≤ comp) :=
  atLeast_cons r comp

theorem below_cons : below (keyNsData :: comp) (keyNsData :: r) = decide (r < comp) :=
  above_cons r comp

end

section Current

variable {env : Env} {s : Scan ι} {found error : ScanDir}

theorem visitData_eq {fails : Bytes → Bool} (h : ∀ key, fails key = false) :
    visitData T fails = fun (rcd : Record ι) (k : Bytes) =>
      if isDataKey k then (.found, ⟨T.row (k.drop 1), k.drop 1⟩) else (.skip, rcd) := by
  funext rcd k
  rw [visitData, h, if_neg Bool.false_ne_true]

theorem answers_finish_scan {fails : Bytes → Bool} (h : ∀ key, fails key = false) (s : Scan ι)
    (found error : ScanDir) (p : List Bytes) :
    Answers T (s.finish .endOfFile found error (scan (visitData T fails) p s.record))
      ((p.filter isDataKey).map (drop 1)).head? := by
  rw [visitData_eq h, scan_find, head?_map, head?_filter]
  cases p.find? isDataKey with
  | none => exact .inr rfl
  | some k => exact ⟨rfl, rfl⟩

theorem answers_forward {q q' : Bytes → Bool} (hRead : ∀ key, env.readFails key = false)
    (hPos : s.pos = T.dataKeys.find? q) (hUp : ∀ x y, x < y → q x = true → q y = true)
    (hq : ∀ r, q (keyNsData :: r) = q' r) :
    Answers T (iterReadCurrent T env s found error) ((rowKeys T).filter q').head? := by
  rw [iterReadCurrent, hPos, ← map_filter_rows hq, walkForward_find (visitData T _) T.dataKeys_sorted hUp]
  exact answers_finish_scan hRead s found error _

theorem answers_backward {q q' : Bytes → Bool} (hRead : ∀ key, env.readFails key = false)
    (hPos : s.pos = T.dataKeys.reverse.find? q) (hDown : ∀ x y, x < y → q y = true → q x = true)
    (hq : ∀ r, q (keyNsData :: r) = q' r)
    (hMeta : ∀ k, isDataKey k = false → q k = decide (k < [keyNsData])) :
    Answers T (iterReadCurrent T env s found error)
      (((rowKeys T).filter q').getLast?.or
        (if metaBelow T then ((rowKeys T).filter fun r => !q' r).head? else none)) := by
  rw [iterReadCurrent, hPos, walkForward_reverse_find (visitData T _) T.dataKeys_sorted hDown,
    ← map_filter_rows hq, ← map_filter_rows (q := fun k => !q k) fun r => by rw [hq]]
  cases hLast : (T.dataKeys.filter q).getLast? with
  | none =>
    have hNil := getLast?_eq_none_iff.mp hLast
    have hNoMeta : metaBelow T = false := by
      rw [metaBelow, List.any_eq_false]
      intro k hk hBelow
      rw [Bool.and_eq_true_iff, Bool.not_eq_true'] at hBelow
      have hqk : q k = true := by rw [hMeta k hBelow.1, hBelow.2]
      exact filter_eq_nil_iff.mp hNil k hk hqk
    rw [hNil, hNoMeta]
    exact .inr rfl
  | some k =>
    obtain ⟨before, hBefore⟩ := getLast?_eq_some_iff.mp hLast
    obtain ⟨hk, hqk⟩ := mem_filter.mp (hBefore ▸ mem_append_right before mem_cons_self : k ∈ T.dataKeys.filter q)
    dsimp only
    have hScan := answers_finish_scan (T := T) hRead s found error (k :: T.dataKeys.filter fun k => !q k)
    cases hData : isDataKey k with
    | true =>
      rw [filter_cons_of_pos hData, map_cons, head?_cons] at hScan
      rw [hBefore, filter_append, filter_cons_of_pos hData, filter_nil, map_append, map_singleton,
        getLast?_append, getLast?_singleton, some_or, some_or]
      exact hScan
    | false =>
      have hLow : k < [keyNsData] := of_decide_eq_true ((hMeta k hData).symm.trans hqk)
      have hNoRow : (T.dataKeys.filter q).filter isDataKey = [] := by
        rw [filter_eq_nil_iff, hBefore]
        intro x hx hxData
        have hAbove : k < x := by
          rw [← dataKey_eq hxData]
          exact (lt_of_not_isDataKey hData).mpr hLow
        have hSorted := T.dataKeys_sorted.filter q
        rw [hBefore] at hSorted
        obtain hx | hx := mem_append.mp hx
        · exact lt_asymm hAbove ((pairwise_append.mp hSorted).2.2 x hx k mem_cons_self)
        · rw [mem_singleton.mp hx] at hAbove
          exact lt_irrefl k hAbove
      have hHasMeta : metaBelow T = true := by
        rw [metaBelow, List.any_eq_true]
        exact ⟨k, hk, by rw [hData, decide_eq_true hLow]; rfl⟩
      rw [filter_cons_of_neg (by simp [hData])] at hScan
      rw [hNoRow, hHasMeta]
      exact hScan

end Current

def Full (T : Setup ι) (comp : Bytes) : Prop := comparableKeyLength T.pkParts ≤ comp.length

instance (T : Setup ι) (comp : Bytes) : Decidable (Full T comp) := inferInstanceAs (Decidable (_ ≤ _))

def pastMeta (T : Setup ι) (rest : List Bytes) : Option Bytes := if metaBelow T then rest.head? else none

def pkResult (T : Setup ι) (comp : Bytes) (flag : FindFlag) : Option Bytes :=
  let s := smaller comp (rowKeys T)
  let e := same comp (rowKeys T)
  let g := greater comp (rowKeys T)
  match flag with
  | .keyExact => if Full T comp then e.head? else (e ++ g).head?
  | .prefixAny | .keyOrNext => (e ++ g).head?
  | .afterKey => if Full T comp then g.head? else (e ++ g).head?
  | .beforeKey => s.getLast?.or (pastMeta T (e ++ g))
  | .keyOrPrev | .prefixLast | .prefixLastOrPrev =>
    if Full T comp then (s ++ e).getLast?.or (pastMeta T g) else s.getLast?.or (pastMeta T (e ++ g))

section Positions

variable {env : Env} {s : Scan ι} {comp : Bytes}

theorem ensureScanIter_ok (hQuiet : Quiet env) (s : Scan ι) :
    ∃ i, ensureScanIter env s = .ok { s with scanIter := i } := by
  rw [ensureScanIter, hQuiet.iter]
  cases s.scanIter with
  | none => exact ⟨some none, rfl⟩
  | some i => exact ⟨s.scanIter, rfl⟩

theorem pos_afterKey {s : Scan ι} {k : Bytes} (hPk : T.isPk = true) (hPos : s.pos = seek T.dataKeys k)
    (flag : FindFlag) :
    (if flag = .afterKey ∧ s.pos = some k then s.iterNext T else s).pos =
      T.dataKeys.find? (if flag = .afterKey then above k else atLeast k) := by
  by_cases hFlag : flag = .afterKey
  · rw [if_pos hFlag]
    by_cases hAt : s.pos = some k
    · rw [if_pos ⟨hFlag, hAt⟩, Scan.iterNext, hAt, Setup.scanKeys, if_pos hPk]
      rfl
    · rw [if_neg fun hBoth => hAt hBoth.2, hPos]
      exact seek_of_ne (hPos ▸ hAt)
  · rw [if_neg hFlag, if_neg fun hBoth => hFlag hBoth.1, hPos]
    rfl

theorem pos_beforeKey {s : Scan ι} {k : Bytes} (hPk : T.isPk = true) (hPos : s.pos = seekForPrev T.dataKeys k)
    (flag : FindFlag) :
    (if flag = .beforeKey ∧ s.pos = some k then s.iterPrev T else s).pos =
      T.dataKeys.reverse.find? (if flag = .beforeKey then below k else atMost k) := by
  by_cases hFlag : flag = .beforeKey
  · rw [if_pos hFlag]
    by_cases hAt : s.pos = some k
    · rw [if_pos ⟨hFlag, hAt⟩, Scan.iterPrev, hAt, Setup.scanKeys, if_pos hPk]
      rfl
    · rw [if_neg fun hBoth => hAt hBoth.2, hPos]
      exact seekForPrev_of_ne (hPos ▸ hAt)
  · rw [if_neg hFlag, if_neg fun hBoth => hFlag hBoth.1, hPos]
    rfl

/-- The rows are stored under keys of one length, of which the search key is a part. -/
structure Stored (T : Setup ι) (comp : Bytes) : Prop where
  isPk : T.isPk = true
  length : ∀ k ∈ rowKeys T, k.length = comparableKeyLength T.pkParts
  search : comp.length ≤ comparableKeyLength T.pkParts

variable (h : Stored T comp)
include h

theorem Stored.long {k : Bytes} (hk : k ∈ rowKeys T) : comp.length ≤ k.length := h.length k hk ▸ h.search

theorem Stored.filter_ge_bytes : (rowKeys T).filter (fun r => comp ≤ r) = same comp (rowKeys T) ++
    greater comp (rowKeys T) := by
  rw [← filter_ge rowKeys_sorted fun k => h.long]
  refine filter_congr fun k hk => ?_
  rw [decide_eq_decide, le_iff_leading (h.long hk)]

theorem Stored.filter_lt_bytes : (rowKeys T).filter (fun r => r < comp) = smaller comp (rowKeys T) := by
  refine filter_congr fun k hk => ?_
  rw [decide_eq_decide, lt_iff_leading (h.long hk)]

theorem Stored.leading_of_full (hFull : Full T comp) {k : Bytes} (hk : k ∈ rowKeys T) : leading comp k = k :=
  take_of_length_le (h.length k hk ▸ hFull)

theorem Stored.filter_gt_bytes : (rowKeys T).filter (fun r => comp < r) =
    if Full T comp then greater comp (rowKeys T) else same comp (rowKeys T) ++ greater comp (rowKeys T) := by
  split
  · rename_i hFull
    refine filter_congr fun k hk => ?_
    rw [h.leading_of_full hFull hk]
  · rename_i hPart
    rw [← h.filter_ge_bytes]
    refine filter_congr fun k hk => ?_
    rw [decide_eq_decide]
    refine ⟨le_of_lt, fun hLe => lt_of_le_of_ne hLe ?_⟩
    rintro rfl
    exact hPart (h.length comp hk).ge

theorem Stored.filter_le_bytes : (rowKeys T).filter (fun r => r ≤ comp) =
    if Full T comp then smaller comp (rowKeys T) ++ same comp (rowKeys T) else smaller comp (rowKeys T) := by
  split
  · rename_i hFull
    rw [← filter_le rowKeys_sorted fun k => h.long]
    refine filter_congr fun k hk => ?_
    rw [h.leading_of_full hFull hk]
  · rename_i hPart
    rw [← h.filter_lt_bytes]
    refine filter_congr fun k hk => ?_
    rw [decide_eq_decide]
    refine ⟨fun hLe => lt_of_le_of_ne hLe ?_, le_of_lt⟩
    rintro rfl
    exact hPart (h.length k hk).ge

theorem Stored.same_of_full (hFull : Full T comp) :
    (same comp (rowKeys T)).head? = if comp ∈ rowKeys T then some comp else none := by
  have hSame : same comp (rowKeys T) = (rowKeys T).filter fun r => decide (r = comp) :=
    filter_congr fun k hk => by rw [h.leading_of_full hFull hk]
  rw [hSame, head?_filter]
  split
  · rename_i hMem
    have hSome : ((rowKeys T).find? fun r => decide (r = comp)).isSome = true :=
      find?_isSome.mpr ⟨comp, hMem, decide_eq_true rfl⟩
    obtain ⟨r, hFind⟩ := Option.isSome_iff_exists.mp hSome
    have hEq := find?_some hFind
    rw [hFind, of_decide_eq_true hEq]
  · rename_i hNot
    rw [find?_eq_none]
    intro r hr hEq
    exact hNot (of_decide_eq_true hEq ▸ hr)

section

variable (hQuiet : Quiet env)
include hQuiet

theorem Stored.answers_point (hFull : Full T comp) :
    Answers T (indexReadPk T env s comp .keyExact) (same comp (rowKeys T)).head? := by
  rw [h.same_of_full hFull, indexReadPk, if_pos ⟨rfl, hFull⟩, fetchRowByPk, hQuiet.fetch, Setup.visible]
  by_cases hMem : comp ∈ rowKeys T
  · rw [if_pos hMem, if_pos (mem_rowKeys.mp hMem)]
    exact ⟨rfl, rfl⟩
  · rw [if_neg hMem, if_neg (mt mem_rowKeys.mpr hMem)]
    exact .inl rfl

theorem Stored.answers_forward_flag {flag : FindFlag} (hDir : flag.isBackward = false)
    (hScan : ¬(flag = .keyExact ∧ comparableKeyLength T.pkParts ≤ comp.length)) :
    Answers T (indexReadPk T env s comp flag)
      ((rowKeys T).filter fun r => if flag = .afterKey then decide (comp < r) else decide (comp ≤ r)).head? := by
  rw [indexReadPk, if_neg hScan]
  obtain ⟨i, hIter⟩ := ensureScanIter_ok hQuiet s
  rw [hIter]
  dsimp only
  rw [hDir, if_neg Bool.false_ne_true]
  refine answers_forward (q := if flag = .afterKey then above (keyNsData :: comp) else atLeast (keyNsData :: comp))
    hQuiet.read (pos_afterKey h.isPk rfl flag) ?_ ?_
  · split
    · exact above_up _
    · exact atLeast_up _
  · intro r
    split
    · exact above_cons comp r
    · exact atLeast_cons comp r

theorem Stored.answers_backward_flag {flag : FindFlag} (hDir : flag.isBackward = true) :
    Answers T (indexReadPk T env s comp flag)
      (((rowKeys T).filter fun r => if flag = .beforeKey then decide (r < comp) else decide (r ≤ comp)).getLast?.or
        (pastMeta T
          ((rowKeys T).filter fun r => !if flag = .beforeKey then decide (r < comp) else decide (r ≤ comp)))) := by
  have hScan : ¬(flag = .keyExact ∧ comparableKeyLength T.pkParts ≤ comp.length) := by
    rintro ⟨rfl, -⟩
    cases hDir
  rw [indexReadPk, if_neg hScan]
  obtain ⟨i, hIter⟩ := ensureScanIter_ok hQuiet s
  rw [hIter]
  dsimp only
  rw [hDir, if_pos rfl]
  refine answers_backward (q := if flag = .beforeKey then below (keyNsData :: comp) else atMost (keyNsData :: comp))
    hQuiet.read (pos_beforeKey h.isPk rfl flag) ?_ ?_ ?_
  · split
    · exact below_down _
    · exact atMost_down _
  · intro r
    split
    · exact below_cons comp r
    · exact atMost_cons comp r
  · intro k hData
    have hNe : k ≠ keyNsData :: comp := by
      rintro rfl
      cases hData
    split
    · exact decide_eq_decide.mpr (lt_of_not_isDataKey hData)
    · exact decide_eq_decide.mpr ⟨fun hLe => (lt_of_not_isDataKey hData).mp (lt_of_le_of_ne hLe hNe),
        fun hLt => ((lt_of_not_isDataKey hData).mpr hLt).le⟩

theorem Stored.answers [DecidableEq ι] (flag : FindFlag) :
    Answers T (indexReadMap T env s comp flag) (pkResult T comp flag) := by
  rw [indexReadMap, if_pos h.isPk]
  have hGreater : (rowKeys T).filter (fun r => !decide (r ≤ comp)) = (rowKeys T).filter fun r => decide (comp < r) :=
    filter_congr fun r _ => by rw [← decide_not, decide_eq_decide, not_le]
  have hNotSmaller : (rowKeys T).filter (fun r => !decide (r < comp)) = (rowKeys T).filter fun r => decide (comp ≤ r) :=
    filter_congr fun r _ => by rw [← decide_not, decide_eq_decide, not_lt]
  have hUpTo
    (hScan : Answers T (indexReadPk T env { s with idxSearchComp := comp, pkPartialExactActive := false } comp flag)
        (((rowKeys T).filter fun r => decide (r ≤ comp)).getLast?.or
          (pastMeta T ((rowKeys T).filter fun r => !decide (r ≤ comp))))) :
      Answers T (indexReadPk T env { s with idxSearchComp := comp, pkPartialExactActive := false } comp flag)
        (if Full T comp then (smaller comp (rowKeys T) ++ same comp (rowKeys T)).getLast?.or
            (pastMeta T (greater comp (rowKeys T)))
          else (smaller comp (rowKeys T)).getLast?.or
            (pastMeta T (same comp (rowKeys T) ++ greater comp (rowKeys T)))) := by
    rw [hGreater, h.filter_le_bytes, h.filter_gt_bytes] at hScan
    split
    · rename_i hFull
      rwa [if_pos hFull, if_pos hFull] at hScan
    · rename_i hPart
      rwa [if_neg hPart, if_neg hPart] at hScan
  cases flag with
  | keyExact =>
    rw [pkResult]
    split
    · rename_i hFull
      exact h.answers_point hQuiet hFull
    · rename_i hPart
      rw [← h.filter_ge_bytes]
      exact h.answers_forward_flag hQuiet rfl fun hBoth => hPart hBoth.2
  | keyOrNext | prefixAny =>
    rw [pkResult, ← h.filter_ge_bytes]
    exact h.answers_forward_flag hQuiet rfl (by simp)
  | afterKey =>
    have hScan := h.answers_forward_flag (s := { s with idxSearchComp := comp, pkPartialExactActive := false }) hQuiet
      (rfl : FindFlag.afterKey.isBackward = false) (by simp)
    simp only [if_true] at hScan
    rw [h.filter_gt_bytes] at hScan
    rw [pkResult]
    split
    · rename_i hFull
      rwa [if_pos hFull] at hScan
    · rename_i hPart
      rwa [if_neg hPart] at hScan
  | beforeKey =>
    rw [pkResult, ← h.filter_lt_bytes, ← h.filter_ge_bytes, ← hNotSmaller]
    exact h.answers_backward_flag hQuiet rfl
  | keyOrPrev | prefixLast | prefixLastOrPrev => exact hUpTo (h.answers_backward_flag hQuiet rfl)

end

end Positions

section Condition

variable (T)

def Clear (rest : List Bytes) : Prop := metaBelow T = false ∨ rest = []

/-- There is one row with the given parts, none before it, and keys of other kinds below. -/
def Lucky (comp : Bytes) : Prop :=
  smaller comp (rowKeys T) = [] ∧ metaBelow T = true ∧ (same comp (rowKeys T)).length = 1

def Met (comp : Bytes) (flag : FindFlag) : Prop :=
  let s := smaller comp (rowKeys T)
  let e := same comp (rowKeys T)
  let g := greater comp (rowKeys T)
  match flag with
  | .keyExact => Full T comp ∨ e ≠ [] ∨ g = []
  | .prefixAny => e ≠ [] ∨ g = []
  | .keyOrNext => True
  | .afterKey => Full T comp ∨ e = []
  | .beforeKey => s ≠ [] ∨ Clear T (e ++ g)
  | .keyOrPrev | .prefixLastOrPrev =>
    if Full T comp then s ++ e ≠ [] ∨ Clear T g else if e = [] then s ≠ [] ∨ Clear T g else Lucky T comp
  | .prefixLast => if e = [] then s = [] ∧ Clear T g else Full T comp ∨ Lucky T comp

variable {T} {comp : Bytes}

theorem pastMeta_eq_none (rest : List Bytes) : pastMeta T rest = none ↔ Clear T rest := by
  rw [pastMeta, Clear]
  cases metaBelow T with
  | false | true => simp

theorem or_pastMeta_eq_none (l rest : List Bytes) : l.getLast?.or (pastMeta T rest) = none ↔ l = [] ∧ Clear T rest := by
  rw [or_eq_none_iff, getLast?_eq_none_iff, pastMeta_eq_none]

theorem or_pastMeta_eq_getLast (l rest : List Bytes) :
    l.getLast?.or (pastMeta T rest) = l.getLast? ↔ l ≠ [] ∨ Clear T rest := by
  cases hLast : l.getLast? with
  | none =>
    rw [getLast?_eq_none_iff] at hLast
    simp [hLast, pastMeta_eq_none]
  | some x =>
    have hNe : l ≠ [] := by
      rintro rfl
      cases hLast
    simp [hNe]

theorem mem_of_getLast? {l : List Bytes} {x : Bytes} (h : l.getLast? = some x) : x ∈ l := by
  obtain ⟨before, rfl⟩ := getLast?_eq_some_iff.mp h
  exact mem_append_right before mem_cons_self

theorem leading_of_mem_same {keys : List Bytes} {x : Bytes} (h : x ∈ same comp keys) : leading comp x = comp :=
  of_decide_eq_true (mem_filter.mp h).2

theorem head_ne_greater {keys : List Bytes} (h : same comp keys ≠ []) :
    (same comp keys).head? ≠ (greater comp keys).head? := by
  intro hEq
  cases hHead : (same comp keys).head? with
  | none => exact h (head?_eq_none_iff.mp hHead)
  | some y =>
    have hMem : y ∈ greater comp keys := mem_of_mem_head? (hEq.symm.trans hHead)
    have hGreater := of_decide_eq_true (mem_filter.mp hMem).2
    rw [leading_of_mem_same (mem_of_mem_head? hHead)] at hGreater
    exact lt_irrefl comp hGreater

theorem getLast_ne_smaller {keys : List Bytes} (hSame : same comp keys ≠ []) :
    (smaller comp keys).getLast? ≠ (same comp keys).getLast? := by
  intro hEq
  cases hLast : (same comp keys).getLast? with
  | none => exact hSame (getLast?_eq_none_iff.mp hLast)
  | some y =>
    have hLt := of_decide_eq_true (mem_filter.mp (mem_of_getLast? (hEq.trans hLast))).2
    rw [leading_of_mem_same (mem_of_getLast? hLast)] at hLt
    exact lt_irrefl comp hLt

theorem head_eq_getLast_iff {l : List Bytes} (hSorted : l.Pairwise (· < ·)) (hNe : l ≠ []) :
    l.head? = l.getLast? ↔ l.length = 1 := by
  cases l with
  | nil => exact absurd rfl hNe
  | cons a t =>
    cases hLast : t.getLast? with
    | none =>
      rw [getLast?_eq_none_iff.mp hLast]
      simp
    | some b =>
      have hLt : a < b := rel_of_pairwise_cons hSorted (mem_of_getLast? hLast)
      have hLen : t ≠ [] := by
        rintro rfl
        cases hLast
      rw [head?_cons, getLast?_cons, hLast]
      simp [hLt.ne, hLen]

theorem lucky_iff (hSame : same comp (rowKeys T) ≠ []) :
    (smaller comp (rowKeys T)).getLast?.or (pastMeta T (same comp (rowKeys T) ++ greater comp (rowKeys T))) =
      (same comp (rowKeys T)).getLast? ↔ Lucky T comp := by
  rw [Lucky]
  by_cases hSmaller : smaller comp (rowKeys T) = []
  · rw [hSmaller, getLast?_nil, none_or, pastMeta]
    cases metaBelow T with
    | false =>
      simp only [Bool.false_eq_true, if_false, false_and, and_false, iff_false]
      exact fun hEq => hSame (getLast?_eq_none_iff.mp hEq.symm)
    | true =>
      have hSorted : (same comp (rowKeys T)).Pairwise (· < ·) := rowKeys_sorted.filter _
      rw [if_pos rfl, head?_append_of_ne_nil _ hSame, head_eq_getLast_iff hSorted hSame]
      simp
  · have hSome : (smaller comp (rowKeys T)).getLast?.or
        (pastMeta T (same comp (rowKeys T) ++ greater comp (rowKeys T))) = (smaller comp (rowKeys T)).getLast? :=
      (or_pastMeta_eq_getLast _ _).mpr (.inl hSmaller)
    rw [hSome]
    exact iff_of_false (getLast_ne_smaller hSame) fun hLucky => hSmaller hLucky.1

theorem pkResult_eq_located_iff (h : Stored T comp) (flag : FindFlag) :
    pkResult T comp flag = located flag comp (rowKeys T) ↔ Met T comp flag := by
  rw [located_eq rowKeys_sorted fun k => h.long]
  have hNext : (same comp (rowKeys T) ++ greater comp (rowKeys T)).head? = (same comp (rowKeys T)).head? ↔
      same comp (rowKeys T) ≠ [] ∨ greater comp (rowKeys T) = [] := by
    by_cases hSame : same comp (rowKeys T) = []
    · simp [hSame, head?_eq_none_iff]
    · simp [head?_append_of_ne_nil _ hSame, hSame]
  have hPrev : (if Full T comp then (smaller comp (rowKeys T) ++ same comp (rowKeys T)).getLast?.or
        (pastMeta T (greater comp (rowKeys T)))
      else (smaller comp (rowKeys T)).getLast?.or (pastMeta T (same comp (rowKeys T) ++ greater comp (rowKeys T)))) =
      (smaller comp (rowKeys T) ++ same comp (rowKeys T)).getLast? ↔ Met T comp .keyOrPrev := by
    rw [Met]
    split
    · exact or_pastMeta_eq_getLast _ _
    · split
      · rename_i hSame
        rw [hSame, append_nil, nil_append]
        exact or_pastMeta_eq_getLast _ _
      · rename_i hSame
        rw [getLast?_append_of_ne_nil _ hSame]
        exact lucky_iff hSame
  cases flag with
  | keyExact =>
    rw [pkResult, Met]
    split
    · rename_i hFull
      exact iff_of_true rfl (.inl hFull)
    · rename_i hPart
      rw [hNext, or_iff_right hPart]
  | prefixAny => exact hNext
  | keyOrNext => exact iff_of_true rfl trivial
  | afterKey =>
    rw [pkResult, Met]
    split
    · rename_i hFull
      exact iff_of_true rfl (.inl hFull)
    · rename_i hPart
      rw [or_iff_right hPart]
      by_cases hSame : same comp (rowKeys T) = []
      · simp [hSame]
      · rw [head?_append_of_ne_nil _ hSame]
        exact iff_of_false (head_ne_greater hSame) hSame
  | beforeKey => exact or_pastMeta_eq_getLast _ _
  | keyOrPrev | prefixLastOrPrev => exact hPrev
  | prefixLast =>
    rw [pkResult, Met]
    by_cases hSame : same comp (rowKeys T) = []
    · rw [if_pos hSame, hSame, append_nil, nil_append, ite_self, getLast?_nil]
      exact or_pastMeta_eq_none _ _
    · rw [if_neg hSame]
      split
      · rename_i hFull
        refine iff_of_true ?_ (.inl hFull)
        rw [getLast?_append_of_ne_nil _ hSame]
        cases hLast : (same comp (rowKeys T)).getLast? with
        | none => exact absurd (getLast?_eq_none_iff.mp hLast) hSame
        | some y => rfl
      · rename_i hPart
        rw [or_iff_right hPart]
        exact lucky_iff hSame

end Condition

section Searches

/-- The bytes of the first `n` parts of a search key; the server gives at least one. -/
def keyCopyToComparable (S : SortStrings ι) (parts : List (KeyPart ι)) (n : Nat) (key : Row ι) : Bytes :=
  makeComparableKey S (parts.take (if n = 0 then 1 else n)) key

def RowsKeyed (T : Setup ι) : Prop := ∀ k ∈ rowKeys T, ∃ r, k = makeComparableKey T.sorts T.pkParts r

section

variable (S : SortStrings ι) (parts : List (KeyPart ι)) (n : Nat)

theorem length_keyCopyToComparable (r r' : Row ι) :
    (keyCopyToComparable S parts n r).length = (keyCopyToComparable S parts n r').length := by
  rw [keyCopyToComparable, keyCopyToComparable, length_makeComparableKey, length_makeComparableKey]

end

theorem stored_of_keyed (hPk : T.isPk = true) (hKeyed : RowsKeyed T) (n : Nat) (key : Row ι) :
    Stored T (keyCopyToComparable T.sorts T.pkParts n key) where
  isPk := hPk
  length := by
    intro k hk
    obtain ⟨r, rfl⟩ := hKeyed k hk
    exact length_makeComparableKey _ _
  search := by
    rw [← length_makeComparableKey (S := T.sorts) T.pkParts key, keyCopyToComparable,
      makeComparableKey_take T.pkParts (if n = 0 then 1 else n) key, length_append]
    exact Nat.le_add_right _ _

/-- A read by primary key hands back the row its flag asks for exactly when the condition is met. -/
theorem index_read_map_located_iff [DecidableEq ι] {env : Env} (hPk : T.isPk = true) (hKeyed : RowsKeyed T)
    (hQuiet : Quiet env) (s : Scan ι) (n : Nat) (key : Row ι) (flag : FindFlag) :
    Answers T (indexReadMap T env s (keyCopyToComparable T.sorts T.pkParts n key) flag)
      (located flag (keyCopyToComparable T.sorts T.pkParts n key) (rowKeys T)) ↔
      Met T (keyCopyToComparable T.sorts T.pkParts n key) flag := by
  have hStored := stored_of_keyed hPk hKeyed n key
  have hAnswers := hStored.answers (s := s) hQuiet flag
  rw [← pkResult_eq_located_iff hStored flag]
  constructor
  · intro hLocated
    exact hAnswers.unique hLocated
  · intro hEq
    rwa [← hEq]

end Searches

end Reads

section Sample

def bytePart (c : Bool) : KeyPart Bool := ⟨⟨c, false, .other, true, .bin, 1⟩, 1, false⟩

theorem length_padded (n : Nat) (v : Bytes) : ((v ++ replicate n 0).take n).length = n := by
  rw [length_take, length_append, length_replicate]
  omega

def bytesOf : SortStrings Bool := ⟨fun _ n v => (v ++ replicate n 0).take n, fun _ => length_padded⟩

def pairRow (k : Bytes) : Row Bool := fun c => some (if c then k.take 1 else k.drop 1)

def pairTable : Setup Bool where
  sorts := bytesOf
  idxParts := [bytePart true, bytePart false]
  pkParts := [bytePart true, bytePart false]
  hasUserPk := true
  isPk := true
  keyreadOnly := false
  readSet := []
  pushed := none
  entries := []
  dataKeys := [[0], [1, 1, 1], [1, 3, 1]]
  row := pairRow
  entries_sorted := List.Pairwise.nil
  dataKeys_sorted := by decide

def calm : Env := ⟨false, fun _ => false, none, fun _ _ => none, fun _ => false, id⟩

def fresh : Scan Bool := ⟨none, .none, [], false, false, [], false, 0, ⟨fun _ => none, []⟩, none, none⟩

theorem calm_quiet : Quiet calm := ⟨rfl, fun _ _ => rfl, fun _ => rfl, fun _ => rfl⟩

theorem pairTable_keyed : RowsKeyed pairTable := by
  have hAll : ∀ k ∈ rowKeys pairTable, k = makeComparableKey pairTable.sorts pairTable.pkParts (pairRow k) := by decide
  exact fun k hk => ⟨pairRow k, hAll k hk⟩

theorem index_read_map_located_first : Answers pairTable (indexReadMap pairTable calm fresh
        (keyCopyToComparable pairTable.sorts pairTable.pkParts 1 (pairRow [1, 0])) .keyExact)
      (located .keyExact (keyCopyToComparable pairTable.sorts pairTable.pkParts 1 (pairRow [1, 0]))
        (rowKeys pairTable)) :=
  (index_read_map_located_iff rfl pairTable_keyed calm_quiet fresh 1 (pairRow [1, 0]) .keyExact).mpr
    (.inr (.inl (by decide)))

/-- An exact read of the rows whose first column is 2, of which there is none, hands back (3, 1). -/
theorem other_prefix_returned : RowsKeyed pairTable ∧ Quiet calm ∧
      located .keyExact (keyCopyToComparable pairTable.sorts pairTable.pkParts 1 (pairRow [2, 0])) (rowKeys pairTable) =
        none ∧
      (indexReadMap pairTable calm fresh
        (keyCopyToComparable pairTable.sorts pairTable.pkParts 1 (pairRow [2, 0])) .keyExact).result = none ∧
      (indexReadMap pairTable calm fresh
        (keyCopyToComparable pairTable.sorts pairTable.pkParts 1 (pairRow [2, 0])) .keyExact).record.currentPk =
          [3, 1] :=
  ⟨pairTable_keyed, calm_quiet, by decide, by decide, by decide⟩

end Sample

end TideSql.PkPosition
