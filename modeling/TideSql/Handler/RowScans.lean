import TideSql.Handler.PkPosition

/-!
# Scans of the rows

A table scan with reads by position in between, a scan along the primary key, and the multi-range read of its points.
An iterator of another column family or transaction counts as none.
-/

namespace TideSql.RowScans
open KeyCodec SortKey IndexRead PkPosition Lib.ByteOrder Lib.Cursor List

variable {ι : Type} (T : Setup ι) (env : Env) (s : Scan ι)

def rndInit : Scan ι :=
  let s := { s with record := { s.record with currentPk := [] }, scanDir := .none }
  match ensureScanIter env s with
  | .error err => s.fail err
  | .ok s => { s with scanIter := some (seek T.dataKeys [keyNsData]), result := none }

def advance : Scan ι :=
  { s with scanIter := s.scanIter.map fun pos => if s.scanDir ≠ .none then pos.bind (next T.dataKeys) else pos }

def rndNext : Scan ι :=
  if env.killed then s.fail .queryInterrupted else iterReadCurrent T env (advance T s) .forward s.scanDir

def position (record : Row ι) : Bytes :=
  if T.hasUserPk then makeComparableKey T.sorts T.pkParts record else s.record.currentPk

def rndPos (pos : Bytes) : Scan ι :=
  match fetchRowByPk T env .read pos s.record with
  | (none, rcd) => { s with record := rcd, last := some (keyNsData :: pos), result := none }
  | (some err, rcd) => { s with record := rcd }.fail err

inductive Call where
  | next
  | pos (ref : Bytes)

def call : Env × Call → Scan ι
  | (env, .next) => rndNext T env s
  | (env, .pos ref) => rndPos T env s ref

def moves : Env × Call → Bool
  | (env, .next) => !env.killed
  | (_, .pos _) => false

/-- The first `n` rows, and no others, are before the position. -/
def Ahead (n : Nat) (pos : Option Bytes) : Prop := ∃ rest, rest <:+ T.dataKeys ∧ pos = rest.head? ∧
  rest.filter isDataKey = (T.dataKeys.filter isDataKey).drop n

def Ready (n : Nat) : Prop := Ahead T n (advance T s).pos

def ReadOn (n : Nat) : Prop := Answers T s (rowKeys T)[n]? ∧ Ready T s (n + 1)

variable {T env s} {n : Nat} {found error : ScanDir}

theorem ahead_seek : Ahead T 0 (seek T.dataKeys [keyNsData]) := by
  refine ⟨T.dataKeys.filter (atLeast [keyNsData]), filter_suffix T.dataKeys_sorted fun x _ y _ => atLeast_up _ x y,
    head?_filter.symm, ?_⟩
  rw [filter_comm]
  refine filter_eq_self.mpr fun k hk => ?_
  rw [← dataKey_eq (mem_filter.mp hk).2, atLeast_cons]
  exact decide_eq_true (prefix_le nil_prefix)

theorem Ahead.read (h : Ahead T n s.pos) (hRead : ∀ key, env.readFails key = false) (hFound : found ≠ .none) :
    ReadOn T (iterReadCurrent T env s found error) n := by
  obtain ⟨rest, hSuffix, hPos, hRest⟩ := h
  rw [iterReadCurrent, hPos, walkForward_of_suffix (visitData T _) T.dataKeys_sorted hSuffix, visitData_eq hRead,
    scan_find, ReadOn, Ready, Ahead, rowKeys, getElem?_map, ← head?_drop, ← tail_drop, ← hRest, head?_filter]
  cases hFind : rest.find? isDataKey with
  | none =>
    have hNil : rest.filter isDataKey = [] := filter_eq_nil_iff.mpr (find?_eq_none.mp hFind)
    refine ⟨.inr rfl, [], nil_suffix, ite_self none, ?_⟩
    rw [hNil, filter_nil, tail_nil]
  | some k =>
    obtain ⟨hData, before, after, rfl, hBefore⟩ := find?_eq_some_iff_append.mp hFind
    have hAt : k :: after <:+ T.dataKeys := (suffix_append before _).trans hSuffix
    have hNil : before.filter isDataKey = [] := filter_eq_nil_iff.mpr fun x hx => by simpa using hBefore x hx
    refine ⟨⟨rfl, rfl⟩, after, (suffix_cons k after).trans hAt, ?_, ?_⟩
    · rw [← next_of_suffix T.dataKeys_sorted hAt]
      simp [advance, Scan.pos, Scan.finish, hFound]
    · rw [filter_append, hNil, nil_append, filter_cons_of_pos hData, tail_cons]

theorem ready_rndInit (hIter : env.iterError = none) : Ready T (rndInit T env s) 0 := by
  rw [rndInit, ensureScanIter, hIter]
  cases s.scanIter with
  | none => exact ahead_seek
  | some i => exact ahead_seek

theorem Ready.rndNext (h : Ready T s n) (hRead : ∀ key, env.readFails key = false) (hAlive : env.killed = false) :
    ReadOn T (rndNext T env s) n := by
  rw [RowScans.rndNext, hAlive, if_neg Bool.false_ne_true]
  exact Ahead.read h hRead (by simp)

theorem Ready.call (h : Ready T s n) (c : Env × Call) (hRead : ∀ key, c.1.readFails key = false) :
    Ready T (call T s c) (n + if moves c then 1 else 0) := by
  obtain ⟨env, _ | ref⟩ := c
  · cases hKilled : env.killed with
    | false =>
      rw [moves, hKilled]
      exact (h.rndNext hRead hKilled).2
    | true =>
      rw [moves, RowScans.call, RowScans.rndNext, hKilled]
      exact h
  · rw [RowScans.call, rndPos]
    split <;> exact h

theorem Ready.calls (h : Ready T s n) (cs : List (Env × Call)) (hReads : ∀ c ∈ cs, ∀ key, c.1.readFails key = false) :
    Ready T (cs.foldl (RowScans.call T) s) (n + cs.countP moves) := by
  induction cs generalizing s n with
  | nil => exact h
  | cons c cs ih =>
    have hRest := ih (h.call c (hReads c mem_cons_self)) fun c' hc' => hReads c' (mem_cons_of_mem c hc')
    rwa [Nat.add_assoc, Nat.add_comm (ite _ _ _), ← countP_cons] at hRest

/-- Whatever reads by position come between them, the calls of `rnd_next` hand out the rows in the order of their keys
while the iterator can be read, and a row's position reads it again from any state. -/
theorem rnd_next_row_of_count (hIter : env.iterError = none) (s : Scan ι) (cs : List (Env × Call))
    (hReads : ∀ c ∈ cs, ∀ key, c.1.readFails key = false) {env' : Env} (hAlive : env'.killed = false)
    (hRead : ∀ key, env'.readFails key = false) :
    let s' := rndNext T env' (cs.foldl (call T) (rndInit T env s))
    Answers T s' (rowKeys T)[cs.countP moves]? ∧
      ((T.hasUserPk = true → ∀ k ∈ rowKeys T, makeComparableKey T.sorts T.pkParts (T.row k) = k) →
        ∀ pk ∈ (rowKeys T)[cs.countP moves]?, ∀ env'', Quiet env'' → ∀ s'',
          Answers T (rndPos T env'' s'' (position T s' s'.record.buf)) (some pk)) := by
  intro s'
  have hRow := (((ready_rndInit (T := T) (s := s) hIter).calls cs hReads).rndNext hRead hAlive).1
  rw [Nat.zero_add] at hRow
  refine ⟨hRow, fun hKeyed pk hpk env'' hQuiet s'' => ?_⟩
  have hMem := mem_of_getElem? hpk
  rw [hpk] at hRow
  have hRef : position T s' s'.record.buf = pk := by
    rw [position, hRow.2]
    split
    · rename_i hUser
      exact hKeyed hUser pk hMem
    · rfl
  rw [hRef, rndPos, fetchRowByPk, hQuiet.fetch, Setup.visible, if_pos (mem_rowKeys.mp hMem)]
  exact ⟨rfl, rfl⟩

/-- The calls before are one that reads a row, a killed one and a lookup by position that fails. -/
theorem rnd_next_row_of_count_pair :
    let s' := rndNext pairTable calm ([(calm, .next), ({ calm with killed := true }, .next),
      ({ calm with fetchError := fun _ _ => some 1 }, .pos [3, 1])].foldl (call pairTable)
        (rndInit pairTable calm fresh))
    Answers pairTable s' (some [3, 1]) ∧
      Answers pairTable (rndPos pairTable calm fresh (position pairTable s' s'.record.buf)) (some [3, 1]) := by
  have hReads : ∀ c ∈ [(calm, Call.next), ({ calm with killed := true }, .next),
      ({ calm with fetchError := fun _ _ => some 1 }, .pos [3, 1])], ∀ key, c.1.readFails key = false := by
    simp [calm]
  have hScan := rnd_next_row_of_count (T := pairTable) (rfl : calm.iterError = none) fresh _ hReads rfl calm_quiet.read
  exact ⟨hScan.1, hScan.2 (fun _ => by decide) [3, 1] rfl calm calm_quiet fresh⟩

section Index

structure Open (s : Scan ι) : Prop where
  exact : s.idxPkExactDone = false
  partly : s.pkPartialExactActive = false
  iter : s.scanIter.isSome = true

theorem open_read (hExact : s.idxPkExactDone = false) (hPartly : s.pkPartialExactActive = false) :
    Open (iterReadCurrent T env s found error) := by
  rw [iterReadCurrent]
  unfold Scan.finish
  split <;> exact ⟨hExact, hPartly, rfl⟩

theorem read_forward : { iterReadCurrent T env s found error with scanDir := .forward } =
    iterReadCurrent T env { s with scanDir := .forward } .forward .forward := by
  show _ = Scan.finish _ _ _ _ (walkForward T.dataKeys (visitData T env.readFails) s.pos s.record)
  rw [iterReadCurrent]
  obtain ⟨_ | ⟨k, _ | _ | _ | code⟩ | k, rcd⟩ := walkForward T.dataKeys (visitData T env.readFails) s.pos s.record
  all_goals rfl

variable [DecidableEq ι]

theorem Ready.indexNext (h : Ready T s n) (hPk : T.isPk = true) (hOpen : Open s) (hQuiet : Quiet env)
    (hAlive : env.killed = false) :
    ReadOn T (indexNext T env s) n ∧ Open (indexNext T env s) := by
  obtain ⟨i, hIter⟩ := Option.isSome_iff_exists.mp hOpen.iter
  have hMoved : (if s.scanDir ≠ .none then s.iterNext T else s) = advance T s := by
    rw [advance, Scan.iterNext, Setup.scanKeys, if_pos hPk, Scan.pos, hIter]
    split
    · rfl
    · exact congrArg (fun iter => { s with scanIter := iter }) hIter
  rw [IndexRead.indexNext, hAlive, if_neg Bool.false_ne_true, ensureScanIter, hIter]
  dsimp only
  rw [hOpen.exact, if_neg Bool.false_ne_true, hMoved, if_pos hPk,
    if_neg (by simp [(open_read (T := T) (s := advance T s) hOpen.exact hOpen.partly).partly]), read_forward]
  exact ⟨Ahead.read h hQuiet.read (by simp), open_read hOpen.exact hOpen.partly⟩

theorem indexFirst_readOn (hPk : T.isPk = true) (hPartly : s.pkPartialExactActive = false) (hQuiet : Quiet env) :
    ReadOn T (indexFirst T env s) 0 ∧ Open (indexFirst T env s) := by
  obtain ⟨i, hOk⟩ := ensureScanIter_ok hQuiet { s with idxPkExactDone := false }
  rw [indexFirst, hOk]
  dsimp only
  rw [if_pos hPk]
  exact ⟨Ahead.read ahead_seek hQuiet.read (by simp), open_read rfl hPartly⟩

/-- A scan from the first row on along the primary key hands out the rows of a table scan, in the same order. -/
theorem index_next_row_of_count (hPk : T.isPk = true) (hQuiet : Quiet env) (hAlive : env.killed = false) (s : Scan ι)
    (hPartly : s.pkPartialExactActive = false) (n : Nat) :
    Answers T ((indexNext T env)^[n] (indexFirst T env s)) (rowKeys T)[n]? := by
  have hRun : ReadOn T ((indexNext T env)^[n] (indexFirst T env s)) n ∧
      Open ((indexNext T env)^[n] (indexFirst T env s)) := by
    induction n with
    | zero => exact indexFirst_readOn hPk hPartly hQuiet
    | succ n ih =>
      rw [Function.iterate_succ_apply']
      exact ih.1.2.indexNext hPk ih.2 hQuiet hAlive
  exact hRun.1.1

theorem index_next_row_of_count_pair :
    Answers pairTable (indexNext pairTable calm (indexFirst pairTable calm fresh)) (some [3, 1]) :=
  index_next_row_of_count (T := pairTable) rfl calm_quiet rfl fresh rfl 1

end Index

section MultiRange

variable [DecidableEq ι]

/-- The ranges at whose point there is a row. -/
def pointRows (T : Setup ι) (ranges : List MrrEntry) : List MrrEntry :=
  ranges.filter fun e => (T.visible e.compKey).isSome

theorem mrrLoop_answers (hPk : T.isPk = true) (hQuiet : Quiet env) (ranges : List MrrEntry) :
    Answers T (mrrLoop T env ranges s) ((pointRows T ranges).head?.map MrrEntry.compKey) ∧
      pointRows T (mrrLoop T env ranges s).mrrEntries = (pointRows T ranges).tail ∧
      (mrrLoop T env ranges s).mrrNoAssoc = s.mrrNoAssoc ∧
      (s.mrrNoAssoc = false → ∀ e ∈ (pointRows T ranges).head?, (mrrLoop T env ranges s).rangeInfo = e.ptr) := by
  induction ranges generalizing s with
  | nil => exact ⟨.inr rfl, rfl, rfl, fun _ e he => by cases he⟩
  | cons e ranges ih =>
    rw [mrrLoop, mrrPoint, if_pos hPk, fetchRowByPk, hQuiet.fetch, Setup.visible]
    by_cases hMem : keyNsData :: e.compKey ∈ T.dataKeys
    · have hRow : pointRows T (e :: ranges) = e :: pointRows T ranges :=
        filter_cons_of_pos (by simp [Setup.visible, hMem])
      rw [if_pos hMem, hRow]
      refine ⟨⟨rfl, rfl⟩, rfl, rfl, fun hAssoc e' he' => ?_⟩
      cases he'
      simp [hAssoc]
    · have hNone : pointRows T (e :: ranges) = pointRows T ranges :=
        filter_cons_of_neg (by simp [Setup.visible, hMem])
      rw [if_neg hMem, hNone]
      exact ih

/-- What `std::sort` makes of the ranges. -/
structure SortsRanges (env : Env) (ranges : List MrrEntry) : Prop where
  perm : (env.sortEntries ranges).Perm ranges
  ordered : (env.sortEntries ranges).Pairwise fun e e' => e.compKey ≤ e'.compKey

/-- Every range with a row is answered once, in the order of the keys, with its row and what the server gave along with
the range. -/
theorem multi_range_read_next_row (hPk : T.isPk = true) (hQuiet : Quiet env) (hAlive : env.killed = false)
    {ranges : List MrrEntry} (hSort : SortsRanges env ranges) (s : Scan ι) (noAssoc : Bool) :
    let answered := pointRows T (env.sortEntries ranges)
    answered.Perm (pointRows T ranges) ∧ answered.Pairwise (fun e e' => e.compKey ≤ e'.compKey) ∧
      ∀ n, let s' := (multiRangeReadNext T env)^[n + 1] (multiRangeReadInit env s ranges noAssoc)
        Answers T s' (answered[n]?.map MrrEntry.compKey) ∧
          (noAssoc = false → ∀ e ∈ answered[n]?, s'.rangeInfo = e.ptr) := by
  have hNext (s : Scan ι) : multiRangeReadNext T env s = mrrLoop T env s.mrrEntries s := by
    rw [multiRangeReadNext, hAlive, if_neg Bool.false_ne_true]
  have hLoop (s : Scan ι) := mrrLoop_answers (s := s) hPk hQuiet s.mrrEntries
  refine ⟨hSort.perm.filter _, hSort.ordered.filter _, fun n => ?_⟩
  -- after `n` calls the first `n` of the ranges that have a row are gone
  have hLeft : pointRows T ((multiRangeReadNext T env)^[n] (multiRangeReadInit env s ranges noAssoc)).mrrEntries =
      (pointRows T (env.sortEntries ranges)).drop n ∧
      ((multiRangeReadNext T env)^[n] (multiRangeReadInit env s ranges noAssoc)).mrrNoAssoc = noAssoc := by
    induction n with
    | zero => exact ⟨rfl, rfl⟩
    | succ n ih =>
      obtain ⟨-, hTail, hAssoc, -⟩ := hLoop ((multiRangeReadNext T env)^[n] (multiRangeReadInit env s ranges noAssoc))
      rw [Function.iterate_succ_apply', hNext, hTail, hAssoc, ih.1, tail_drop]
      exact ⟨rfl, ih.2⟩
  rw [Function.iterate_succ_apply', hNext, ← head?_drop, ← hLeft.1]
  obtain ⟨hAnswers, -, -, hInfo⟩ := hLoop ((multiRangeReadNext T env)^[n] (multiRangeReadInit env s ranges noAssoc))
  exact ⟨hAnswers, fun hAssoc => hInfo (hLeft.2.trans hAssoc)⟩

def sorting : Env := { calm with sortEntries := insertionSort fun e e' => e.compKey ≤ e'.compKey }

def requested : List MrrEntry := [⟨[3, 1], 7⟩, ⟨[2, 0], 8⟩, ⟨[1, 1], 9⟩]

theorem multi_range_read_next_row_pair :
    let s' (n : Nat) :=
      (multiRangeReadNext pairTable sorting)^[n + 1] (multiRangeReadInit sorting fresh requested false)
    (Answers pairTable (s' 0) (some [1, 1]) ∧ (s' 0).rangeInfo = 9) ∧
      (Answers pairTable (s' 1) (some [3, 1]) ∧ (s' 1).rangeInfo = 7) ∧ Answers pairTable (s' 2) none := by
  have hSort : SortsRanges sorting requested := ⟨perm_insertionSort _ _, by decide⟩
  have hCalls := multi_range_read_next_row (T := pairTable) rfl ⟨rfl, fun _ _ => rfl, fun _ => rfl, fun _ => rfl⟩ rfl
    hSort fresh false
  exact ⟨⟨(hCalls.2.2 0).1, (hCalls.2.2 0).2 rfl ⟨[1, 1], 9⟩ (by decide)⟩,
    ⟨(hCalls.2.2 1).1, (hCalls.2.2 1).2 rfl ⟨[3, 1], 7⟩ (by decide)⟩, (hCalls.2.2 2).1⟩

end MultiRange

end TideSql.RowScans
