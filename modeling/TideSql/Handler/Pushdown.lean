import TideSql.Handler.PushedEntry
import TideSql.Lib.Run

/-!
# Read calls under a pushed condition

The loops of the read calls over the whole index, and any sequence of calls.
Calls on the primary key, `index_last` and the multi-range read never look at
the condition.
-/

namespace TideSql.Pushdown
open KeyCodec SortKey IndexRead Lib.ByteOrder Lib.Cursor Lib.Run List

section Walk

variable {ι : Type} {T : Setup ι} {P : Pushed ι} {cols : List ι}

theorem finish_stopped (s : Scan ι) (exhausted : HaError) (found error : ScanDir) (k : Bytes) (err : HaError)
    (rcd : Record ι) :
    (s.finish exhausted found error (.stopped k err, rcd)).result = some err ∧
      (s.finish exhausted found error (.stopped k err, rcd)).last = none := by
  cases err <;> exact ⟨rfl, rfl⟩

theorem not_passed_of_failed {s : Scan ι} {err : HaError} (h : s.result = some err)
    (hErr : err ≠ .keyNotFound ∧ err ≠ .endOfFile) (backward : Bool) (k : Bytes) : ¬Passed backward s k := by
  rw [Passed, h]
  cases err with
  | keyNotFound => exact absurd rfl hErr.1
  | endOfFile => exact absurd rfl hErr.2
  | queryInterrupted | other code => exact not_false

theorem before_or_eq_or_before (backward : Bool) (x y : Bytes) : Before backward x y ∨ x = y ∨ Before backward y x := by
  cases backward with
  | false => exact lt_trichotomy x y
  | true =>
    obtain hLt | hEq | hGt := lt_trichotomy x y
    · exact .inr (.inr hLt)
    · exact .inr (.inl hEq)
    · exact .inl hGt

variable [DecidableEq ι]

theorem Sound.walk_right (h : Sound T P cols) {s : Scan ι} {act : Call × Env} (hChecked : Checked T P act)
    {early : Bytes → Option HaError} {q : Bytes → Bool} {res : Ending Bytes HaError × Record ι}
    (hEnds : WalkEnds (Before (isBackward act.1)) T.entries (visitEntry T act.2 early) q res)
    (hRegion : ∀ k ∈ T.entries, region T s k act.1 → q k = true ∧ early k = none ∧
      ∀ j ∈ T.entries, q j = true → Before (isBackward act.1) j k → early j = none)
    (s₀ : Scan ι) (exhausted : HaError) (found error : ScanDir) :
    Right T P s act.1 (s₀.finish exhausted found error res) := by
  obtain ⟨e, rcd⟩ := res
  have hScan : ∀ pk r, scanKey T pk r = secIdxKey T pk r := fun pk r => if_neg (by simp [hChecked.secondary])
  have hWanted := fun pk r (hRow : T.visible pk = some r) hCond hIn b => h.visit_wanted act.2 hRow hCond hIn early b
  obtain ⟨rfl, hAll⟩ | ⟨j, b, hj, hqj, hBefore, ⟨err, hVisit, rfl⟩ | ⟨hVisit, rfl⟩⟩ := hEnds
  · refine ⟨nofun, fun pk r hRow hCond hIn hIn' => ?_⟩
    rw [hScan] at hIn'
    have hk := h.indexed pk r hRow
    obtain ⟨b, hSkip⟩ := hAll _ hk (hRegion _ hk hIn').1
    exact absurd hSkip (hWanted pk r hRow hCond hIn b).1
  · obtain ⟨hResult, hLast⟩ := finish_stopped s₀ exhausted found error j err rcd
    refine ⟨fun _ hSome => absurd hLast hSome, fun pk r hRow hCond hIn hIn' => ?_⟩
    rw [hScan] at hIn' ⊢
    have hk := h.indexed pk r hRow
    obtain ⟨hq, hEarly, hEarlier⟩ := hRegion _ hk hIn'
    -- an ending that says there is nothing more
    refine fun hPassed => not_passed_of_failed hResult ?_ _ _ hPassed
    rw [← not_or]
    intro hErr
    obtain hLt | hEq | hGt := before_or_eq_or_before (isBackward act.1) (secIdxKey T pk r) j
    · obtain ⟨b', hSkip⟩ := hBefore _ hk hq hLt
      exact (hWanted pk r hRow hCond hIn b').1 hSkip
    · rw [← hEq] at hVisit
      exact not_or.mpr ((hWanted pk r hRow hCond hIn b).2 hEarly err (by rw [hVisit])) hErr
    · obtain hStop | ⟨bj, hShown, hOut⟩ := h.visit_stop hj hVisit hErr
      · rw [hEarlier j hj hqj hGt] at hStop
        cases hStop
      · obtain ⟨bk, hShown', hSame⟩ := h.shown_of_visible hk (by rwa [drop_secIdxKey])
        have hOut' := hChecked.range j hj _ hk hGt bj bk hShown hShown' hOut
        rw [hSame, hIn] at hOut'
        cases hOut'
  · refine ⟨fun _ _ => h.cond_of_found hj (hChecked.fetched j hj) hVisit, fun pk r hRow hCond hIn hIn' => ?_⟩
    rw [hScan] at hIn' ⊢
    have hk := h.indexed pk r hRow
    rintro ⟨j', hj', hLt⟩
    cases hj'
    obtain ⟨b', hSkip⟩ := hBefore _ hk (hRegion _ hk hIn').1 hLt
    exact (hWanted pk r hRow hCond hIn b').1 hSkip

end Walk

section Calls

variable {ι : Type} {T : Setup ι} {P : Pushed ι} {cols : List ι} {s : Scan ι} {env : Env}

structure Inv (T : Setup ι) (s : Scan ι) : Prop where
  idle : s.idxPkExactDone = false
  at_entry : ∀ k, s.pos = some k → k ∈ T.entries
  at_last : ∀ k, s.last = some k → s.scanIter = some (some k)

theorem fail_right {s₀ : Scan ι} {c : Call} {err : HaError} (hErr : err ≠ .keyNotFound ∧ err ≠ .endOfFile)
    (hIdle : s₀.idxPkExactDone = false) (hEntry : ∀ k, s₀.pos = some k → k ∈ T.entries) :
    Right T P s c (s₀.fail err) ∧ Inv T (s₀.fail err) :=
  ⟨⟨nofun, fun _ _ _ _ _ _ => not_passed_of_failed rfl hErr _ _⟩, hIdle, hEntry, nofun⟩

theorem ensureScanIter_cases (env : Env) (s : Scan ι) : (∃ code, ensureScanIter env s = .error (.other code)) ∨
      ensureScanIter env s = .ok { s with scanIter := some s.pos } := by
  rw [ensureScanIter]
  split
  · exact .inl ⟨_, rfl⟩
  · rename_i hNone _
    refine .inr ?_
    rw [Scan.pos, hNone]
    rfl
  · rename_i pos _ hSome
    refine .inr ?_
    rw [Scan.pos, hSome, Option.join_some, ← hSome]

theorem inv_finish {s₀ : Scan ι} (hIdle : s₀.idxPkExactDone = false) {backward : Bool}
    {visit : Record ι → Bytes → Verdict HaError × Record ι} {q : Bytes → Bool}
    {res : Ending Bytes HaError × Record ι} (hEnds : WalkEnds (Before backward) T.entries visit q res)
    (exhausted : HaError) (found error : ScanDir) : Inv T (s₀.finish exhausted found error res) := by
  obtain ⟨e, rcd⟩ := res
  obtain ⟨rfl, -⟩ | ⟨j, b, hj, -, -, ⟨err, -, rfl⟩ | ⟨-, rfl⟩⟩ := hEnds
  · exact ⟨hIdle, nofun, nofun⟩
  · have hEntry : ∀ k, (some (some j)).join = some k → k ∈ T.entries := by
      rintro k hk
      cases hk
      exact hj
    cases err <;> exact ⟨hIdle, hEntry, nofun⟩
  · refine ⟨hIdle, fun k hk => ?_, fun k hk => ?_⟩
    · cases hk
      exact hj
    · cases hk
      rfl

theorem seek_forward (T : Setup ι) (comp : Bytes) {flag : FindFlag} (hFlag : flag.isBackward = false) :
    ∃ q : Bytes → Bool, (∀ x y, x < y → q x = true → q y = true) ∧
      indexSeekSecondary T comp flag = T.entries.find? q ∧ (∀ k, flagRegion comp k flag → q k = true) ∧
      (flag = .keyExact → ∀ j, q j = true → comp ≤ j) := by
  cases flag with
  | keyExact =>
    exact ⟨atLeast comp, atLeast_up comp, rfl, fun k hk => atLeast_iff.mpr (prefix_le hk), fun _ _ => atLeast_iff.mp⟩
  | keyOrNext => exact ⟨atLeast comp, atLeast_up comp, rfl, fun _ => atLeast_iff.mpr, nofun⟩
  | prefixAny => exact ⟨atLeast comp, atLeast_up comp, rfl, fun k hk => atLeast_iff.mpr (prefix_le hk), nofun⟩
  | afterKey =>
    have hBeyond : ∀ k t, flagRegion comp k .afterKey → comp ++ t < k := fun k t hk =>
      append_lt_of_not_prefixed hk.1 hk.2 t
    rw [indexSeekSecondary]
    cases hUpper : seek T.entries (upperBound T comp) with
    | none =>
      exact ⟨_, atLeast_up (upperBound T comp), hUpper.symm, fun k hk => atLeast_iff.mpr (hBeyond k _ hk).le, nofun⟩
    | some ik =>
      dsimp only
      split
      · rename_i hSame
        obtain ⟨t, rfl⟩ := hSame
        exact ⟨_, above_up (comp ++ t), rfl, fun k hk => above_iff.mpr (hBeyond k t hk), nofun⟩
      · exact ⟨_, atLeast_up (upperBound T comp), hUpper.symm, fun k hk => atLeast_iff.mpr (hBeyond k _ hk).le, nofun⟩
  | keyOrPrev | beforeKey | prefixLast | prefixLastOrPrev => cases hFlag

theorem seek_backward (T : Setup ι) (comp : Bytes) {flag : FindFlag} (hFlag : flag.isBackward = true)
    (hBound : ∀ k ∈ T.entries, comp <+: k → k ≤ upperBound T comp) :
    indexSeekSecondary T comp flag = T.entries.reverse.find? (atMost (upperBound T comp)) ∧
      ∀ k ∈ T.entries, flagRegion comp k flag → k ≤ upperBound T comp := by
  have hUpper : comp ≤ upperBound T comp := prefix_le (prefix_append ..)
  cases flag with
  | keyExact | keyOrNext | prefixAny | afterKey => cases hFlag
  | keyOrPrev | prefixLastOrPrev => exact ⟨rfl, fun k hk hRegion => hRegion.elim (·.trans hUpper) (hBound k hk)⟩
  | prefixLast => exact ⟨rfl, hBound⟩
  | beforeKey => exact ⟨rfl, fun k _ hLt => (le_of_lt hLt).trans hUpper⟩

theorem find?_false (l : List Bytes) : none = l.find? fun _ => false :=
  (List.find?_eq_none.mpr fun _ _ => Bool.false_ne_true).symm

theorem bind_next (l : List Bytes) (pos : Option Bytes) :
    ∃ q : Bytes → Bool, (∀ x y, x < y → q x = true → q y = true) ∧ pos.bind (next l) = l.find? q ∧
      ∀ k j, pos = some k → (q j = true ↔ k < j) := by
  cases pos with
  | none => exact ⟨fun _ => false, nofun, find?_false _, nofun⟩
  | some k =>
    refine ⟨above k, above_up k, rfl, ?_⟩
    rintro k' j ⟨⟩
    exact above_iff

theorem bind_prev (l : List Bytes) (pos : Option Bytes) :
    ∃ q : Bytes → Bool, (∀ x y, x < y → q y = true → q x = true) ∧ pos.bind (prev l) = l.reverse.find? q ∧
      ∀ k j, pos = some k → (q j = true ↔ j < k) := by
  cases pos with
  | none => exact ⟨fun _ => false, nofun, find?_false _, nofun⟩
  | some k =>
    refine ⟨below k, below_down k, rfl, ?_⟩
    rintro k' j ⟨⟩
    exact below_iff

theorem Inv.advance (hInv : Inv T s) : ∃ q : Bytes → Bool, (∀ x y, x < y → q x = true → q y = true) ∧
      (if s.scanDir ≠ .none then s.pos.bind (next T.entries) else s.pos) = T.entries.find? q ∧
      ∀ k j, s.pos = some k → k < j → q j = true := by
  split
  · obtain ⟨q, hMono, hPos, hq⟩ := bind_next T.entries s.pos
    exact ⟨q, hMono, hPos, fun k j hk => (hq k j hk).mpr⟩
  · cases hPos : s.pos with
    | none => exact ⟨fun _ => false, nofun, find?_false _, nofun⟩
    | some k =>
      have hFind := find?_ge_of_mem T.entries_sorted (hInv.at_entry k hPos)
      refine ⟨atLeast k, atLeast_up k, hFind.symm, ?_⟩
      rintro k' j ⟨⟩ hLt
      exact atLeast_iff.mpr hLt.le

theorem Inv.pos_of_last (hInv : Inv T s) {k : Bytes} (hLast : s.last = some k) : s.pos = some k := by
  rw [Scan.pos, hInv.at_last k hLast]
  rfl

theorem Sound.not_short (h : Sound T P cols) {k : Bytes} (hk : k ∈ T.entries) (err : HaError) :
    tooShort T err k = none :=
  if_neg (Nat.not_le.mpr (h.long k hk))

variable [DecidableEq ι]

theorem Sound.loop_right (h : Sound T P cols) {act : Call × Env} (hChecked : Checked T P act)
    (early : Bytes → Option HaError) (q : Bytes → Bool) {res : Ending Bytes HaError × Record ι}
    (hEnds : WalkEnds (Before (isBackward act.1)) T.entries (visitEntry T act.2 early) q res)
    (hRegion : ∀ k ∈ T.entries, region T s k act.1 → q k = true ∧ early k = none ∧
      ∀ j ∈ T.entries, q j = true → Before (isBackward act.1) j k → early j = none)
    {s₀ : Scan ι} (hIdle : s₀.idxPkExactDone = false) {exhausted : HaError} {found error : ScanDir} :
    Right T P s act.1 (s₀.finish exhausted found error res) ∧ Inv T (s₀.finish exhausted found error res) :=
  ⟨h.walk_right hChecked hEnds hRegion s₀ exhausted found error, inv_finish hIdle hEnds exhausted found error⟩

theorem Sound.readMap_right (h : Sound T P cols) (hInv : Inv T s) {comp : Bytes} {flag : FindFlag}
    (hChecked : Checked T P (.readMap comp flag, env)) :
    Right T P s (.readMap comp flag) (indexReadMap T env s comp flag) ∧ Inv T (indexReadMap T env s comp flag) := by
  have hNotPk : ¬T.isPk = true := by simp [hChecked.secondary]
  have hSearch : searchKey T comp = comp := if_neg hNotPk
  rw [indexReadMap, if_neg hNotPk, indexReadSecondary]
  obtain ⟨code, hEnsure⟩ | hEnsure :=
    ensureScanIter_cases env { s with idxSearchComp := comp, pkPartialExactActive := false }
  · rw [hEnsure]
    refine fail_right ?_ ?_ ?_
    · exact ⟨nofun, nofun⟩
    · exact hInv.idle
    · exact hInv.at_entry
  · rw [hEnsure]
    dsimp only
    cases hFlag : flag.isBackward with
    | true =>
      obtain ⟨hPos, hStart⟩ := seek_backward T comp hFlag (hChecked.bounded comp flag rfl hFlag)
      have hEarly : ∀ k ∈ T.entries, exactOrShort T comp flag k = none := by
        intro k hk
        rw [exactOrShort, if_neg fun hBoth => ?_]
        · exact h.not_short hk _
        · rw [hBoth.1] at hFlag
          cases hFlag
      rw [if_pos rfl, hPos]
      apply h.loop_right hChecked (exactOrShort T comp flag) (atMost (upperBound T comp))
      · rw [isBackward, hFlag]
        exact walkBackward_ends _ T.entries_sorted (atMost_down _) _
      · intro k hk hRegion
        rw [region, hSearch] at hRegion
        exact ⟨atMost_iff.mpr (hStart k hk hRegion), hEarly k hk, fun j hj _ _ => hEarly j hj⟩
      · exact hInv.idle
    | false =>
      obtain ⟨q, hMono, hPos, hStart, hExact⟩ := seek_forward T comp hFlag
      rw [if_neg Bool.false_ne_true, hPos]
      apply h.loop_right hChecked (exactOrShort T comp flag) q
      · rw [isBackward, hFlag]
        exact walkForward_ends _ T.entries_sorted hMono _
      · intro k hk hRegion
        rw [region, hSearch] at hRegion
        refine ⟨hStart k hRegion, ?_, fun j hj hqj hLt => ?_⟩
        · rw [exactOrShort, if_neg fun hBoth => ?_]
          · exact h.not_short hk _
          · rw [hBoth.1] at hRegion
            exact hBoth.2 hRegion
        · rw [exactOrShort, if_neg fun hBoth => ?_]
          · exact h.not_short hj _
          · rw [hBoth.1] at hRegion
            rw [isBackward, hFlag] at hLt
            exact not_prefix_of_lt (hExact hBoth.1 j hqj) hBoth.2 hLt hRegion
      · exact hInv.idle

theorem indexNext_eq (hNotPk : ¬T.isPk = true) (hIdle : s.idxPkExactDone = false) (hKilled : ¬env.killed = true)
    (hEnsure : ensureScanIter env s = .ok { s with scanIter := some s.pos }) :
    indexNext T env s = Scan.finish
        { s with scanIter := some (if s.scanDir ≠ .none then s.pos.bind (next T.entries) else s.pos) }
        .endOfFile .forward .forward (walkForward T.entries (visitEntry T env (tooShort T .endOfFile))
          (if s.scanDir ≠ .none then s.pos.bind (next T.entries) else s.pos) s.record) := by
  have hKeys : T.scanKeys = T.entries := if_neg hNotPk
  rw [indexNext, if_neg hKilled, hEnsure]
  simp only [hIdle, Bool.false_eq_true, if_false, if_neg hNotPk, Scan.iterNext, hKeys]
  split <;> rfl

section

variable (h : Sound T P cols) (hInv : Inv T s)
include h hInv

theorem Sound.next_right (hChecked : Checked T P (.next, env)) :
    Right T P s .next (indexNext T env s) ∧ Inv T (indexNext T env s) := by
  have hNotPk : ¬T.isPk = true := by simp [hChecked.secondary]
  cases hKilled : env.killed with
  | true =>
    rw [indexNext, if_pos hKilled]
    exact fail_right ⟨nofun, nofun⟩ hInv.idle hInv.at_entry
  | false =>
    obtain ⟨code, hEnsure⟩ | hEnsure := ensureScanIter_cases env s
    · rw [indexNext, if_neg (by simp [hKilled]), hEnsure]
      exact fail_right ⟨nofun, nofun⟩ rfl hInv.at_entry
    · rw [indexNext_eq hNotPk hInv.idle (by simp [hKilled]) hEnsure]
      obtain ⟨q, hMono, hPos, hq⟩ := hInv.advance
      rw [hPos]
      apply h.loop_right hChecked (tooShort T .endOfFile) q
      · exact walkForward_ends _ T.entries_sorted hMono _
      · rintro k hk ⟨k₀, hLast, hLt⟩
        exact ⟨hq k₀ k (hInv.pos_of_last hLast) hLt, h.not_short hk _, fun _ hj _ _ => h.not_short hj _⟩
      · exact hInv.idle

theorem Sound.first_right (hChecked : Checked T P (.first, env)) :
    Right T P s .first (indexFirst T env s) ∧ Inv T (indexFirst T env s) := by
  have hNotPk : ¬T.isPk = true := by simp [hChecked.secondary]
  rw [indexFirst]
  obtain ⟨code, hEnsure⟩ | hEnsure := ensureScanIter_cases env { s with idxPkExactDone := false }
  · rw [hEnsure]
    exact fail_right ⟨nofun, nofun⟩ rfl hInv.at_entry
  · rw [hEnsure]
    dsimp only
    rw [if_neg hNotPk]
    cases hKilled : env.killed with
    | true =>
      rw [indexNext, if_pos hKilled]
      refine fail_right ⟨nofun, nofun⟩ rfl fun k hk => ?_
      exact mem_of_mem_head? hk
    | false =>
      have hHead : T.entries.head? = T.entries.find? fun _ => true := by cases T.entries <;> rfl
      rw [indexNext_eq hNotPk rfl (by simp [hKilled]) rfl]
      apply h.loop_right hChecked (tooShort T .endOfFile) fun _ => true
      · exact hHead ▸ walkForward_ends _ T.entries_sorted (fun _ _ _ => id) _
      · intro k hk _
        exact ⟨rfl, h.not_short hk _, fun _ hj _ _ => h.not_short hj _⟩
      · rfl

theorem Sound.prev_right (hChecked : Checked T P (.prev, env)) :
    Right T P s .prev (indexPrev T env s) ∧ Inv T (indexPrev T env s) := by
  have hNotPk : ¬T.isPk = true := by simp [hChecked.secondary]
  have hKeys : T.scanKeys = T.entries := if_neg hNotPk
  rw [indexPrev]
  split
  · exact fail_right ⟨nofun, nofun⟩ hInv.idle hInv.at_entry
  · obtain ⟨code, hEnsure⟩ | hEnsure := ensureScanIter_cases env s
    · rw [hEnsure]
      exact fail_right ⟨nofun, nofun⟩ rfl hInv.at_entry
    · rw [hEnsure]
      simp only [hInv.idle, Bool.false_eq_true, if_false, Scan.iterPrev, hKeys]
      obtain ⟨q, hMono, hPos, hq⟩ := bind_prev T.entries s.pos
      apply h.loop_right hChecked (tooShort T .endOfFile) q
      · exact hPos ▸ walkBackward_ends _ T.entries_sorted hMono _
      · rintro k hk ⟨k₀, hLast, hLt⟩
        exact ⟨(hq k₀ k (hInv.pos_of_last hLast)).mpr hLt, h.not_short hk _, fun _ hj _ _ => h.not_short hj _⟩
      · rfl

theorem Sound.nextSame_right (hChecked : Checked T P (.nextSame, env)) :
    Right T P s .nextSame (indexNextSame T env s) ∧ Inv T (indexNextSame T env s) := by
  have hNotPk : ¬T.isPk = true := by simp [hChecked.secondary]
  have hKeys : T.scanKeys = T.entries := if_neg hNotPk
  have hSearch : searchKey T s.idxSearchComp = s.idxSearchComp := if_neg hNotPk
  rw [indexNextSame]
  split
  · exact fail_right ⟨nofun, nofun⟩ hInv.idle hInv.at_entry
  · rw [if_neg fun hBoth => hNotPk hBoth.1]
    split
    · rename_i hNone
      refine ⟨⟨nofun, ?_⟩, hInv.idle, hInv.at_entry, nofun⟩
      rintro pk r - - - ⟨k₀, hLast, -⟩
      rw [hInv.at_last k₀ hLast] at hNone
      cases hNone
    · simp only [Scan.iterNext, hKeys]
      obtain ⟨q, hMono, hPos, hq⟩ := bind_next T.entries s.pos
      apply h.loop_right hChecked (sameOrShort T { s with scanIter := some (s.pos.bind (next T.entries)) }) q
      · exact hPos ▸ walkForward_ends _ T.entries_sorted hMono _
      · rintro k hk ⟨k₀, hLast, hLt, hSame₀, hSame⟩
        rw [hSearch] at hSame₀ hSame
        have hAfter (j : Bytes) := hq k₀ j (hInv.pos_of_last hLast)
        refine ⟨(hAfter k).mpr hLt, ?_, fun j hj hqj hBefore => ?_⟩
        · rw [sameOrShort, if_neg (not_not.mpr hSame)]
          exact h.not_short hk _
        · rw [sameOrShort, if_neg fun hOther => ?_]
          · exact h.not_short hj _
          · have hLe := (prefix_le hSame₀).trans ((hAfter j).mp hqj).le
            exact not_prefix_of_lt hLe hOther hBefore hSame
      · exact hInv.idle

end

omit [DecidableEq ι] in
theorem mrrInit_right (hInv : Inv T s) (ranges : List MrrEntry) (noAssoc : Bool) :
    Right T P s (.mrrInit ranges noAssoc) (multiRangeReadInit env s ranges noAssoc) ∧
      Inv T (multiRangeReadInit env s ranges noAssoc) :=
  ⟨⟨fun _ hLast => absurd rfl hLast, fun _ _ _ _ _ hRegion => hRegion.elim⟩, hInv.idle, hInv.at_entry, nofun⟩

theorem Sound.call_right (h : Sound T P cols) (hInv : Inv T s) (c : Call) (hChecked : Checked T P (c, env)) :
    Right T P s c (call T env s c) ∧ Inv T (call T env s c) := by
  cases c with
  | readMap comp flag => exact h.readMap_right hInv hChecked
  | next => exact h.next_right hInv hChecked
  | prev => exact h.prev_right hInv hChecked
  | first => exact h.first_right hInv hChecked
  | last => exact absurd rfl hChecked.not_last
  | nextSame => exact h.nextSame_right hInv hChecked
  | mrrInit ranges noAssoc => exact mrrInit_right hInv ranges noAssoc
  | mrrNext => exact absurd rfl hChecked.not_mrr

end Calls

section Runs

variable {ι : Type} [DecidableEq ι]

def step (T : Setup ι) (s : Scan ι) (act : Call × Env) : Option (Scan ι) := some (call T act.2 s act.1)

structure Begun (T : Setup ι) (s : Scan ι) : Prop where
  idle : s.idxPkExactDone = false
  at_entry : ∀ k, s.pos = some k → k ∈ T.entries
  nothing_read : s.last = none

variable {T : Setup ι} {P : Pushed ι} {cols : List ι} {s₀ s : Scan ι}

theorem Sound.inv_of_reach (h : Sound T P cols) (hBegun : Begun T s₀)
    (hReach : Reach (step T) (fun _ act => Checked T P act) s₀ s) : Inv T s := by
  apply hReach.invariant
  · refine ⟨hBegun.idle, hBegun.at_entry, fun k hk => ?_⟩
    rw [hBegun.nothing_read] at hk
    cases hk
  · intro s act s' hInv hChecked hStep
    cases hStep
    exact (h.call_right hInv act.1 hChecked).2

/-- Along a sequence of checked calls every row handed back satisfies the condition, and no visible
row that satisfies it is passed over. -/
theorem pushed_condition_respected (h : Sound T P cols) (hBegun : Begun T s₀)
    (hReach : Reach (step T) (fun _ act => Checked T P act) s₀ s) (c : Call) (env : Env)
    (hChecked : Checked T P (c, env)) : Right T P s c (call T env s c) :=
  (h.call_right (h.inv_of_reach hBegun hReach) c hChecked).1

end Runs

section Samples

inductive Col where
  | id
  | v
  | w
  deriving DecidableEq, Repr

def tinyUnsigned (col : Col) : KeyPart Col := ⟨⟨col, false, .tiny, true, .other, 1⟩, 1, false⟩

def tinySorts : SortStrings Col where
  write f n v := if v.length = n then intSortString (!f.isUnsigned) v else List.replicate n 0
  length_write f n v := by
    split
    · rename_i hLen
      rw [length_intSortString, hLen]
    · exact List.length_replicate

def triples (isPk : Bool) (P : Pushed Col) : Setup Col where
  sorts := tinySorts
  idxParts := [tinyUnsigned .v, tinyUnsigned .w]
  pkParts := [tinyUnsigned .id]
  hasUserPk := true
  isPk := isPk
  keyreadOnly := false
  readSet := [.id, .v, .w]
  pushed := some P
  entries := [[5, 0, 1], [6, 0, 8], [7, 255, 2], [9, 0, 3]]
  dataKeys := [[1, 1], [1, 2], [1, 3]]
  row pk
    | .id => some pk
    | .v => some (pk.map (2 * · + 3))
    | .w => some (if pk = [2] then [255] else [0])
  entries_sorted := by decide
  dataKeys_sorted := by decide

def fresh : Scan Col := ⟨none, .none, [], false, false, [], false, 0, ⟨fun _ => none, []⟩, none, none⟩

def quiet : Env := ⟨false, fun _ => false, none, fun _ _ => none, fun _ => false, id⟩

def without (col : Col) (x last : UInt8) : Pushed Col where
  cond r := r col != some [x]
  outOfRange r := r col == some [last]

abbrev ranged : Setup Col := triples false (without .v 5 9)

theorem visible_triples {isPk : Bool} {P : Pushed Col} {pk : Bytes} {r : Row Col}
    (h : (triples isPk P).visible pk = some r) : pk ∈ [[1], [2], [3]] ∧ r = (triples isPk P).row pk := by
  rw [Setup.visible] at h
  split at h
  · rename_i hMem
    cases h
    exact ⟨by simpa [triples, keyNsData] using hMem, rfl⟩
  · cases h

theorem sound_triples : Sound ranged (without .v 5 9) [.v] where
  pushed := rfl
  depends b b' hAgree := by
    have hv := hAgree .v (mem_cons_self ..)
    simp only [without, hv, and_self]
  covered := by decide
  read := by decide
  notNull pk r hRow := by
    obtain ⟨-, rfl⟩ := visible_triples hRow
    simp [triples, tinyUnsigned]
  exact pk r hRow p hp hCol := by
    obtain ⟨hPk, rfl⟩ := visible_triples hRow
    have hOne : ∀ pk ∈ [[1], [2], [3]], ∀ p ∈ ranged.idxParts ++ ranged.pkParts,
        (ranged.row pk p.col).map List.length = some 1 := by
      decide
    have hLen : ∀ v, ranged.row pk p.col = some v → v.length = 1 := by
      intro v hv
      simpa [hv] using hOne pk hPk p hp
    simp only [triples, cons_append, nil_append, mem_cons, not_mem_nil, or_false] at hp
    obtain rfl | rfl | rfl := hp
    all_goals exact exact_of_integer rfl (fun _ hv => if_pos hv) (by decide) hLen
  long := by decide
  entry k hk r hRow := by
    obtain ⟨hPk, rfl⟩ := visible_triples hRow
    clear hRow
    revert k
    decide
  indexed pk r hRow := by
    obtain ⟨hPk, rfl⟩ := visible_triples hRow
    clear hRow
    revert pk
    decide

theorem checked_triples {c : Call} (hc : c = .readMap [5] .keyOrNext ∨ c = .next) :
    Checked ranged (without .v 5 9) (c, quiet) where
  secondary := rfl
  not_last := by obtain rfl | rfl := hc <;> nofun
  not_mrr := by obtain rfl | rfl := hc <;> nofun
  bounded comp flag hCall hBack := by
    obtain rfl | rfl := hc
    · cases hCall
      cases hBack
    · cases hCall
  range k hk k' hk' hBefore b b' hb hb' hOut := by
    have hForward : isBackward c = false := by obtain rfl | rfl := hc <;> rfl
    have hAll : ∀ k ∈ ranged.entries, ∀ k' ∈ ranged.entries, k < k' →
        (shown ranged k).any (without .v 5 9).outOfRange = true →
          (shown ranged k').all (without .v 5 9).outOfRange = true := by
      decide
    rw [hForward] at hBefore
    have hTwo := hAll k hk k' hk' hBefore
    rw [hb, hb'] at hTwo
    exact hTwo hOut
  fetched k hk hNot := by
    have hDecodes : ∀ k ∈ ranged.entries, (icpDecode ranged k fun _ => none).1 = true := by
      decide
    rw [hDecodes k hk] at hNot
    cases hNot

theorem range_read_checked : (call ranged quiet fresh (.readMap [5] .keyOrNext)).last = some [7, 255, 2] ∧
      Right ranged (without .v 5 9)
        (call ranged quiet fresh (.readMap [5] .keyOrNext)) .next
        (call ranged quiet
          (call ranged quiet fresh (.readMap [5] .keyOrNext)) .next) :=
  ⟨by decide, pushed_condition_respected sound_triples ⟨rfl, fun _ => (by cases ·), rfl⟩
    (.step (.readMap [5] .keyOrNext, quiet) .init (checked_triples (.inl rfl)) rfl) .next quiet
      (checked_triples (.inr rfl))⟩

/-- A row the condition rules out is handed back by three kinds of read, and one back from the first part of the key
misses the row at 255. -/
theorem unchecked_rows_handed_back : ¬Right (triples true (without .id 1 9)) (without .id 1 9) fresh .first
        (call (triples true (without .id 1 9)) quiet fresh .first) ∧
      ¬Right (triples false (without .v 9 0)) (without .v 9 0) fresh .last
        (call (triples false (without .v 9 0)) quiet fresh .last) ∧
      ¬Right ranged (without .v 5 9) (multiRangeReadInit quiet fresh [⟨[5, 0], 0⟩] false) .mrrNext
        (call ranged quiet (multiRangeReadInit quiet fresh [⟨[5, 0], 0⟩] false) .mrrNext) ∧
      ¬Right ranged (without .v 5 9) fresh (.readMap [7] .prefixLast)
        (call ranged quiet fresh (.readMap [7] .prefixLast)) := by
  refine ⟨fun hRight => ?_, fun hRight => ?_, fun hRight => ?_, fun hRight => ?_⟩
  · exact absurd (hRight.satisfied (by decide) (by decide)) (by decide)
  · exact absurd (hRight.satisfied (by decide) (by decide)) (by decide)
  · exact absurd (hRight.satisfied (by decide) (by decide)) (by decide)
  · exact hRight.complete [2] _ rfl rfl rfl (by decide : [7] <+: ([7, 255, 2] : Bytes)) trivial

end Samples

end TideSql.Pushdown
