import TideSql.Handler.PkPosition
import TideSql.Handler.PushedEntry
import TideSql.Lib.Stale

/-!
# Where a read by a secondary index comes to stand

An entry of a secondary index is the bytes of the indexed columns followed by a primary key, and may have
outlived its row.
-/

namespace TideSql.SecPosition
open KeyCodec SortKey IndexRead PkPosition Lib.ByteOrder Lib.Cursor Lib.Stale
open List hiding next prev

variable {ι : Type}

section Meaning

variable (T : Setup ι)

def live (ik : Bytes) : Bool := (T.visible (ik.drop T.idxColLen)).isSome

structure Entered : Prop where
  pk : 0 < T.pkKeyLen
  entry : ∀ ik ∈ T.entries, ∃ r pk, ik = Pushdown.secIdxKey T pk r ∧ pk.length = T.pkKeyLen

def wanted (flag : FindFlag) (comp : Bytes) : Option Bytes := located flag comp (T.entries.filter (live T))

/-- The row of the entry is returned, or that there is none. -/
def Returns (s : Scan ι) : Option Bytes → Prop
  | some ik =>
    s.result = none ∧ s.last = some ik ∧ s.record.currentPk = ik.drop T.idxColLen ∧
      (T.keyreadOnly = false → s.record.buf = T.row (ik.drop T.idxColLen))
  | none => s.result = some .keyNotFound

variable {T}

theorem Returns.unique {s : Scan ι} {a b : Option Bytes} (ha : Returns T s a) (hb : Returns T s b) : a = b := by
  cases a with
  | none =>
    cases b with
    | none => rfl
    | some ik =>
      have hNone : s.result = some .keyNotFound := ha
      rw [hb.1] at hNone
      cases hNone
  | some ik =>
    cases b with
    | none =>
      have hNone : s.result = some .keyNotFound := hb
      rw [ha.1] at hNone
      cases hNone
    | some ik' => exact ha.2.1.symm.trans hb.2.1

end Meaning

section Visit

variable [DecidableEq ι]

section

variable (want : ι → Bool) (p : KeyPart ι) (pos : Bytes) (buf buf' : Row ι)

theorem decodeValue_fst : (decodeValue want p pos buf).1 = (decodeValue want p pos buf').1 := by
  rw [decodeValue, decodeValue]
  split
  · rfl
  · split
    · split
      · rfl
      · rfl
    · rfl

theorem decodeKeyPart_fst : (decodeKeyPart want p pos buf).1 = (decodeKeyPart want p pos buf').1 := by
  unfold decodeKeyPart
  split
  · cases pos with
    | nil => rfl
    | cons nb pos =>
      dsimp only
      by_cases hNull : (if p.desc then ~~~nb else nb) = 0
      · rw [if_pos hNull, if_pos hNull]
        split
        · rfl
        · rfl
      · rw [if_neg hNull, if_neg hNull]
        exact decodeValue_fst ..
  · exact decodeValue_fst ..

end

theorem keyreadDecodeKeyParts_fst (want : ι → Bool) (parts : List (KeyPart ι)) (pos : Bytes) (buf buf' : Row ι) :
    (keyreadDecodeKeyParts want parts pos buf).1 = (keyreadDecodeKeyParts want parts pos buf').1 := by
  induction parts generalizing pos buf buf' with
  | nil => rfl
  | cons p parts ih =>
    have hPart := decodeKeyPart_fst want p pos buf buf'
    rw [keyreadDecodeKeyParts, keyreadDecodeKeyParts]
    obtain ⟨v, b, hDecode⟩ : ∃ v b, decodeKeyPart want p pos buf = (v, b) := ⟨_, _, rfl⟩
    obtain ⟨v', b', hDecode'⟩ : ∃ v b, decodeKeyPart want p pos buf' = (v, b) := ⟨_, _, rfl⟩
    rw [hDecode, hDecode'] at hPart ⊢
    cases hPart
    cases v with
    | none => rfl
    | some rest => exact ih rest b b'

variable (T : Setup ι)

/-- The covering read takes its columns from the entry and does not look for the row. -/
def covers (ik : Bytes) : Bool := T.keyreadOnly && (tryKeyreadFromIndex T ik ⟨fun _ => none, []⟩).1

def taken (ik : Bytes) : Bool := covers T ik || live T ik

variable {T}

theorem tryKeyread_fst (ik : Bytes) (rcd rcd' : Record ι) :
    (tryKeyreadFromIndex T ik rcd).1 = (tryKeyreadFromIndex T ik rcd').1 := by
  rw [tryKeyreadFromIndex, tryKeyreadFromIndex]
  split
  · rfl
  · split
    · rfl
    · have hIdx := keyreadDecodeKeyParts_fst (fun c => decide (c ∈ T.readSet)) T.idxParts ik rcd.buf rcd'.buf
      obtain ⟨v, b, hDecode⟩ : ∃ v b, keyreadDecodeKeyParts (fun c => decide (c ∈ T.readSet)) T.idxParts ik rcd.buf =
        (v, b) := ⟨_, _, rfl⟩
      obtain ⟨v', b', hDecode'⟩ :
        ∃ v b, keyreadDecodeKeyParts (fun c => decide (c ∈ T.readSet)) T.idxParts ik rcd'.buf =
        (v, b) := ⟨_, _, rfl⟩
      rw [hDecode, hDecode'] at hIdx ⊢
      cases hIdx
      cases v with
      | false => rfl
      | true =>
        dsimp only
        have hPk := keyreadDecodeKeyParts_fst (fun c => decide (c ∈ T.readSet)) T.pkParts (ik.drop T.idxColLen) b b'
        obtain ⟨w, d, hLast⟩ : ∃ v d, keyreadDecodeKeyParts (fun c => decide (c ∈ T.readSet)) T.pkParts
          (ik.drop T.idxColLen) b = (v, d) := ⟨_, _, rfl⟩
        obtain ⟨w', d', hLast'⟩ : ∃ v d, keyreadDecodeKeyParts (fun c => decide (c ∈ T.readSet)) T.pkParts
          (ik.drop T.idxColLen) b' = (v, d) := ⟨_, _, rfl⟩
        rw [hLast, hLast'] at hPk ⊢
        cases hPk
        cases w with
        | false | true => rfl

theorem currentPk_of_keyread {ik : Bytes} {rcd rcd' : Record ι} (h : tryKeyreadFromIndex T ik rcd = (true, rcd')) :
    rcd'.currentPk = ik.drop T.idxColLen := by
  rw [tryKeyreadFromIndex] at h
  split at h
  · cases h
  · split at h
    · cases h
    · split at h
      · cases h
      · split at h
        · cases h
        · cases h
          rfl

theorem taken_of_live {ik : Bytes} (h : live T ik = true) : taken T ik = true := by
  rw [taken, h, Bool.or_true]

omit [DecidableEq ι] in
theorem fetch_quiet {env : Env} (hQuiet : Quiet env) (ik : Bytes) (rcd : Record ι) :
    fetchRowByPk T env .read (ik.drop T.idxColLen) rcd =
      if live T ik then (none, ⟨T.row (ik.drop T.idxColLen), ik.drop T.idxColLen⟩) else (some .keyNotFound, rcd) := by
  rw [fetchRowByPk, hQuiet.fetch, live, Setup.visible]
  by_cases hRow : keyNsData :: ik.drop T.idxColLen ∈ T.dataKeys
  · rw [if_pos hRow, Option.isSome_some, if_pos rfl]
  · rw [if_neg hRow, Option.isSome_none, if_neg Bool.false_ne_true]

theorem materialize_quiet {env : Env} (hQuiet : Quiet env) (ik : Bytes) (rcd : Record ι) :
    (verdictOf (materialize T env ik rcd)).1 = (if taken T ik then .found else .skip) ∧
      (taken T ik = true → (verdictOf (materialize T env ik rcd)).2.currentPk = ik.drop T.idxColLen ∧
        (T.keyreadOnly = false → (verdictOf (materialize T env ik rcd)).2.buf = T.row (ik.drop T.idxColLen))) := by
  have hCovers : covers T ik = (T.keyreadOnly && (tryKeyreadFromIndex T ik rcd).1) := by
    rw [covers, tryKeyread_fst ik rcd]
  rw [materialize]
  split
  · rename_i rcd' hRead
    split at hRead
    · rename_i hOnly
      have hTaken : taken T ik = true := by rw [taken, hCovers, hRead, hOnly]; rfl
      rw [if_pos hTaken]
      refine ⟨rfl, fun _ => ⟨?_, fun hOff => by rw [hOnly] at hOff; cases hOff⟩⟩
      exact currentPk_of_keyread hRead
    · cases hRead
  · rename_i rcd' hRead
    have hNot : covers T ik = false := by
      rw [hCovers]
      split at hRead
      · rw [hRead, Bool.and_false]
      · rename_i hOff
        rw [Bool.eq_false_of_not_eq_true hOff, Bool.false_and]
    rw [fetch_quiet hQuiet, taken, hNot, Bool.false_or]
    cases live T ik with
    | false => exact ⟨rfl, fun h => by cases h⟩
    | true => exact ⟨rfl, fun _ => ⟨rfl, fun _ => rfl⟩⟩

end Visit

section Paths

variable {T : Setup ι} {comp : Bytes}

structure Searched (T : Setup ι) (comp : Bytes) : Prop extends Entered T where
  search : comp.length ≤ T.idxColLen

variable (h : Searched T comp)
include h

theorem Searched.length {ik : Bytes} (hk : ik ∈ T.entries) : ik.length = T.idxColLen + T.pkKeyLen := by
  obtain ⟨r, pk, rfl, hPk⟩ := h.entry ik hk
  rw [Pushdown.secIdxKey, length_append, length_makeComparableKey, hPk]
  rfl

theorem Searched.long {ik : Bytes} (hk : ik ∈ T.entries) : comp.length ≤ ik.length := by
  have hLen := h.length hk
  have hSearch := h.search
  omega

theorem Searched.not_short {ik : Bytes} (hk : ik ∈ T.entries) (err : HaError) : tooShort T err ik = none := by
  have hLen := h.length hk
  have hPk := h.pk
  rw [tooShort, if_neg (by omega)]

theorem Searched.greater_above {ik : Bytes} (hk : ik ∈ T.entries) (hGreater : comp < leading comp ik) :
    upperBound T comp < ik := by
  have hLt := append_lt_append (length_leading (h.long hk)).symm hGreater (replicate T.pkKeyLen keyInfHiByte)
    (ik.drop comp.length)
  rwa [leading_append] at hLt

theorem Searched.smaller_below {ik : Bytes} (hk : ik ∈ T.entries) (hSmaller : leading comp ik < comp) :
    ik < upperBound T comp := by
  have hLt := append_lt_append (length_leading (h.long hk)) hSmaller (ik.drop comp.length)
    (replicate T.pkKeyLen keyInfHiByte)
  rwa [leading_append] at hLt

theorem Searched.filter_ge_upper : T.entries.filter (atLeast (upperBound T comp)) =
    (same comp T.entries).filter (atLeast (upperBound T comp)) ++ greater comp T.entries := by
  have hGreater : (greater comp T.entries).filter (atLeast (upperBound T comp)) = greater comp T.entries := by
    rw [filter_eq_self]
    intro ik hk
    obtain ⟨hMem, hLt⟩ := mem_filter.mp hk
    exact atLeast_iff.mpr (h.greater_above hMem (of_decide_eq_true hLt)).le
  rw [← hGreater, ← filter_append, ← filter_ge T.entries_sorted fun k => h.long, filter_filter]
  refine filter_congr fun ik hk => ?_
  rw [Bool.eq_iff_iff, Bool.and_eq_true_iff, decide_eq_true_iff]
  refine ⟨fun hGe => ⟨hGe, not_lt.mp fun hLt => ?_⟩, fun hBoth => hBoth.1⟩
  exact not_le.mpr (h.smaller_below hk hLt) (atLeast_iff.mp hGe)

theorem Searched.filter_le_upper : T.entries.filter (atMost (upperBound T comp)) =
    smaller comp T.entries ++ (same comp T.entries).filter (atMost (upperBound T comp)) := by
  have hSmaller : (smaller comp T.entries).filter (atMost (upperBound T comp)) = smaller comp T.entries := by
    rw [filter_eq_self]
    intro ik hk
    obtain ⟨hMem, hLt⟩ := mem_filter.mp hk
    exact atMost_iff.mpr (h.smaller_below hMem (of_decide_eq_true hLt)).le
  rw [← hSmaller, ← filter_append, ← filter_le T.entries_sorted fun k => h.long, filter_filter]
  refine filter_congr fun ik hk => ?_
  rw [Bool.eq_iff_iff, Bool.and_eq_true_iff, decide_eq_true_iff]
  refine ⟨fun hLe => ⟨hLe, not_lt.mp fun hGt => ?_⟩, fun hBoth => hBoth.1⟩
  exact not_le.mpr (h.greater_above hk hGt) (atMost_iff.mp hLe)

theorem Searched.filter_ge_comp : T.entries.filter (atLeast comp) = same comp T.entries ++ greater comp T.entries := by
  rw [← filter_ge T.entries_sorted fun k => h.long]
  refine filter_congr fun ik hk => ?_
  rw [atLeast, decide_eq_decide, le_iff_leading (h.long hk)]

end Paths

def path (T : Setup ι) (comp : Bytes) (flag : FindFlag) : List Bytes :=
  let s := smaller comp T.entries
  let e := same comp T.entries
  let g := greater comp T.entries
  match flag with
  | .keyExact => e
  | .keyOrNext | .prefixAny => e ++ g
  | .afterKey => (e.filter (atLeast (upperBound T comp))).tail ++ g
  | .keyOrPrev | .beforeKey | .prefixLast | .prefixLastOrPrev =>
    (s ++ e.filter (atMost (upperBound T comp))).reverse

section Reads

variable {T : Setup ι} {comp : Bytes}

theorem comp_isPrefix_iff (ik : Bytes) : comp <+: ik ↔ leading comp ik = comp := by
  rw [prefix_iff_eq_take, leading, eq_comm]

theorem Searched.walk_after {β γ : Type*} (h : Searched T comp) (visit : β → Bytes → Verdict γ × β) (b : β) :
    walkForward T.entries visit (indexSeekSecondary T comp .afterKey) b = scan visit (path T comp .afterKey) b := by
  have hFilter := h.filter_ge_upper
  rw [path]
  cases hEq : (same comp T.entries).filter (atLeast (upperBound T comp)) with
  | nil =>
    rw [hEq, nil_append] at hFilter
    have hSeek : seek T.entries (upperBound T comp) = (greater comp T.entries).head? := by
      rw [seek, ← head?_filter, hFilter]
    have hPos : indexSeekSecondary T comp .afterKey = T.entries.find? (atLeast (upperBound T comp)) := by
      rw [indexSeekSecondary, ← head?_filter, hFilter, hSeek]
      cases hHead : (greater comp T.entries).head? with
      | none => rfl
      | some ik =>
        have hGreater := of_decide_eq_true (mem_filter.mp (mem_of_mem_head? hHead)).2
        exact if_neg fun hPre => hGreater.ne ((comp_isPrefix_iff ik).mp hPre).symm
    rw [hPos, walkForward_find visit T.entries_sorted (atLeast_up _), hFilter]
    rfl
  | cons x rest =>
    rw [hEq, cons_append] at hFilter
    have hSeek : seek T.entries (upperBound T comp) = some x := by rw [seek, ← head?_filter, hFilter, head?_cons]
    have hx : x ∈ (same comp T.entries).filter (atLeast (upperBound T comp)) := hEq ▸ mem_cons_self
    have hPre : comp <+: x := (comp_isPrefix_iff x).mpr (leading_of_mem_same (mem_of_mem_filter hx))
    have hPos : indexSeekSecondary T comp .afterKey = next T.entries x := by
      rw [indexSeekSecondary, hSeek]
      exact if_pos hPre
    rw [hPos, walkForward_next visit T.entries_sorted (atLeast_up _) hFilter]
    rfl

variable [DecidableEq ι] {env : Env}

theorem visitEntry_open (hQuiet : Quiet env) (hPushed : T.pushed = none) {early : Bytes → Option HaError} {ik : Bytes}
    (hEarly : early ik = none) (rcd : Record ι) :
    visitEntry T env early rcd ik = verdictOf (materialize T env ik rcd) := by
  simp only [visitEntry, hEarly, icpCheckSecondary, hPushed, hQuiet.alive, Bool.false_eq_true, if_false]

section

variable {early : Bytes → Option HaError} {p : List Bytes} (hQuiet : Quiet env) (hPushed : T.pushed = none)
  (hEarly : ∀ ik ∈ p, early ik = none)
include hQuiet hPushed hEarly

theorem visitEntry_taken (rcd : Record ι) (ik : Bytes) (hk : ik ∈ p) :
    (visitEntry T env early rcd ik).1 = if taken T ik then .found else .skip := by
  rw [visitEntry_open hQuiet hPushed (hEarly ik hk)]
  exact (materialize_quiet hQuiet ik rcd).1

theorem returns_finish (s : Scan ι) (found error : ScanDir) :
    Returns T (s.finish .keyNotFound found error (scan (visitEntry T env early) p s.record)) (p.find? (taken T)) := by
  have hVisit := visitEntry_taken hQuiet hPushed hEarly
  obtain ⟨hNone, rcd', hScan⟩ | ⟨ik, rcd, hFind, hScan⟩ := scan_taken hVisit s.record
  · rw [hNone, hScan]
    rfl
  · have hMem := mem_of_find?_eq_some hFind
    obtain ⟨hPk, hRow⟩ := (materialize_quiet hQuiet ik rcd).2 (find?_some hFind)
    rw [hFind, hScan, visitEntry_open hQuiet hPushed (hEarly ik hMem)]
    exact ⟨rfl, rfl, hPk, hRow⟩

end

omit [DecidableEq ι] in
theorem Searched.early (h : Searched T comp) {flag : FindFlag} {ik : Bytes} (hk : ik ∈ T.entries)
    (hFlag : flag = .keyExact → leading comp ik = comp) : exactOrShort T comp flag ik = none := by
  rw [exactOrShort, if_neg, h.not_short hk]
  rintro ⟨hExact, hNot⟩
  exact hNot ((comp_isPrefix_iff ik).mpr (hFlag hExact))

omit [DecidableEq ι] in
theorem mem_of_path {flag : FindFlag} {ik : Bytes} (h : ik ∈ path T comp flag) : ik ∈ T.entries := by
  have hSame {q : Bytes → Bool} (hk : ik ∈ (same comp T.entries).filter q) : ik ∈ T.entries :=
    mem_of_mem_filter (mem_of_mem_filter hk)
  have hBack (hk : ik ∈ (smaller comp T.entries ++ (same comp T.entries).filter (atMost (upperBound T comp))).reverse) :
      ik ∈ T.entries := by
    obtain hk | hk := mem_append.mp (mem_reverse.mp hk)
    · exact mem_of_mem_filter hk
    · exact hSame hk
  have hNext (hk : ik ∈ same comp T.entries ++ greater comp T.entries) : ik ∈ T.entries := by
    obtain hk | hk := mem_append.mp hk
    · exact mem_of_mem_filter hk
    · exact mem_of_mem_filter hk
  cases flag with
  | keyExact => exact mem_of_mem_filter h
  | keyOrNext | prefixAny => exact hNext h
  | afterKey =>
    obtain hk | hk := mem_append.mp h
    · exact hSame (mem_of_mem_tail hk)
    · exact mem_of_mem_filter hk
  | keyOrPrev | beforeKey | prefixLast | prefixLastOrPrev => exact hBack h

theorem Searched.returns_exact (h : Searched T comp) (hQuiet : Quiet env) (hPushed : T.pushed = none) (s : Scan ι)
    (found error : ScanDir) :
    Returns T (s.finish .keyNotFound found error
        (scan (visitEntry T env (exactOrShort T comp .keyExact))
          (same comp T.entries ++ greater comp T.entries) s.record))
      ((same comp T.entries).find? (taken T)) := by
  have hEarly : ∀ ik ∈ same comp T.entries, exactOrShort T comp .keyExact ik = none := fun ik hk =>
    h.early (mem_of_mem_filter hk) fun _ => leading_of_mem_same hk
  have hSame := returns_finish hQuiet hPushed hEarly s found error
  rw [scan_append]
  have hVisit := visitEntry_taken hQuiet hPushed hEarly
  obtain ⟨hNone, rcd', hScan⟩ | ⟨ik, rcd, hFind, hScan⟩ := scan_taken hVisit s.record
  · rw [hNone, hScan]
    dsimp only
    cases hGreater : greater comp T.entries with
    | nil => rfl
    | cons ik rest =>
      have hLt : comp < leading comp ik := of_decide_eq_true
        (mem_filter.mp (hGreater ▸ mem_cons_self : ik ∈ greater comp T.entries)).2
      have hStop : exactOrShort T comp .keyExact ik = some .keyNotFound :=
        if_pos ⟨rfl, fun hPre => hLt.ne ((comp_isPrefix_iff ik).mp hPre).symm⟩
      rw [scan, visitEntry, hStop]
      rfl
  · rw [hScan] at hSame ⊢
    exact hSame

theorem Searched.returns (h : Searched T comp) (hQuiet : Quiet env) (hIdx : T.isPk = false) (hPushed : T.pushed = none)
    (s : Scan ι) (flag : FindFlag) :
    Returns T (indexReadMap T env s comp flag) ((path T comp flag).find? (taken T)) := by
  rw [indexReadMap, if_neg (by simp [hIdx]), indexReadSecondary]
  obtain ⟨i, hIter⟩ := ensureScanIter_ok hQuiet { s with idxSearchComp := comp, pkPartialExactActive := false }
  rw [hIter]
  have hEarly (hFlag : flag ≠ .keyExact) : ∀ ik ∈ path T comp flag, exactOrShort T comp flag ik = none := fun ik hk =>
    h.early (mem_of_path hk) fun hEq => absurd hEq hFlag
  have hForward (hSeek : indexSeekSecondary T comp flag = T.entries.find? (atLeast comp)) (rcd : Record ι) :
      walkForward T.entries (visitEntry T env (exactOrShort T comp flag)) (indexSeekSecondary T comp flag) rcd =
        scan (visitEntry T env (exactOrShort T comp flag)) (same comp T.entries ++ greater comp T.entries) rcd := by
    rw [hSeek, walkForward_find _ T.entries_sorted (atLeast_up _), h.filter_ge_comp]
  have hBackward (hSeek : indexSeekSecondary T comp flag = T.entries.reverse.find? (atMost (upperBound T comp)))
      (rcd : Record ι) :
      walkBackward T.entries (visitEntry T env (exactOrShort T comp flag)) (indexSeekSecondary T comp flag) rcd =
        scan (visitEntry T env (exactOrShort T comp flag))
          (smaller comp T.entries ++ (same comp T.entries).filter (atMost (upperBound T comp))).reverse rcd := by
    rw [hSeek, walkBackward_find _ T.entries_sorted (atMost_down _), h.filter_le_upper]
  cases flag with
  | keyExact =>
    change Returns T (Scan.finish _ _ _ _ (walkForward T.entries _ _ _)) _
    rw [hForward rfl]
    exact h.returns_exact hQuiet hPushed _ _ _
  | keyOrNext | prefixAny =>
    change Returns T (Scan.finish _ _ _ _ (walkForward T.entries _ _ _)) _
    rw [hForward rfl]
    exact returns_finish hQuiet hPushed (hEarly (by simp)) _ _ _
  | afterKey =>
    change Returns T (Scan.finish _ _ _ _ (walkForward T.entries _ _ _)) _
    rw [h.walk_after]
    exact returns_finish hQuiet hPushed (hEarly (by simp)) _ _ _
  | keyOrPrev | beforeKey | prefixLast | prefixLastOrPrev =>
    change Returns T (Scan.finish _ _ _ _ (walkBackward T.entries _ _ _)) _
    rw [hBackward rfl]
    exact returns_finish hQuiet hPushed (hEarly (by simp)) _ _ _

end Reads

section Condition

variable (T : Setup ι) (comp : Bytes)

def within : List Bytes := (same comp T.entries).filter (atMost (upperBound T comp))
def beyond : List Bytes := (same comp T.entries).filter (above (upperBound T comp))

def notStepped : List Bytes := ((same comp T.entries).filter (atLeast (upperBound T comp))).tail

variable {T comp}

theorem within_append_beyond : within T comp ++ beyond T comp = same comp T.entries := by
  have hSorted : (same comp T.entries).Pairwise (· < ·) := T.entries_sorted.filter _
  have hParts := filter_append_filter (p := atMost (upperBound T comp)) hSorted
    fun x _ y _ => atMost_down _ x y
  have hBeyond : (same comp T.entries).filter (fun x => !atMost (upperBound T comp) x) = beyond T comp :=
    filter_congr fun x _ => by rw [atMost, above, ← decide_not, decide_eq_decide, not_le]
  rwa [hBeyond] at hParts

theorem not_within_of_beyond {x : Bytes} (hx : x ∈ beyond T comp) : x ∉ within T comp := by
  intro hWithin
  have hAbove := above_iff.mp (mem_filter.mp hx).2
  exact not_le.mpr hAbove (atMost_iff.mp (mem_filter.mp hWithin).2)

theorem not_smaller_of_same {keys : List Bytes} {x : Bytes} (hx : x ∈ same comp keys) : x ∉ smaller comp keys := by
  intro hSmaller
  have hLt := of_decide_eq_true (mem_filter.mp hSmaller).2
  rw [leading_of_mem_same hx] at hLt
  exact lt_irrefl comp hLt

theorem not_greater_of_same {keys : List Bytes} {x : Bytes} (hx : x ∈ same comp keys) : x ∉ greater comp keys := by
  intro hGreater
  have hLt := of_decide_eq_true (mem_filter.mp hGreater).2
  rw [leading_of_mem_same hx] at hLt
  exact lt_irrefl comp hLt

def asked (T : Setup ι) (comp : Bytes) (flag : FindFlag) : List Bytes :=
  match flag with
  | .keyExact | .prefixAny => same comp T.entries
  | .prefixLast => (same comp T.entries).reverse
  | .keyOrNext => same comp T.entries ++ greater comp T.entries
  | .afterKey => greater comp T.entries
  | .keyOrPrev | .prefixLastOrPrev => (smaller comp T.entries ++ same comp T.entries).reverse
  | .beforeKey => (smaller comp T.entries).reverse

theorem filter_live_comm (q : Bytes → Bool) :
    (T.entries.filter (live T)).filter q = (T.entries.filter q).filter (live T) := by
  rw [filter_filter, filter_filter]
  exact filter_congr fun x _ => Bool.and_comm ..

theorem Searched.wanted_eq (h : Searched T comp) (flag : FindFlag) :
    wanted T flag comp = (asked T comp flag).find? (live T) := by
  have hSorted : (T.entries.filter (live T)).Pairwise (· < ·) := T.entries_sorted.filter _
  rw [wanted, located_eq hSorted fun k hk => h.long (mem_of_mem_filter hk), smaller, same, greater, filter_live_comm,
    filter_live_comm, filter_live_comm]
  cases flag with
  | keyExact | prefixAny => exact head?_filter ..
  | prefixLast => exact (find?_reverse _).symm
  | keyOrNext =>
    dsimp only
    rw [← filter_append, head?_filter]
    rfl
  | afterKey => exact head?_filter ..
  | keyOrPrev | prefixLastOrPrev =>
    dsimp only
    rw [← filter_append]
    exact (find?_reverse _).symm
  | beforeKey => exact (find?_reverse _).symm

variable [DecidableEq ι]

/-- What is passed on the way to the wanted entry is not taken, for each way to search. -/
def Met (T : Setup ι) (comp : Bytes) (flag : FindFlag) : Prop :=
  let s := smaller comp T.entries
  let e := same comp T.entries
  let g := greater comp T.entries
  match flag with
  | .keyExact => Agree (taken T) (live T) e
  | .keyOrNext => Agree (taken T) (live T) (e ++ g)
  | .prefixAny => if e.any (taken T) then Agree (taken T) (live T) e else g.any (taken T) = false
  | .afterKey => (notStepped T comp).any (taken T) = false ∧ Agree (taken T) (live T) g
  | .beforeKey => (within T comp).any (taken T) = false ∧ Agree (taken T) (live T) s.reverse
  | .keyOrPrev | .prefixLastOrPrev =>
    (beyond T comp).any (live T) = false ∧ Agree (taken T) (live T) (s ++ within T comp).reverse
  | .prefixLast =>
    (beyond T comp).any (live T) = false ∧
      if (within T comp).any (taken T) then Agree (taken T) (live T) (within T comp).reverse
      else s.any (taken T) = false

theorem find?_path_iff (T : Setup ι) (comp : Bytes) (flag : FindFlag) :
    (path T comp flag).find? (taken T) = (asked T comp flag).find? (live T) ↔ Met T comp flag := by
  have hSub : ∀ x, live T x = true → taken T x = true := fun x => taken_of_live
  have hWithin {x : Bytes} (hx : x ∈ within T comp) : x ∈ same comp T.entries := mem_of_mem_filter hx
  have hBeyond {x : Bytes} (hx : x ∈ beyond T comp) : x ∈ same comp T.entries := mem_of_mem_filter hx
  have hPrev : (path T comp .keyOrPrev).find? (taken T) = (asked T comp .keyOrPrev).find? (live T) ↔
      Met T comp .keyOrPrev := by
    have hAsked : asked T comp .keyOrPrev =
        (beyond T comp).reverse ++ (smaller comp T.entries ++ within T comp).reverse := by
      rw [asked, ← within_append_beyond, ← append_assoc, reverse_append]
    rw [hAsked, Met, agree_iff hSub]
    change (smaller comp T.entries ++ within T comp).reverse.find? (taken T) = _ ↔ _
    rw [find?_missed_iff, any_reverse]
    intro x hx hPath
    rw [mem_reverse] at hx hPath
    obtain hSmaller | hIn := mem_append.mp hPath
    · exact not_smaller_of_same (hBeyond hx) hSmaller
    · exact not_within_of_beyond hx hIn
  cases flag with
  | keyExact | keyOrNext => exact (agree_iff hSub _).symm
  | prefixAny =>
    rw [Met, agree_iff hSub]
    exact find?_beyond_iff hSub
  | afterKey =>
    rw [Met, agree_iff hSub]
    refine find?_skip_iff fun x hx => not_greater_of_same ?_
    exact mem_of_mem_filter (mem_of_mem_tail hx)
  | beforeKey =>
    rw [Met, agree_iff hSub, path, reverse_append, ← any_reverse]
    refine find?_skip_iff fun x hx hSmaller => ?_
    exact not_smaller_of_same (hWithin (mem_reverse.mp hx)) (mem_reverse.mp hSmaller)
  | keyOrPrev | prefixLastOrPrev => exact hPrev
  | prefixLast =>
    have hAsked : asked T comp .prefixLast = (beyond T comp).reverse ++ (within T comp).reverse := by
      rw [asked, ← reverse_append, within_append_beyond]
    rw [hAsked, Met, agree_iff hSub, ← any_reverse (l := within T comp), ← any_reverse (l := smaller comp T.entries),
      ← find?_beyond_iff hSub, path, reverse_append, find?_missed_iff, any_reverse]
    · rfl
    · intro x hx hPath
      rw [mem_reverse] at hx
      obtain hIn | hSmaller := mem_append.mp hPath
      · exact not_within_of_beyond hx (mem_reverse.mp hIn)
      · exact not_smaller_of_same (hBeyond hx) (mem_reverse.mp hSmaller)

omit [DecidableEq ι] in
theorem searched_of_entered (h : Entered T) (n : Nat) (key : Row ι) :
    Searched T (keyCopyToComparable T.sorts T.idxParts n key) where
  toEntered := h
  search := by
    rw [Setup.idxColLen, ← length_makeComparableKey (S := T.sorts) T.idxParts key, keyCopyToComparable,
      makeComparableKey_take T.idxParts (if n = 0 then 1 else n) key, length_append]
    exact Nat.le_add_right _ _

/-- A read by a secondary index hands back the row its flag asks for exactly when the condition is met. -/
theorem index_read_map_wanted_iff {env : Env} (hIdx : T.isPk = false) (hPushed : T.pushed = none) (hEntered : Entered T)
    (hQuiet : Quiet env) (s : Scan ι) (n : Nat) (key : Row ι) (flag : FindFlag) :
    Returns T (indexReadMap T env s (keyCopyToComparable T.sorts T.idxParts n key) flag)
      (wanted T flag (keyCopyToComparable T.sorts T.idxParts n key)) ↔
      Met T (keyCopyToComparable T.sorts T.idxParts n key) flag := by
  have hSearched := searched_of_entered hEntered n key
  have hReturns := hSearched.returns hQuiet hIdx hPushed s flag
  rw [hSearched.wanted_eq, ← find?_path_iff]
  constructor
  · intro hWanted
    exact hReturns.unique hWanted
  · intro hEq
    rwa [← hEq]

end Condition

section Sample

def valueTable : Setup Bool where
  sorts := bytesOf
  idxParts := [bytePart true]
  pkParts := [bytePart false]
  hasUserPk := true
  isPk := false
  keyreadOnly := false
  readSet := []
  pushed := none
  entries := [[4, 1], [5, 2], [5, 3]]
  dataKeys := [[1, 1], [1, 2]]
  row := fun pk c => some (if c then pk.map (· + 3) else pk)
  entries_sorted := by decide
  dataKeys_sorted := by decide

theorem valueTable_entered : Entered valueTable := by
  have hAll : ∀ ik ∈ valueTable.entries, ik = Pushdown.secIdxKey valueTable (ik.drop 1) (pairRow ik) ∧
      (ik.drop 1).length = valueTable.pkKeyLen := by decide
  exact ⟨by decide, fun ik hk => ⟨pairRow ik, ik.drop 1, hAll ik hk⟩⟩

theorem index_read_map_wanted_prev :
    wanted valueTable .keyOrPrev (keyCopyToComparable bytesOf valueTable.idxParts 1 (pairRow [5])) = some [5, 2] ∧
      Returns valueTable (indexReadMap valueTable calm fresh
          (keyCopyToComparable valueTable.sorts valueTable.idxParts 1 (pairRow [5])) .keyOrPrev)
        (wanted valueTable .keyOrPrev (keyCopyToComparable valueTable.sorts valueTable.idxParts 1 (pairRow [5]))) :=
  ⟨by decide, (index_read_map_wanted_iff rfl rfl valueTable_entered calm_quiet fresh 1 (pairRow [5]) .keyOrPrev).mpr
    ⟨by decide, by decide⟩⟩

/-- A read of the last row before 5 hands back a row with 5, where one with 4 is asked for. -/
theorem equal_row_returned : Entered valueTable ∧ Quiet calm ∧
      wanted valueTable .beforeKey (keyCopyToComparable valueTable.sorts valueTable.idxParts 1 (pairRow [5])) =
        some [4, 1] ∧
      (indexReadMap valueTable calm fresh
        (keyCopyToComparable valueTable.sorts valueTable.idxParts 1 (pairRow [5])) .beforeKey).result = none ∧
      (indexReadMap valueTable calm fresh
        (keyCopyToComparable valueTable.sorts valueTable.idxParts 1 (pairRow [5])) .beforeKey).last = some [5, 2] :=
  ⟨valueTable_entered, calm_quiet, by decide, by decide, by decide⟩

end Sample

end TideSql.SecPosition
