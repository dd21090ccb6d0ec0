import TideSql.Handler.IndexRead

/-!
# A condition pushed to an index

`idx_cond_push` takes the condition away from the server, so that whatever the engine hands back is taken to
satisfy it, and whatever it passes over is lost.
-/

namespace TideSql.Pushdown
open KeyCodec SortKey IndexRead Lib.ByteOrder Lib.Cursor List

section Spec

variable {ι : Type} (T : Setup ι)

def secIdxKey (pk : Bytes) (r : Row ι) : Bytes := makeComparableKey T.sorts T.idxParts r ++ pk

def scanKey (pk : Bytes) (r : Row ι) : Bytes := if T.isPk then keyNsData :: pk else secIdxKey T pk r

def searchKey (comp : Bytes) : Bytes := if T.isPk then keyNsData :: comp else comp

def flagRegion (comp k : Bytes) : FindFlag → Prop
  | .keyExact | .prefixAny | .prefixLast => comp <+: k
  | .keyOrNext => comp ≤ k
  | .afterKey => comp ≤ k ∧ ¬comp <+: k
  | .keyOrPrev | .prefixLastOrPrev => k ≤ comp ∨ comp <+: k
  | .beforeKey => k < comp

def region (s : Scan ι) (k : Bytes) : Call → Prop
  | .readMap comp flag => flagRegion (searchKey T comp) k flag
  | .first | .last => True
  | .next => ∃ k₀, s.last = some k₀ ∧ k₀ < k
  | .prev => ∃ k₀, s.last = some k₀ ∧ k < k₀
  | .nextSame =>
    ∃ k₀, s.last = some k₀ ∧ k₀ < k ∧ searchKey T s.idxSearchComp <+: k₀ ∧ searchKey T s.idxSearchComp <+: k
  | .mrrInit .. => False
  | .mrrNext => ∃ e ∈ s.mrrEntries, searchKey T e.compKey <+: k

def isBackward : Call → Bool
  | .readMap _ flag => flag.isBackward
  | .prev | .last => true
  | .next | .first | .nextSame | .mrrInit .. | .mrrNext => false

def Passed (backward : Bool) (s : Scan ι) (k : Bytes) : Prop :=
  match s.result with
  | none => ∃ j, s.last = some j ∧ Before backward k j
  | some .keyNotFound | some .endOfFile => True
  | some .queryInterrupted | some (.other _) => False

/-- A call leaves `s'`: the row it hands back satisfies the condition, and no visible row that
satisfies it and lies in the range is passed over. -/
structure Right (P : Pushed ι) (s : Scan ι) (c : Call) (s' : Scan ι) : Prop where
  satisfied : s'.result = none → s'.last ≠ none → P.cond s'.record.buf = true
  complete : ∀ pk r, T.visible pk = some r → P.cond r = true → P.outOfRange r = false →
    region T s (scanKey T pk r) c → ¬Passed (isBackward c) s' (scanKey T pk r)

variable [DecidableEq ι]

def shown (k : Bytes) : Option (Row ι) :=
  match icpDecode T k fun _ => none with
  | (true, buf) => some buf
  | (false, _) => T.visible (k.drop T.idxColLen)

def Fetches (env : Env) (phase : Phase) (k : Bytes) : Prop :=
  env.fetchError phase (k.drop T.idxColLen) = none ∧ T.visible (k.drop T.idxColLen) ≠ none

/-- The table, its index and the condition. `cols` are the columns the condition reads. -/
structure Sound (P : Pushed ι) (cols : List ι) : Prop where
  pushed : T.pushed = some P
  depends : ∀ b b', (∀ c ∈ cols, b c = b' c) → P.cond b = P.cond b' ∧ P.outOfRange b = P.outOfRange b'
  covered : ∀ c ∈ cols, (∃ p ∈ T.idxParts, c = p.col) ∨ T.hasUserPk = true ∧ ∃ p ∈ T.pkParts, c = p.col
  read : ∀ c ∈ cols, c ∈ T.readSet
  notNull : ∀ pk r, T.visible pk = some r → ∀ p ∈ T.idxParts ++ T.pkParts, p.field.nullable = false → r p.col ≠ none
  /-- The columns of the condition are of types that decode to the stored value. -/
  exact : ∀ pk r, T.visible pk = some r → ∀ p ∈ T.idxParts ++ T.pkParts, p.col ∈ cols → Exact T.sorts p r
  long : ∀ k ∈ T.entries, T.idxColLen < k.length
  /-- An entry of a visible row is the one of its present values. -/
  entry : ∀ k ∈ T.entries, ∀ r, T.visible (k.drop T.idxColLen) = some r → k = secIdxKey T (k.drop T.idxColLen) r ∧
      (T.hasUserPk = true → k.drop T.idxColLen = makeComparableKey T.sorts T.pkParts r)
  indexed : ∀ pk r, T.visible pk = some r → secIdxKey T pk r ∈ T.entries

structure Checked (P : Pushed ι) (act : Call × Env) : Prop where
  secondary : T.isPk = false
  not_last : act.1 ≠ .last
  not_mrr : act.1 ≠ .mrrNext
  /-- What is appended to a search key to go backwards from it is not exceeded. -/
  bounded : ∀ comp flag, act.1 = .readMap comp flag → flag.isBackward = true →
    ∀ k ∈ T.entries, comp <+: k → k ≤ upperBound T comp
  /-- The end of the range is one in the direction of the call. -/
  range : ∀ k ∈ T.entries, ∀ k' ∈ T.entries, Before (isBackward act.1) k k' → ∀ b b', shown T k = some b →
    shown T k' = some b' → P.outOfRange b = true → P.outOfRange b' = true
  /-- A row that the check could neither decode nor fetch is not handed back after all. -/
  fetched : ∀ k ∈ T.entries, (icpDecode T k fun _ => none).1 = false → ¬Fetches T act.2 .check k →
    T.keyreadOnly = false ∧ ¬Fetches T act.2 .read k

end Spec

section Entry

variable {ι : Type} [DecidableEq ι] {T : Setup ι} {P : Pushed ι} {cols : List ι}

variable {k : Bytes} {buf b : Row ι}

theorem icpDecode_eq_true : icpDecode T k buf = (true, b) ↔ ∃ b₁, icpDecodeKeyParts T.idxParts k buf = (true, b₁) ∧
      (T.hasUserPk = true ∧ icpDecodeKeyParts T.pkParts (k.drop T.idxColLen) b₁ = (true, b) ∨
        T.hasUserPk = false ∧ b₁ = b) := by
  rw [icpDecode]
  obtain ⟨ok, b₁⟩ := icpDecodeKeyParts T.idxParts k buf
  cases ok with
  | false => simp
  | true => cases hUser : T.hasUserPk <;> simp

variable {r : Row ι}

theorem Sound.decoded_parts (h : Sound T P cols) {pk : Bytes} (hRow : T.visible pk = some r) {want : ι → Bool}
    {parts : List (KeyPart ι)} (hParts : ∀ p ∈ parts, p ∈ T.idxParts ++ T.pkParts) {rest : Bytes}
    (hDecode : keyreadDecodeKeyParts want parts (makeComparableKey T.sorts parts r ++ rest) buf = (true, b)) {c : ι}
    (hc : c ∈ cols) (hHere : buf c = r c ∨ want c = true ∧ ∃ p ∈ parts, c = p.col) : b c = r c :=
  keyreadDecode_makeComparableKey parts rest buf (fun p hp => h.notNull pk r hRow p (hParts p hp)) hDecode
    (fun p hp hCol => h.exact pk r hRow p (hParts p hp) (hCol ▸ hc)) hHere

theorem Sound.decoded (h : Sound T P cols) (hk : k ∈ T.entries) (hRow : T.visible (k.drop T.idxColLen) = some r)
    (hDecode : icpDecode T k buf = (true, b)) : ∀ c ∈ cols, b c = r c := by
  intro c hc
  obtain ⟨hKey, hPk⟩ := h.entry k hk r hRow
  obtain ⟨b₁, hIdx, hRest⟩ := icpDecode_eq_true.mp hDecode
  have hFirst : (∃ p ∈ T.idxParts, c = p.col) → b₁ c = r c := by
    intro hCol
    rw [icpDecodeKeyParts, hKey, secIdxKey] at hIdx
    exact h.decoded_parts hRow (fun p => mem_append_left _) hIdx hc (.inr ⟨rfl, hCol⟩)
  obtain ⟨hUser, hRead⟩ | ⟨hUser, rfl⟩ := hRest
  · rw [icpDecodeKeyParts, hPk hUser, ← append_nil (makeComparableKey ..)] at hRead
    refine h.decoded_parts hRow (fun p => mem_append_right _) hRead hc ?_
    exact (h.covered c hc).imp hFirst fun hCol => ⟨rfl, hCol.2⟩
  · exact hFirst ((h.covered c hc).resolve_right fun hCol => by simp [hUser] at hCol)

theorem Sound.decode_agree (h : Sound T P cols) (hDecode : icpDecode T k buf = (true, b)) (buf' : Row ι) :
    ∃ b', icpDecode T k buf' = (true, b') ∧ ∀ c ∈ cols, b c = b' c := by
  obtain ⟨b₁, hIdx, hRest⟩ := icpDecode_eq_true.mp hDecode
  obtain ⟨b₁', hIdx', hAgree⟩ := keyreadDecode_agree T.idxParts (fun _ _ hWant => hWant) k hIdx buf'
  obtain ⟨hUser, hRead⟩ | ⟨hUser, rfl⟩ := hRest
  · obtain ⟨b', hRead', hAgree'⟩ := keyreadDecode_agree T.pkParts (fun _ _ hWant => hWant) _ hRead b₁'
    refine ⟨b', icpDecode_eq_true.mpr ⟨b₁', hIdx', .inl ⟨hUser, hRead'⟩⟩, fun c hc => hAgree' c rfl ?_⟩
    exact (h.covered c hc).imp (fun hCol => hAgree c rfl (.inr hCol)) And.right
  · refine ⟨b₁', icpDecode_eq_true.mpr ⟨b₁', hIdx', .inr ⟨hUser, rfl⟩⟩, fun c hc => hAgree c rfl (.inr ?_)⟩
    exact (h.covered c hc).resolve_right fun hCol => by simp [hUser] at hCol

variable {rcd rcd' : Record ι}

theorem tryKeyread_eq_true (h : tryKeyreadFromIndex T k rcd = (true, rcd')) : T.hasUserPk = true ∧ ∃ b₁,
      keyreadDecodeKeyParts (fun c => decide (c ∈ T.readSet)) T.idxParts k rcd.buf = (true, b₁) ∧
      keyreadDecodeKeyParts (fun c => decide (c ∈ T.readSet)) T.pkParts (k.drop T.idxColLen) b₁ = (true, rcd'.buf) := by
  rw [tryKeyreadFromIndex] at h
  split at h
  · cases h
  · rename_i hUser
    split at h
    · cases h
    · split at h
      · cases h
      · rename_i b₁ hIdx
        split at h
        · cases h
        · rename_i b₂ hPk
          cases h
          exact ⟨not_not.mp hUser, b₁, hIdx, hPk⟩

theorem Sound.keyread_agree (h : Sound T P cols) (hDecode : icpDecode T k buf = (true, b))
    (hKeyread : tryKeyreadFromIndex T k rcd = (true, rcd')) : ∀ c ∈ cols, rcd'.buf c = b c := by
  intro c hc
  have hWant : decide (c ∈ T.readSet) = true := decide_eq_true (h.read c hc)
  obtain ⟨hUser, x₁, hIdx', hPk'⟩ := tryKeyread_eq_true hKeyread
  obtain ⟨b₁, hIdx, hRest⟩ := icpDecode_eq_true.mp hDecode
  obtain ⟨-, hPk⟩ | ⟨hUser', -⟩ := hRest
  · obtain ⟨y₁, hRead, hAgree⟩ := keyreadDecode_agree T.idxParts (fun _ _ _ => rfl) k hIdx rcd.buf
    obtain rfl : x₁ = y₁ := congrArg Prod.snd (hIdx'.symm.trans hRead)
    obtain ⟨y₂, hRead', hAgree'⟩ := keyreadDecode_agree T.pkParts (fun _ _ _ => rfl) _ hPk x₁
    obtain hEq : rcd'.buf = y₂ := congrArg Prod.snd (hPk'.symm.trans hRead')
    rw [hEq, hAgree' c hWant]
    exact (h.covered c hc).imp (fun hCol => hAgree c hWant (.inr hCol)) And.right
  · rw [hUser] at hUser'
    cases hUser'

theorem Sound.keyread_row (h : Sound T P cols) (hk : k ∈ T.entries) (hRow : T.visible (k.drop T.idxColLen) = some r)
    (hBuf : ∀ c ∈ cols, rcd.buf c = r c) (hKeyread : tryKeyreadFromIndex T k rcd = (true, rcd')) :
    ∀ c ∈ cols, rcd'.buf c = r c := by
  intro c hc
  obtain ⟨hKey, hPkKey⟩ := h.entry k hk r hRow
  obtain ⟨hUser, b₁, hIdx, hPk⟩ := tryKeyread_eq_true hKeyread
  rw [hKey, secIdxKey] at hIdx
  rw [hPkKey hUser, ← append_nil (makeComparableKey ..)] at hPk
  have hFirst := h.decoded_parts hRow (fun p => mem_append_left _) hIdx hc (.inl (hBuf c hc))
  exact h.decoded_parts hRow (fun p => mem_append_right _) hPk hc (.inl hFirst)

omit [DecidableEq ι] in
theorem fetchRowByPk_cases (T : Setup ι) (env : Env) (phase : Phase) (pk : Bytes) (rcd : Record ι) :
    (∃ code, env.fetchError phase pk = some code ∧ fetchRowByPk T env phase pk rcd = (some (.other code), rcd)) ∨
      env.fetchError phase pk = none ∧
        (T.visible pk = none ∧ fetchRowByPk T env phase pk rcd = (some .keyNotFound, rcd) ∨
          ∃ r, T.visible pk = some r ∧ fetchRowByPk T env phase pk rcd = (none, ⟨r, pk⟩)) := by
  rw [fetchRowByPk]
  cases hError : env.fetchError phase pk with
  | some code => exact .inl ⟨code, rfl, rfl⟩
  | none =>
    cases hRow : T.visible pk with
    | none => exact .inr ⟨rfl, .inl ⟨rfl, rfl⟩⟩
    | some r => exact .inr ⟨rfl, .inr ⟨r, rfl, rfl⟩⟩

theorem Sound.icpCheck_cases (h : Sound T P cols) (env : Env) (hk : k ∈ T.entries) {v : IcpResult}
    (hCheck : icpCheckSecondary T env k rcd = (v, rcd')) :
    (∃ b, icpDecode T k rcd.buf = (true, b) ∧ v = indexCondCheck P b ∧ rcd'.buf = b) ∨
      (icpDecode T k rcd.buf).1 = false ∧
        ((∃ r, T.visible (k.drop T.idxColLen) = some r ∧ v = indexCondCheck P r ∧ rcd'.buf = r) ∨
          ¬Fetches T env .check k ∧ v = .icpMatch) := by
  simp only [icpCheckSecondary, h.pushed, if_pos (h.long k hk)] at hCheck
  split at hCheck
  · rename_i b hDecode
    cases hCheck
    exact .inl ⟨b, hDecode, rfl, rfl⟩
  · rename_i b hDecode
    refine .inr ⟨by rw [hDecode], ?_⟩
    obtain ⟨code, hError, hFetch⟩ | ⟨-, ⟨hNone, hFetch⟩ | ⟨r, hRow, hFetch⟩⟩ :=
      fetchRowByPk_cases T env .check (k.drop T.idxColLen) { rcd with buf := b }
    · rw [hFetch] at hCheck
      cases hCheck
      refine .inr ⟨fun hBoth => ?_, rfl⟩
      rw [Fetches, hError] at hBoth
      cases hBoth.1
    · rw [hFetch] at hCheck
      cases hCheck
      exact .inr ⟨fun hBoth => hBoth.2 hNone, rfl⟩
    · rw [hFetch] at hCheck
      cases hCheck
      exact .inl ⟨r, hRow, rfl, rfl⟩

theorem Sound.decodes_iff (h : Sound T P cols) (k : Bytes) (buf buf' : Row ι) :
    (icpDecode T k buf).1 = (icpDecode T k buf').1 := by
  have hMp : ∀ b₁ b₂ : Row ι, (icpDecode T k b₁).1 = true → (icpDecode T k b₂).1 = true := by
    intro b₁ b₂ hTrue
    obtain ⟨b', hDecode, -⟩ := h.decode_agree (Prod.ext hTrue rfl : icpDecode T k b₁ = (true, _)) b₂
    rw [hDecode]
  exact Bool.eq_iff_iff.mpr ⟨hMp buf buf', hMp buf' buf⟩

theorem materialize_cases (T : Setup ι) (env : Env) (k : Bytes) (rcd : Record ι) :
    (∃ rcd', T.keyreadOnly = true ∧ tryKeyreadFromIndex T k rcd = (true, rcd') ∧
      materialize T env k rcd = (none, rcd')) ∨
      ∃ rcd', materialize T env k rcd = fetchRowByPk T env .read (k.drop T.idxColLen) rcd' := by
  rw [materialize]
  split
  · rename_i rcd' hRead
    split at hRead
    · rename_i hOnly
      exact .inl ⟨rcd', hOnly, hRead, rfl⟩
    · cases hRead
  · exact .inr ⟨_, rfl⟩

theorem materialize_eq_ok {env : Env} (h : materialize T env k rcd = (none, rcd')) :
    T.keyreadOnly = true ∧ tryKeyreadFromIndex T k rcd = (true, rcd') ∨
      Fetches T env .read k ∧ T.visible (k.drop T.idxColLen) = some rcd'.buf := by
  obtain ⟨rcd₁, hOnly, hRead, hOk⟩ | ⟨rcd₁, hFetch⟩ := materialize_cases T env k rcd
  · rw [hOk] at h
    cases h
    exact .inl ⟨hOnly, hRead⟩
  · rw [hFetch] at h
    obtain ⟨code, -, hEq⟩ | ⟨hError, ⟨-, hEq⟩ | ⟨r, hRow, hEq⟩⟩ :=
      fetchRowByPk_cases T env .read (k.drop T.idxColLen) rcd₁
    · rw [hEq] at h
      cases h
    · rw [hEq] at h
      cases h
    · rw [hEq] at h
      cases h
      exact .inr ⟨⟨hError, by simp [hRow]⟩, hRow⟩

omit [DecidableEq ι] in
theorem indexCondCheck_eq_match {b : Row ι} : indexCondCheck P b = .icpMatch ↔ P.outOfRange b = false ∧
    P.cond b = true := by
  rw [indexCondCheck]
  cases P.outOfRange b <;> cases P.cond b <;> decide

omit [DecidableEq ι] in
theorem indexCondCheck_eq_outOfRange {b : Row ι} : indexCondCheck P b = .outOfRange ↔ P.outOfRange b = true := by
  rw [indexCondCheck]
  cases P.outOfRange b <;> cases P.cond b <;> decide

omit [DecidableEq ι] in
theorem verdictOf_eq_found {res : Option HaError × Record ι} {rcd : Record ι} (h : verdictOf res = (.found, rcd)) :
    res = (none, rcd) := by
  obtain ⟨_ | err, rcd₀⟩ := res
  · cases h
    rfl
  · cases err <;> cases h

theorem Sound.cond_of_found (h : Sound T P cols) {env : Env} (hk : k ∈ T.entries)
    (hFetched : (icpDecode T k fun _ => none).1 = false → ¬Fetches T env .check k →
      T.keyreadOnly = false ∧ ¬Fetches T env .read k)
    {early : Bytes → Option HaError} (hVisit : visitEntry T env early rcd k = (.found, rcd')) :
    P.cond rcd'.buf = true := by
  rw [visitEntry] at hVisit
  split at hVisit
  · cases hVisit
  · split at hVisit
    · cases hVisit
    · cases hVisit
    · rename_i rcd₁ hCheck
      split at hVisit
      · cases hVisit
      · have hRead := materialize_eq_ok (verdictOf_eq_found hVisit)
        obtain ⟨b, hDecode, hMatch, -⟩ | ⟨hNot, ⟨r, hRow, hMatch, hBuf⟩ | ⟨hFail, -⟩⟩ := h.icpCheck_cases env hk hCheck
        · rw [← (indexCondCheck_eq_match.mp hMatch.symm).2]
          obtain ⟨-, hKeyread⟩ | ⟨-, hRow⟩ := hRead
          · exact (h.depends _ _ (h.keyread_agree hDecode hKeyread)).1
          · exact ((h.depends _ _ (h.decoded hk hRow hDecode)).1).symm
        · rw [← (indexCondCheck_eq_match.mp hMatch.symm).2]
          obtain ⟨-, hKeyread⟩ | ⟨-, hRow'⟩ := hRead
          · exact (h.depends _ _ (h.keyread_row hk hRow (fun c _ => by rw [hBuf]) hKeyread)).1
          · rw [hRow] at hRow'
            cases hRow'
            rfl
        · rw [h.decodes_iff k rcd.buf fun _ => none] at hNot
          obtain ⟨hOnly, hNoFetch⟩ := hFetched hNot hFail
          obtain ⟨hOnly', -⟩ | ⟨hFetch, -⟩ := hRead
          · rw [hOnly] at hOnly'
            cases hOnly'
          · exact absurd hFetch hNoFetch

theorem verdictOf_materialize (T : Setup ι) (env : Env) (k : Bytes) (rcd : Record ι) :
    (verdictOf (materialize T env k rcd)).1 = .found ∨
      (∃ code, (verdictOf (materialize T env k rcd)).1 = .stop (.other code)) ∨
      T.visible (k.drop T.idxColLen) = none ∧ (verdictOf (materialize T env k rcd)).1 = .skip := by
  obtain ⟨rcd₁, -, -, hOk⟩ | ⟨rcd₁, hFetch⟩ := materialize_cases T env k rcd
  · rw [hOk]
    exact .inl rfl
  · rw [hFetch]
    obtain ⟨code, -, hEq⟩ | ⟨-, ⟨hNone, hEq⟩ | ⟨r, -, hEq⟩⟩ :=
      fetchRowByPk_cases T env .read (k.drop T.idxColLen) rcd₁
    · rw [hEq]
      exact .inr (.inl ⟨code, rfl⟩)
    · rw [hEq]
      exact .inr (.inr ⟨hNone, rfl⟩)
    · rw [hEq]
      exact .inl rfl

omit [DecidableEq ι] in
theorem drop_secIdxKey (T : Setup ι) (pk : Bytes) (r : Row ι) : (secIdxKey T pk r).drop T.idxColLen = pk :=
  drop_left' (length_makeComparableKey ..)

section

variable (h : Sound T P cols)
include h

theorem Sound.icpCheck_wanted (env : Env) (hk : k ∈ T.entries) (hRow : T.visible (k.drop T.idxColLen) = some r)
    (hCond : P.cond r = true) (hIn : P.outOfRange r = false) {v : IcpResult}
    (hCheck : icpCheckSecondary T env k rcd = (v, rcd')) : v = .icpMatch := by
  obtain ⟨b, hDecode, hVerdict, -⟩ | ⟨-, ⟨r', hRow', hVerdict, -⟩ | ⟨-, hVerdict⟩⟩ := h.icpCheck_cases env hk hCheck
  · obtain ⟨hSame, hSame'⟩ := h.depends b r (h.decoded hk hRow hDecode)
    rw [hVerdict, indexCondCheck_eq_match]
    exact ⟨hSame'.trans hIn, hSame.trans hCond⟩
  · rw [hRow] at hRow'
    cases hRow'
    rw [hVerdict, indexCondCheck_eq_match]
    exact ⟨hIn, hCond⟩
  · exact hVerdict

theorem Sound.visit_wanted (env : Env) {pk : Bytes} (hRow : T.visible pk = some r) (hCond : P.cond r = true)
    (hIn : P.outOfRange r = false) (early : Bytes → Option HaError) (rcd : Record ι) :
    (visitEntry T env early rcd (secIdxKey T pk r)).1 ≠ .skip ∧
      (early (secIdxKey T pk r) = none → ∀ err, (visitEntry T env early rcd (secIdxKey T pk r)).1 = .stop err →
        err ≠ .keyNotFound ∧ err ≠ .endOfFile) := by
  have hk := h.indexed pk r hRow
  have hDrop := drop_secIdxKey T pk r
  generalize secIdxKey T pk r = k at hk hDrop ⊢
  rw [← hDrop] at hRow
  rw [visitEntry]
  split
  · rename_i err hEarly
    exact ⟨nofun, fun hNone => by rw [hNone] at hEarly; cases hEarly⟩
  · split
    · rename_i hCheck
      cases h.icpCheck_wanted env hk hRow hCond hIn hCheck
    · rename_i hCheck
      cases h.icpCheck_wanted env hk hRow hCond hIn hCheck
    · rename_i rcd₁ hCheck
      split
      · refine ⟨nofun, fun _ err hStop => ?_⟩
        cases hStop
        exact ⟨nofun, nofun⟩
      · obtain hFound | ⟨code, hStop⟩ | ⟨hNone, -⟩ := verdictOf_materialize T env k rcd₁
        · rw [hFound]
          exact ⟨nofun, fun _ _ hStop => by cases hStop⟩
        · rw [hStop]
          refine ⟨nofun, fun _ err hErr => ?_⟩
          cases hErr
          exact ⟨nofun, nofun⟩
        · rw [hRow] at hNone
          cases hNone

theorem Sound.visit_stop {env : Env} (hk : k ∈ T.entries) {early : Bytes → Option HaError} {err : HaError}
    (hVisit : visitEntry T env early rcd k = (.stop err, rcd')) (hErr : err = .keyNotFound ∨ err = .endOfFile) :
    early k = some err ∨ ∃ b, shown T k = some b ∧ P.outOfRange b = true := by
  rw [visitEntry] at hVisit
  split at hVisit
  · rename_i hEarly
    cases hVisit
    exact .inl hEarly
  · split at hVisit
    · cases hVisit
    · rename_i rcd₁ hCheck
      refine .inr ?_
      obtain ⟨b, hDecode, hOut, -⟩ | ⟨hNot, ⟨r, hRow, hOut, -⟩ | ⟨-, hOut⟩⟩ := h.icpCheck_cases env hk hCheck
      · obtain ⟨b', hDecode', hAgree⟩ := h.decode_agree hDecode fun _ => none
        refine ⟨b', by rw [shown, hDecode'], ?_⟩
        rw [← (h.depends b b' hAgree).2]
        exact indexCondCheck_eq_outOfRange.mp hOut.symm
      · refine ⟨r, ?_, indexCondCheck_eq_outOfRange.mp hOut.symm⟩
        rw [h.decodes_iff k rcd.buf fun _ => none] at hNot
        rw [shown]
        split
        · rename_i hDecode
          rw [hDecode] at hNot
          cases hNot
        · exact hRow
      · cases hOut
    · split at hVisit
      · cases hVisit
        obtain hErr | hErr := hErr <;> cases hErr
      · rename_i rcd₁ _ _
        have hVerdict := congrArg Prod.fst hVisit
        obtain hFound | ⟨code, hStop⟩ | ⟨-, hSkip⟩ := verdictOf_materialize T env k rcd₁
        · rw [hFound] at hVerdict
          cases hVerdict
        · rw [hStop] at hVerdict
          cases hVerdict
          obtain hErr | hErr := hErr <;> cases hErr
        · rw [hSkip] at hVerdict
          cases hVerdict

theorem Sound.shown_of_visible (hk : k ∈ T.entries) (hRow : T.visible (k.drop T.idxColLen) = some r) :
    ∃ b, shown T k = some b ∧ P.outOfRange b = P.outOfRange r := by
  rw [shown]
  split
  · rename_i b hDecode
    exact ⟨b, rfl, (h.depends b r (h.decoded hk hRow hDecode)).2⟩
  · exact ⟨r, hRow, rfl⟩

end

end Entry

end TideSql.Pushdown
