import Mathlib
import TideSql.Core.SortKey

/-!
# Comparable keys and reading columns back from them

`make_comparable_key` writes the parts of a key at fixed widths, a descending part inverted, and the decoders
of a pushed condition and of a covering read go through the same parts.
-/

namespace TideSql.KeyCodec
open SortKey List Function

inductive RealType where
  | tiny
  | short
  | int24
  | long
  | longlong
  | year
  | date
  | newdate
  | datetime
  | datetime2
  | timestamp
  | timestamp2
  | string
  | other
  deriving DecidableEq, Repr

inductive Charset where
  | bin
  | latin1
  | other
  deriving DecidableEq, Repr

structure Field (ι : Type) where
  col : ι
  nullable : Bool
  realType : RealType
  isUnsigned : Bool
  charset : Charset
  packLength : Nat

def Field.sortDesc {ι : Type} (f : Field ι) : FieldSortDesc :=
  match f.realType with
  | .tiny | .short | .int24 | .long | .longlong => { k := .integer, isSigned := !f.isUnsigned }
  | .year => { k := .year }
  | .date | .newdate => { k := .date }
  | .datetime | .datetime2 | .timestamp | .timestamp2 => { k := .datetime }
  | .string =>
    match f.charset with
    | .bin => { k := .charFixed, packLength := f.packLength, padByte := 0x00 }
    | .latin1 => { k := .charFixed, packLength := f.packLength, padByte := 0x20 }
    | .other => {}
  | .other => {}

structure KeyPart (ι : Type) where
  field : Field ι
  length : Nat
  desc : Bool

abbrev KeyPart.col {ι : Type} (p : KeyPart ι) : ι := p.field.col

structure SortStrings (ι : Type) where
  write : Field ι → Nat → Bytes → Bytes
  length_write : ∀ f n v, (write f n v).length = n

abbrev Row (ι : Type) := ι → Option Bytes

def sortKeyNull : UInt8 := 0
def sortKeyNotNull : UInt8 := 1

def invertKeyPart (bytes : Bytes) : Bytes := bytes.map fun b => ~~~b

section Make

variable {ι : Type} (S : SortStrings ι)

def comparableSpan (p : KeyPart ι) (row : Row ι) : Bytes :=
  if p.field.nullable then
    match row p.col with
    | none => sortKeyNull :: replicate p.length 0
    | some v => sortKeyNotNull :: S.write p.field p.length v
  else S.write p.field p.length ((row p.col).getD [])

def comparablePart (p : KeyPart ι) (row : Row ι) : Bytes :=
  if p.desc then invertKeyPart (comparableSpan S p row) else comparableSpan S p row

def makeComparableKey (parts : List (KeyPart ι)) (row : Row ι) : Bytes :=
  parts.flatMap fun p => comparablePart S p row

def comparableKeyLength (parts : List (KeyPart ι)) : Nat :=
  (parts.map fun p => (if p.field.nullable then 1 else 0) + p.length).sum

end Make

section Decode

variable {ι : Type} [DecidableEq ι]

def decodeValue (want : ι → Bool) (p : KeyPart ι) (pos : Bytes) (buf : Row ι) : Option Bytes × Row ι :=
  if pos.length < p.length then (none, buf)
  else if want p.col then
    match decodePart p.field.sortDesc
      (if p.desc then invertKeyPart (pos.take p.length) else pos.take p.length) with
    | none => (none, buf)
    | some v => (some (pos.drop p.length), update buf p.col (some v))
  else (some (pos.drop p.length), buf)

def decodeKeyPart (want : ι → Bool) (p : KeyPart ι) (pos : Bytes) (buf : Row ι) : Option Bytes × Row ι :=
  if p.field.nullable then
    match pos with
    | [] => (none, buf)
    | nb :: pos =>
      if (if p.desc then ~~~nb else nb) = 0 then
        if pos.length < p.length then (none, update buf p.col none)
        else (some (pos.drop p.length), update buf p.col none)
      else decodeValue want p pos (update buf p.col (some ((buf p.col).getD [])))
  else decodeValue want p pos buf

/-- `keyread_decode_key_parts`, which reads the wanted columns only. -/
def keyreadDecodeKeyParts (want : ι → Bool) : List (KeyPart ι) → Bytes → Row ι → Bool × Row ι
  | [], _, buf => (true, buf)
  | p :: parts, pos, buf =>
    match decodeKeyPart want p pos buf with
    | (none, buf') => (false, buf')
    | (some pos', buf') => keyreadDecodeKeyParts want parts pos' buf'

def icpDecodeKeyParts (parts : List (KeyPart ι)) (pos : Bytes) (buf : Row ι) : Bool × Row ι :=
  keyreadDecodeKeyParts (fun _ => true) parts pos buf

end Decode

section Lengths

variable {ι : Type} {S : SortStrings ι}

theorem length_invertKeyPart (bytes : Bytes) : (invertKeyPart bytes).length = bytes.length := length_map ..

theorem invertKeyPart_invertKeyPart (bytes : Bytes) : invertKeyPart (invertKeyPart bytes) = bytes := by
  have hId : (fun b : UInt8 => ~~~b) ∘ (fun b => ~~~b) = id := funext fun b => UInt8.not_not
  rw [invertKeyPart, invertKeyPart, map_map, hId, map_id]

theorem length_comparableSpan (p : KeyPart ι) (row : Row ι) :
    (comparableSpan S p row).length = (if p.field.nullable then 1 else 0) + p.length := by
  rw [comparableSpan]
  split
  · split
    · simp [Nat.add_comm]
    · simp [S.length_write, Nat.add_comm]
  · simp [S.length_write]

theorem comparableSpan_of_comparablePart {p : KeyPart ι} {row row' : Row ι}
    (h : comparablePart S p row = comparablePart S p row') : comparableSpan S p row = comparableSpan S p row' := by
  rw [comparablePart, comparablePart] at h
  split at h
  · have hInvert := congrArg invertKeyPart h
    rwa [invertKeyPart_invertKeyPart, invertKeyPart_invertKeyPart] at hInvert
  · exact h

theorem length_comparablePart (p : KeyPart ι) (row : Row ι) :
    (comparablePart S p row).length = (if p.field.nullable then 1 else 0) + p.length := by
  rw [comparablePart]
  split
  · rw [length_invertKeyPart, length_comparableSpan]
  · exact length_comparableSpan p row

theorem length_makeComparableKey (parts : List (KeyPart ι)) (row : Row ι) :
    (makeComparableKey S parts row).length = comparableKeyLength parts := by
  simp only [makeComparableKey, comparableKeyLength, length_flatMap, length_comparablePart]

variable {r r' : Row ι}

theorem makeComparableKey_congr (S : SortStrings ι) {parts : List (KeyPart ι)} (h : ∀ p ∈ parts, r p.col = r' p.col) :
    makeComparableKey S parts r = makeComparableKey S parts r' := by
  rw [makeComparableKey, makeComparableKey]
  refine flatMap_congr fun p hp => ?_
  simp only [comparablePart, comparableSpan, h p hp]

theorem makeComparableKey_take (parts : List (KeyPart ι)) (n : Nat) (r : Row ι) :
    makeComparableKey S parts r = makeComparableKey S (parts.take n) r ++ makeComparableKey S (parts.drop n) r := by
  conv_lhs => rw [← take_append_drop n parts]
  rw [makeComparableKey, flatMap_append]
  rfl

theorem makeComparableKey_eq_iff {parts : List (KeyPart ι)} :
    makeComparableKey S parts r = makeComparableKey S parts r' ↔
      ∀ p ∈ parts, comparablePart S p r = comparablePart S p r' := by
  induction parts with
  | nil => simp [makeComparableKey]
  | cons p parts ih =>
    rw [forall_mem_cons, ← ih, makeComparableKey, makeComparableKey, flatMap_cons, flatMap_cons]
    constructor
    · intro h
      exact append_inj h (by rw [length_comparablePart, length_comparablePart])
    · rintro ⟨hPart, hRest⟩
      rw [makeComparableKey, makeComparableKey] at hRest
      rw [hPart, hRest]

theorem isNone_of_comparablePart {p : KeyPart ι} (h : comparablePart S p r = comparablePart S p r')
    (hNullable : p.field.nullable = true) : (r p.col).isNone = (r' p.col).isNone := by
  have hInj := comparableSpan_of_comparablePart h
  rw [comparableSpan, comparableSpan, if_pos hNullable, if_pos hNullable] at hInj
  cases hr : r p.col <;> cases hr' : r' p.col
  · rfl
  · rw [hr, hr'] at hInj
    simp [sortKeyNull, sortKeyNotNull] at hInj
  · rw [hr, hr'] at hInj
    simp [sortKeyNull, sortKeyNotNull] at hInj
  · rfl

end Lengths

section Exact

variable {ι : Type} [DecidableEq ι] {S : SortStrings ι} {want : ι → Bool}

def Exact (S : SortStrings ι) (p : KeyPart ι) (row : Row ι) : Prop :=
  ∀ v v', row p.col = some v → decodePart p.field.sortDesc (S.write p.field p.length v) = some v' → v' = v

theorem decodeValue_eq (p : KeyPart ι) (v rest : Bytes) (buf : Row ι) :
    decodeValue want p ((if p.desc then invertKeyPart (S.write p.field p.length v)
        else S.write p.field p.length v) ++ rest) buf =
      if want p.col then
        match decodePart p.field.sortDesc (S.write p.field p.length v) with
        | none => (none, buf)
        | some v' => (some rest, update buf p.col (some v'))
      else (some rest, buf) := by
  generalize hSpan : (if p.desc then invertKeyPart (S.write p.field p.length v)
    else S.write p.field p.length v) = span
  have hLen : span.length = p.length := by
    rw [← hSpan]
    split
    · rw [length_invertKeyPart, S.length_write]
    · exact S.length_write ..
  have hBack : (if p.desc then invertKeyPart span else span) = S.write p.field p.length v := by
    rw [← hSpan]
    split
    · exact invertKeyPart_invertKeyPart _
    · rfl
  rw [decodeValue, if_neg (by simp [hLen]), take_left' hLen, drop_left' hLen, hBack]

variable {p : KeyPart ι} {row : Row ι}

theorem decodeValue_of_write {v : Bytes} (hv : row p.col = some v) {rest pos : Bytes} {buf buf' : Row ι}
    (h : decodeValue want p ((if p.desc then invertKeyPart (S.write p.field p.length v)
      else S.write p.field p.length v) ++ rest) buf = (some pos, buf')) :
    pos = rest ∧ ∀ c, (c = p.col → Exact S p row) → (buf c = row c ∨ want c = true ∧ c = p.col) → buf' c = row c := by
  rw [decodeValue_eq] at h
  split at h
  · split at h
    · cases h
    · rename_i v' hDecode
      cases h
      refine ⟨rfl, fun c hExact hOr => ?_⟩
      obtain rfl | hNe := eq_or_ne c p.col
      · rw [update_self, hv, hExact rfl v v' hv hDecode]
      · rw [update_of_ne hNe]
        exact hOr.resolve_right fun hBoth => hNe hBoth.2
  · rename_i hWant
    cases h
    refine ⟨rfl, fun c _ hOr => hOr.resolve_right ?_⟩
    rintro ⟨hc, rfl⟩
    exact hWant hc

omit [DecidableEq ι] in
theorem comparablePart_of_nullable {ind : UInt8} {val : Bytes} (hSpan : comparableSpan S p row = ind :: val) :
    comparablePart S p row = (if p.desc then ~~~ind else ind) :: if p.desc then invertKeyPart val else val := by
  rw [comparablePart, hSpan]
  split <;> rfl

theorem decodeKeyPart_cons (hNullable : p.field.nullable = true) (ind : UInt8) (pos : Bytes) (buf : Row ι) :
    decodeKeyPart want p ((if p.desc then ~~~ind else ind) :: pos) buf = if ind = 0 then
        if pos.length < p.length then (none, update buf p.col none)
        else (some (pos.drop p.length), update buf p.col none)
      else decodeValue want p pos (update buf p.col (some ((buf p.col).getD []))) := by
  have hInd : (if p.desc then ~~~(if p.desc then ~~~ind else ind) else (if p.desc then ~~~ind else ind)) = ind := by
    split
    · exact UInt8.not_not
    · rfl
  simp only [decodeKeyPart, hNullable, if_true, hInd]

section

variable (hNullable : p.field.nullable = true) (rest : Bytes) (buf : Row ι)
include hNullable

theorem decodeKeyPart_null (hv : row p.col = none) :
    decodeKeyPart want p (comparablePart S p row ++ rest) buf = (some rest, update buf p.col none) := by
  have hSpan : comparableSpan S p row = sortKeyNull :: replicate p.length 0 := by
    rw [comparableSpan, if_pos hNullable, hv]
  have hLen : (if p.desc then invertKeyPart (replicate p.length 0) else replicate p.length 0).length = p.length := by
    split
    · rw [length_invertKeyPart, length_replicate]
    · exact length_replicate
  rw [comparablePart_of_nullable hSpan, cons_append, decodeKeyPart_cons hNullable, if_pos (by decide),
    if_neg (by simp [hLen]), drop_left' hLen]

theorem decodeKeyPart_notNull {v : Bytes} (hv : row p.col = some v) :
    decodeKeyPart want p (comparablePart S p row ++ rest) buf =
      decodeValue want p ((if p.desc then invertKeyPart (S.write p.field p.length v) else S.write p.field p.length v) ++
        rest) (update buf p.col (some ((buf p.col).getD []))) := by
  have hSpan : comparableSpan S p row = sortKeyNotNull :: S.write p.field p.length v := by
    rw [comparableSpan, if_pos hNullable, hv]
  rw [comparablePart_of_nullable hSpan, cons_append, decodeKeyPart_cons hNullable, if_neg (by decide)]

end

theorem decodeKeyPart_comparablePart (hRow : p.field.nullable = false → row p.col ≠ none) {rest pos : Bytes}
    {buf buf' : Row ι} (h : decodeKeyPart want p (comparablePart S p row ++ rest) buf = (some pos, buf')) :
    pos = rest ∧ ∀ c, (c = p.col → Exact S p row) → (buf c = row c ∨ want c = true ∧ c = p.col) → buf' c = row c := by
  cases hNullable : p.field.nullable with
  | false =>
    obtain ⟨v, hv⟩ := Option.ne_none_iff_exists'.mp (hRow hNullable)
    simp only [decodeKeyPart, comparablePart, comparableSpan, hNullable, hv] at h
    exact decodeValue_of_write hv h
  | true =>
    cases hv : row p.col with
    | none =>
      rw [decodeKeyPart_null hNullable rest buf hv] at h
      cases h
      refine ⟨rfl, fun c _ hOr => ?_⟩
      obtain rfl | hNe := eq_or_ne c p.col
      · rw [update_self, hv]
      · rw [update_of_ne hNe]
        exact hOr.resolve_right fun hBoth => hNe hBoth.2
    | some v =>
      rw [decodeKeyPart_notNull hNullable rest buf hv] at h
      obtain ⟨hPos, hRead⟩ := decodeValue_of_write hv h
      refine ⟨hPos, fun c hExact hOr => hRead c hExact (hOr.imp_left fun hBuf => ?_)⟩
      obtain rfl | hNe := eq_or_ne c p.col
      · rw [update_self, hBuf, hv]
        rfl
      · rw [update_of_ne hNe, hBuf]

omit [DecidableEq ι] in
theorem makeComparableKey_cons_append (parts : List (KeyPart ι)) (rest : Bytes) :
    makeComparableKey S (p :: parts) row ++ rest =
      comparablePart S p row ++ (makeComparableKey S parts row ++ rest) := by
  rw [makeComparableKey, flatMap_cons, append_assoc]
  rfl

theorem keyreadDecode_makeComparableKey (parts : List (KeyPart ι)) (rest : Bytes) (buf : Row ι) {buf' : Row ι}
    (hRow : ∀ p ∈ parts, p.field.nullable = false → row p.col ≠ none)
    (h : keyreadDecodeKeyParts want parts (makeComparableKey S parts row ++ rest) buf = (true, buf')) {c : ι}
    (hExact : ∀ p ∈ parts, c = p.col → Exact S p row) (hc : buf c = row c ∨ want c = true ∧ ∃ p ∈ parts, c = p.col) :
    buf' c = row c := by
  induction parts generalizing buf with
  | nil =>
    cases h
    obtain hBuf | ⟨-, p, hMem, -⟩ := hc
    · exact hBuf
    · cases hMem
  | cons p parts ih =>
    rw [makeComparableKey_cons_append, keyreadDecodeKeyParts] at h
    split at h
    · cases h
    · rename_i pos buf₁ hPart
      obtain ⟨rfl, hRead⟩ := decodeKeyPart_comparablePart (hRow p (mem_cons_self ..)) hPart
      have hHead := hRead c (hExact p (mem_cons_self ..))
      apply ih buf₁ (fun p hp => hRow p (mem_cons_of_mem _ hp)) h fun p hp => hExact p (mem_cons_of_mem _ hp)
      obtain hBuf | ⟨hWant, p', hMem, hCol⟩ := hc
      · exact .inl (hHead (.inl hBuf))
      · obtain rfl | hMem := mem_cons.mp hMem
        · exact .inl (hHead (.inr ⟨hWant, hCol⟩))
        · exact .inr ⟨hWant, p', hMem, hCol⟩

omit [DecidableEq ι] in
theorem exact_of_integer (hType : p.field.sortDesc = { k := .integer, isSigned := !p.field.isUnsigned })
    (hWrite : ∀ v, v.length = p.length → S.write p.field p.length v = intSortString (!p.field.isUnsigned) v)
    (hWidth : p.length ∈ [1, 2, 3, 4, 8]) (hLen : ∀ v, row p.col = some v → v.length = p.length) : Exact S p row := by
  intro v v' hv hDecode
  have hv := hLen v hv
  rw [hType, hWrite v hv, decodePart, decodeInt_intSortString (hv ▸ hWidth)] at hDecode
  cases hDecode
  rfl

end Exact

section Agree

variable {ι : Type} [DecidableEq ι] {want want' : ι → Bool}

variable {buf buf₁ : Row ι}

theorem decodeValue_agree {p : KeyPart ι} (hSub : want' p.col = true → want p.col = true) {pos pos' : Bytes}
    (h : decodeValue want p pos buf = (some pos', buf₁)) (buf' : Row ι) :
    ∃ buf₁', decodeValue want' p pos buf' = (some pos', buf₁') ∧
      ∀ c, want' c = true → (buf c = buf' c ∨ c = p.col) → buf₁ c = buf₁' c := by
  rw [decodeValue] at h ⊢
  split at h
  · cases h
  · rename_i hLong
    rw [if_neg hLong]
    cases hWant' : want' p.col with
    | true =>
      rw [if_pos (hSub hWant')] at h
      rw [if_pos rfl]
      split at h
      · cases h
      · rename_i v hDecode
        cases h
        refine ⟨_, rfl, fun c _ hOr => ?_⟩
        obtain rfl | hNe := eq_or_ne c p.col
        · rw [update_self, update_self]
        · rw [update_of_ne hNe, update_of_ne hNe]
          exact hOr.resolve_right hNe
    | false =>
      rw [if_neg Bool.false_ne_true]
      have hRest : ∀ c, want' c = true → c ≠ p.col := by
        rintro c hc rfl
        rw [hWant'] at hc
        cases hc
      split at h
      · split at h
        · cases h
        · cases h
          refine ⟨_, rfl, fun c hc hOr => ?_⟩
          rw [update_of_ne (hRest c hc)]
          exact hOr.resolve_right (hRest c hc)
      · cases h
        exact ⟨_, rfl, fun c hc hOr => hOr.resolve_right (hRest c hc)⟩

theorem decodeKeyPart_agree {p : KeyPart ι} (hSub : want' p.col = true → want p.col = true) {pos pos' : Bytes}
    (h : decodeKeyPart want p pos buf = (some pos', buf₁)) (buf' : Row ι) :
    ∃ buf₁', decodeKeyPart want' p pos buf' = (some pos', buf₁') ∧
      ∀ c, want' c = true → (buf c = buf' c ∨ c = p.col) → buf₁ c = buf₁' c := by
  have hUpdate : ∀ (x y : Option Bytes) (c : ι), (buf c = buf' c ∨ c = p.col) →
      update buf p.col x c = update buf' p.col y c ∨ c = p.col := by
    intro x y c hOr
    obtain rfl | hNe := eq_or_ne c p.col
    · exact .inr rfl
    · rw [update_of_ne hNe, update_of_ne hNe]
      exact hOr
  cases hNullable : p.field.nullable with
  | false =>
    simp only [decodeKeyPart, hNullable, Bool.false_eq_true, if_false] at h ⊢
    exact decodeValue_agree hSub h buf'
  | true =>
    cases pos with
    | nil =>
      simp only [decodeKeyPart, hNullable, if_true] at h
      cases h
    | cons nb pos =>
      simp only [decodeKeyPart, hNullable, if_true] at h ⊢
      generalize (if p.desc then ~~~nb else nb) = ind at h ⊢
      split at h
      · rename_i hNull
        split at h
        · cases h
        · rename_i hLong
          cases h
          rw [if_pos hNull, if_neg hLong]
          refine ⟨_, rfl, fun c _ hOr => ?_⟩
          obtain hEq | rfl := hUpdate none none c hOr
          · exact hEq
          · rw [update_self, update_self]
      · rename_i hNull
        rw [if_neg hNull]
        obtain ⟨buf₁', hRead, hAgree⟩ := decodeValue_agree hSub h
          (update buf' p.col (some ((buf' p.col).getD [])))
        exact ⟨buf₁', hRead, fun c hc hOr => hAgree c hc (hUpdate _ _ c hOr)⟩

theorem keyreadDecode_agree (parts : List (KeyPart ι)) (hSub : ∀ p ∈ parts, want' p.col = true → want p.col = true)
    (pos : Bytes) (h : keyreadDecodeKeyParts want parts pos buf = (true, buf₁)) (buf' : Row ι) :
    ∃ buf₁', keyreadDecodeKeyParts want' parts pos buf' = (true, buf₁') ∧
      ∀ c, want' c = true → (buf c = buf' c ∨ ∃ p ∈ parts, c = p.col) → buf₁ c = buf₁' c := by
  induction parts generalizing pos buf buf' with
  | nil =>
    cases h
    refine ⟨buf', rfl, fun c _ hOr => hOr.resolve_right ?_⟩
    rintro ⟨p, hMem, -⟩
    cases hMem
  | cons p parts ih =>
    rw [keyreadDecodeKeyParts] at h
    split at h
    · cases h
    · rename_i pos₂ buf₂ hPart
      obtain ⟨buf₂', hPart', hHead⟩ := decodeKeyPart_agree (hSub p (mem_cons_self ..)) hPart buf'
      obtain ⟨buf₁', hRead, hRest⟩ := ih (fun p hp => hSub p (mem_cons_of_mem _ hp)) pos₂ h buf₂'
      refine ⟨buf₁', by rw [keyreadDecodeKeyParts, hPart']; exact hRead, fun c hc hOr => hRest c hc ?_⟩
      obtain hBuf | ⟨p', hMem, hCol⟩ := hOr
      · exact .inl (hHead c hc (.inl hBuf))
      · obtain rfl | hMem := mem_cons.mp hMem
        · exact .inl (hHead c hc (.inr hCol))
        · exact .inr ⟨p', hMem, hCol⟩

end Agree

end TideSql.KeyCodec
