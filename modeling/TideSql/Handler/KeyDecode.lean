import TideSql.Handler.PushedEntry
import TideSql.Handler.PkPosition

/-!
# Columns read back from an index entry

Every part of an entry has its fixed span, NULL or not, so the decoders find each part where the encoder wrote
it.
-/

namespace TideSql.KeyDecode
open KeyCodec SortKey IndexRead Pushdown List Option Function

variable {ι : Type} {S : SortStrings ι} {want : ι → Bool}

def image (S : SortStrings ι) (p : KeyPart ι) (v : Bytes) : Option Bytes :=
  decodePart p.field.sortDesc (S.write p.field p.length v)

/-- A NOT NULL column has a value, and the decoder can do with the value of a wanted column. -/
structure Readable (S : SortStrings ι) (want : ι → Bool) (row : Row ι) (p : KeyPart ι) : Prop where
  filled : p.field.nullable = false → row p.col ≠ none
  decodes : ∀ v, row p.col = some v → want p.col = true → (image S p v).isSome

def readPart [DecidableEq ι] (S : SortStrings ι) (want : ι → Bool) (row : Row ι) (buf : Row ι) (p : KeyPart ι) :
    Row ι :=
  match row p.col with
  | none => update buf p.col none
  | some v =>
    if want p.col then update buf p.col (image S p v)
    else if p.field.nullable then update buf p.col (some ((buf p.col).getD []))
    else buf

section Decode

variable [DecidableEq ι] {row buf : Row ι} {p : KeyPart ι}

theorem decodeValue_image {v : Bytes} (hWanted : want p.col = true → (image S p v).isSome) (rest : Bytes)
    (buf : Row ι) :
    decodeValue want p ((if p.desc then invertKeyPart (S.write p.field p.length v)
        else S.write p.field p.length v) ++ rest) buf =
      (some rest, if want p.col then update buf p.col (image S p v) else buf) := by
  rw [decodeValue_eq]
  split
  · rename_i hWant
    obtain ⟨v', hv'⟩ := Option.isSome_iff_exists.mp (hWanted hWant)
    rw [hv']
    rw [image] at hv'
    rw [hv']
  · rfl

theorem decodeKeyPart_readPart (h : Readable S want row p) (rest : Bytes) (buf : Row ι) :
    decodeKeyPart want p (comparablePart S p row ++ rest) buf = (some rest, readPart S want row buf p) := by
  rw [readPart]
  cases hv : row p.col with
  | none =>
    have hNullable : p.field.nullable = true := Bool.of_not_eq_false fun hNot => h.filled hNot hv
    exact decodeKeyPart_null hNullable rest buf hv
  | some v =>
    cases hNullable : p.field.nullable with
    | false =>
      have hPart : comparablePart S p row = if p.desc then invertKeyPart (S.write p.field p.length v)
          else S.write p.field p.length v := by
        rw [comparablePart, comparableSpan, hNullable, if_neg Bool.false_ne_true, hv, getD_some]
      simp only [decodeKeyPart, hNullable, Bool.false_eq_true, if_false]
      rw [hPart, decodeValue_image (h.decodes v hv)]
    | true =>
      rw [decodeKeyPart_notNull hNullable rest buf hv, decodeValue_image (h.decodes v hv), update_idem]
      rfl

theorem keyreadDecode_readPart {parts : List (KeyPart ι)} (h : ∀ p ∈ parts, Readable S want row p) (rest : Bytes)
    (buf : Row ι) :
    keyreadDecodeKeyParts want parts (makeComparableKey S parts row ++ rest) buf =
      (true, parts.foldl (readPart S want row) buf) := by
  induction parts generalizing buf with
  | nil => rfl
  | cons p parts ih =>
    rw [makeComparableKey_cons_append, keyreadDecodeKeyParts, decodeKeyPart_readPart (h p mem_cons_self), foldl_cons]
    exact ih (fun p hp => h p (mem_cons_of_mem _ hp)) _

theorem readPart_of_ne {c : ι} (h : p.col ≠ c) : readPart S want row buf p c = buf c := by
  rw [readPart]
  cases row p.col with
  | none => exact update_of_ne h.symm ..
  | some v =>
    dsimp only
    split
    · exact update_of_ne h.symm ..
    · split
      · exact update_of_ne h.symm ..
      · rfl

theorem readPart_wanted (hWant : want p.col = true) :
    readPart S want row buf p p.col = (row p.col).bind (image S p) := by
  rw [readPart]
  cases row p.col with
  | none => exact update_self ..
  | some v =>
    dsimp only
    rw [if_pos hWant, update_self, bind_some]

theorem foldl_readPart {parts : List (KeyPart ι)} {c : ι} {x : Option Bytes} (hWant : want c = true)
    (hParts : ∀ p ∈ parts, p.col = c → (row c).bind (image S p) = x)
    (hc : buf c = x ∨ ∃ p ∈ parts, p.col = c) : parts.foldl (readPart S want row) buf c = x := by
  induction parts generalizing buf with
  | nil =>
    obtain hBuf | ⟨p, hp, -⟩ := hc
    · exact hBuf
    · cases hp
  | cons p parts ih =>
    refine ih (fun p hp => hParts p (mem_cons_of_mem _ hp)) ?_
    by_cases hCol : p.col = c
    · refine .inl ?_
      subst hCol
      rw [readPart_wanted hWant]
      exact hParts p mem_cons_self rfl
    · rw [readPart_of_ne hCol]
      refine hc.imp_right ?_
      rintro ⟨p', hp', hCol'⟩
      obtain rfl | hp' := mem_cons.mp hp'
      · exact absurd hCol' hCol
      · exact ⟨p', hp', hCol'⟩

theorem isNone_readPart (h : Readable S want row p)
    (hc : (buf p.col).isNone = (row p.col).isNone ∨ p.field.nullable = true) :
    (readPart S want row buf p p.col).isNone = (row p.col).isNone := by
  rw [readPart]
  cases hv : row p.col with
  | none => exact congrArg isNone (update_self ..)
  | some v =>
    rw [hv] at hc
    dsimp only
    split
    · rename_i hWant
      obtain ⟨v', hv'⟩ := Option.isSome_iff_exists.mp (h.decodes v hv hWant)
      rw [update_self, hv']
      rfl
    · split
      · rw [update_self]
        rfl
      · rename_i hNullable
        exact hc.resolve_right hNullable

theorem isNone_foldl_readPart {parts : List (KeyPart ι)} {c : ι} (h : ∀ p ∈ parts, Readable S want row p)
    (hc : (buf c).isNone = (row c).isNone ∨ ∃ p ∈ parts, p.col = c ∧ p.field.nullable = true) :
    (parts.foldl (readPart S want row) buf c).isNone = (row c).isNone := by
  induction parts generalizing buf with
  | nil =>
    obtain hBuf | ⟨p, hp, -⟩ := hc
    · exact hBuf
    · cases hp
  | cons p parts ih =>
    refine ih (fun p hp => h p (mem_cons_of_mem _ hp)) ?_
    by_cases hCol : p.col = c
    · subst hCol
      obtain hBuf | ⟨p', hp', hCol', hNullable⟩ := hc
      · exact .inl (isNone_readPart (h p mem_cons_self) (.inl hBuf))
      · obtain rfl | hp' := mem_cons.mp hp'
        · exact .inl (isNone_readPart (h _ mem_cons_self) (.inr hNullable))
        · exact .inr ⟨p', hp', hCol', hNullable⟩
    · rw [readPart_of_ne hCol]
      refine hc.imp_right ?_
      rintro ⟨p', hp', hCol', hNullable⟩
      obtain rfl | hp' := mem_cons.mp hp'
      · exact absurd hCol' hCol
      · exact ⟨p', hp', hCol', hNullable⟩

end Decode

section Recovered

def intWidth : RealType → Option Nat
  | .tiny => some 1
  | .short => some 2
  | .int24 => some 3
  | .long => some 4
  | .longlong => some 8
  | _ => none

/-- A part on a whole integer, YEAR, DATE or BINARY column, with the server's sort key of it. -/
inductive Plain (S : SortStrings ι) (p : KeyPart ι) : Prop where
  | integer (hWidth : intWidth p.field.realType = some p.length)
      (hSort : ∀ v, v.length = p.length → S.write p.field p.length v = intSortString (!p.field.isUnsigned) v)
  | year (hType : p.field.realType = .year) (hLen : p.length = 1)
      (hSort : ∀ v, v.length = p.length → S.write p.field p.length v = v)
  | date (hType : p.field.realType = .date ∨ p.field.realType = .newdate) (hLen : p.length = datePackLen)
      (hSort : ∀ v, v.length = p.length → S.write p.field p.length v = v.reverse)
  | binary (hType : p.field.realType = .string) (hCharset : p.field.charset = .bin)
      (hLen : p.length = p.field.packLength) (hSort : ∀ v, v.length = p.length → S.write p.field p.length v = v)

structure Stored (row : Row ι) (p : KeyPart ι) : Prop where
  filled : p.field.nullable = false → row p.col ≠ none
  width : ∀ v, row p.col = some v → v.length = p.length

variable {p : KeyPart ι} {row : Row ι}

theorem intWidth_sortDesc {f : KeyCodec.Field ι} {n : Nat} (h : intWidth f.realType = some n) :
    f.sortDesc = { k := .integer, isSigned := !f.isUnsigned } ∧ n ∈ [1, 2, 3, 4, 8] := by
  rw [Field.sortDesc]
  cases hType : f.realType <;> rw [hType] at h <;> cases h <;> exact ⟨rfl, by decide⟩

theorem Plain.image_eq (h : Plain S p) {v : Bytes} (hv : v.length = p.length) : image S p v = some v := by
  rw [image]
  cases h with
  | integer hWidth hSort =>
    obtain ⟨hDesc, hMem⟩ := intWidth_sortDesc hWidth
    rw [hSort v hv, hDesc, decodePart, decodeInt_intSortString (hv ▸ hMem)]
  | year hType hLen hSort =>
    obtain ⟨b, rfl⟩ := length_eq_one_iff.mp (hv.trans hLen)
    rw [hSort _ hv, Field.sortDesc, hType]
    rfl
  | date hType hLen hSort =>
    have hDesc : p.field.sortDesc = { k := .date } := by
      rw [Field.sortDesc]
      obtain hType | hType := hType <;> rw [hType]
    rw [hSort v hv, hDesc, decodePart, length_reverse, hv, hLen, if_neg (not_not.mpr rfl), reverse_reverse]
  | binary hType hCharset hLen hSort =>
    have hDesc : p.field.sortDesc = { k := .charFixed, packLength := p.field.packLength, padByte := 0x00 } := by
      rw [Field.sortDesc, hType, hCharset]
    rw [hSort v hv, hDesc, decodePart, ← hLen, ← hv, take_length, Nat.sub_self, replicate_zero, append_nil]

theorem Plain.readable (h : Plain S p) (hStored : Stored row p) : Readable S want row p :=
  ⟨hStored.filled, fun v hv _ => by
    rw [h.image_eq (hStored.width v hv)]
    rfl⟩

theorem Plain.bind_image (h : Plain S p) (hStored : Stored row p) : (row p.col).bind (image S p) = row p.col := by
  cases hv : row p.col with
  | none => rfl
  | some v => exact h.image_eq (hStored.width v hv)

def entryKey (S : SortStrings ι) (idxParts pkParts : List (KeyPart ι)) (row : Row ι) : Bytes :=
  makeComparableKey S idxParts row ++ makeComparableKey S pkParts row

variable [DecidableEq ι]

theorem decode_entry {idxParts pkParts : List (KeyPart ι)} (h : ∀ p ∈ idxParts ++ pkParts, Readable S want row p)
    (buf : Row ι) :
    keyreadDecodeKeyParts want idxParts (entryKey S idxParts pkParts row) buf =
        (true, idxParts.foldl (readPart S want row) buf) ∧
      keyreadDecodeKeyParts want pkParts ((entryKey S idxParts pkParts row).drop (comparableKeyLength idxParts))
          (idxParts.foldl (readPart S want row) buf) =
        (true, (idxParts ++ pkParts).foldl (readPart S want row) buf) := by
  refine ⟨keyreadDecode_readPart (fun p hp => h p (mem_append_left _ hp)) _ buf, ?_⟩
  have hPk := keyreadDecode_readPart (fun p hp => h p (mem_append_right _ hp)) []
    (idxParts.foldl (readPart S want row) buf)
  rw [append_nil] at hPk
  rw [entryKey, drop_left' (length_makeComparableKey ..), foldl_append]
  exact hPk

/-- Both decoders read an entry to its end and recover its columns: a covering read those it wants, the check of a
condition all of them. -/
theorem entry_columns_recovered {idxParts pkParts : List (KeyPart ι)} (hPlain : ∀ p ∈ idxParts ++ pkParts, Plain S p)
    (hStored : ∀ p ∈ idxParts ++ pkParts, Stored row p) (want : ι → Bool) (buf : Row ι) :
    (∃ b b', keyreadDecodeKeyParts want idxParts (entryKey S idxParts pkParts row) buf = (true, b) ∧
        keyreadDecodeKeyParts want pkParts ((entryKey S idxParts pkParts row).drop (comparableKeyLength idxParts)) b =
          (true, b') ∧
        ∀ p ∈ idxParts ++ pkParts, (want p.col = true → b' p.col = row p.col) ∧
          (p.field.nullable = true → (b' p.col).isNone = (row p.col).isNone)) ∧
      ∃ b b', icpDecodeKeyParts idxParts (entryKey S idxParts pkParts row) buf = (true, b) ∧
        icpDecodeKeyParts pkParts ((entryKey S idxParts pkParts row).drop (comparableKeyLength idxParts)) b =
          (true, b') ∧
        ∀ p ∈ idxParts ++ pkParts, b' p.col = row p.col := by
  have hReadable (want : ι → Bool) : ∀ p ∈ idxParts ++ pkParts, Readable S want row p := fun p hp =>
    (hPlain p hp).readable (hStored p hp)
  have hRead (want : ι → Bool) {p : KeyPart ι} (hp : p ∈ idxParts ++ pkParts) (hWant : want p.col = true) :
      (idxParts ++ pkParts).foldl (readPart S want row) buf p.col = row p.col := by
    refine foldl_readPart hWant (fun p' hp' hCol => ?_) (.inr ⟨p, hp, rfl⟩)
    rw [← hCol]
    exact (hPlain p' hp').bind_image (hStored p' hp')
  constructor
  · obtain ⟨hIdx, hPk⟩ := decode_entry (hReadable want) buf
    refine ⟨_, _, hIdx, hPk, fun p hp => ⟨hRead want hp, fun hNullable => ?_⟩⟩
    exact isNone_foldl_readPart (hReadable want) (.inr ⟨p, hp, rfl, hNullable⟩)
  · obtain ⟨hIdx, hPk⟩ := decode_entry (hReadable fun _ => true) buf
    exact ⟨_, _, hIdx, hPk, fun p hp => hRead _ hp rfl⟩

end Recovered

section Covering

/-- The sort key of a temporal value is a copy of its bytes, that of a CHAR value its weights. -/
inductive Lossy (S : SortStrings ι) (p : KeyPart ι) (v : Bytes) : Bytes → Prop where
  | temporal (hType : p.field.realType ∈ [.datetime, .datetime2, .timestamp, .timestamp2])
      (hLen : 0 < p.length ∧ p.length ≤ datetimeMaxPackLen) (hSort : S.write p.field p.length v = v) :
      Lossy S p v v.reverse
  | text (hType : p.field.realType = .string) (hCharset : p.field.charset = .latin1)
      (hLen : p.length = p.field.packLength) : Lossy S p v (S.write p.field p.length v)

variable {p : KeyPart ι} {v w : Bytes}

theorem Lossy.image_eq (h : Lossy S p v w) : image S p v = some w := by
  rw [image]
  have hWidth := S.length_write p.field p.length v
  cases h with
  | temporal hType hLen hSort =>
    have hDesc : p.field.sortDesc = { k := .datetime } := by
      rw [Field.sortDesc]
      simp only [mem_cons, not_mem_nil, or_false] at hType
      obtain hType | hType | hType | hType := hType <;> rw [hType]
    rw [hSort] at hWidth
    rw [hSort, hDesc, decodePart]
    dsimp only
    rw [hWidth, if_neg (by omega)]
  | text hType hCharset hLen =>
    have hDesc : p.field.sortDesc = { k := .charFixed, packLength := p.field.packLength, padByte := 0x20 } := by
      rw [Field.sortDesc, hType, hCharset]
    rw [hDesc, decodePart, ← hLen, hWidth, take_of_length_le hWidth.le, Nat.sub_self, replicate_zero, append_nil]

variable [DecidableEq ι] {T : Setup ι} {r : Row ι}

theorem tryKeyread_eq (hPk : T.hasUserPk = true)
    (hCovers : ∀ c ∈ T.readSet, c ∈ (T.idxParts ++ T.pkParts).map KeyPart.col)
    (hReadable : ∀ p ∈ T.idxParts ++ T.pkParts, Readable T.sorts (fun c => decide (c ∈ T.readSet)) r p)
    (rcd : Record ι) :
    tryKeyreadFromIndex T (secIdxKey T (makeComparableKey T.sorts T.pkParts r) r) rcd =
      (true, ⟨(T.idxParts ++ T.pkParts).foldl (readPart T.sorts (fun c => decide (c ∈ T.readSet)) r) rcd.buf,
        makeComparableKey T.sorts T.pkParts r⟩) := by
  obtain ⟨hIdx, hTail⟩ := decode_entry hReadable rcd.buf
  rw [entryKey] at hIdx hTail
  rw [tryKeyreadFromIndex, if_neg (not_not.mpr hPk), if_neg (not_not.mpr hCovers), secIdxKey, hIdx]
  dsimp only
  rw [Setup.idxColLen, hTail, drop_left' (length_makeComparableKey ..)]

/-- A covering read returns the column as the row has it exactly when the decoder makes of the
value what it was. -/
theorem covering_read_same_iff (hPk : T.hasUserPk = true) (hOnly : T.keyreadOnly = true)
    (hCovers : ∀ c ∈ T.readSet, c ∈ (T.idxParts ++ T.pkParts).map KeyPart.col)
    (hReadable : ∀ p ∈ T.idxParts ++ T.pkParts, Readable T.sorts (fun c => decide (c ∈ T.readSet)) r p)
    (hp : p ∈ T.idxParts ++ T.pkParts)
    (hWhole : ∀ p' ∈ T.idxParts ++ T.pkParts, p'.col = p.col → p'.field = p.field ∧ p'.length = p.length)
    (hSet : p.col ∈ T.readSet) (hv : r p.col = some v) (hLossy : Lossy T.sorts p v w)
    (hRow : T.visible (makeComparableKey T.sorts T.pkParts r) = some r) (env : Env)
    (hFetch : env.fetchError .read (makeComparableKey T.sorts T.pkParts r) = none) (rcd : Record ι) :
    ∃ covering fetched,
      materialize T env (secIdxKey T (makeComparableKey T.sorts T.pkParts r) r) rcd = (none, covering) ∧
      fetchRowByPk T env .read (makeComparableKey T.sorts T.pkParts r) rcd = (none, fetched) ∧
      (covering.buf p.col = fetched.buf p.col ↔ w = v) := by
  have hCovering := tryKeyread_eq hPk hCovers hReadable rcd
  have hRead : (T.idxParts ++ T.pkParts).foldl (readPart T.sorts (fun c => decide (c ∈ T.readSet)) r) rcd.buf p.col =
      some w := by
    refine foldl_readPart (decide_eq_true hSet) (fun p' hp' hCol => ?_) (.inr ⟨p, hp, rfl⟩)
    obtain ⟨hField, hLen⟩ := hWhole p' hp' hCol
    rw [hv, bind_some, image, hField, hLen]
    exact hLossy.image_eq
  refine ⟨_, ⟨r, makeComparableKey T.sorts T.pkParts r⟩, by rw [materialize, if_pos hOnly, hCovering], ?_, ?_⟩
  · rw [fetchRowByPk, hFetch, hRow]
  · dsimp only
    rw [hRead, hv, some_inj]

end Covering

section Sample

def foldCase (b : UInt8) : UInt8 := if 0x61 ≤ b ∧ b ≤ 0x7A then b - 0x20 else b

def foldingSorts : SortStrings Bool where
  write := fun f n v => ((if f.realType = RealType.string then v.map foldCase else v) ++ replicate n 0).take n
  length_write := fun _ n _ => PkPosition.length_padded n _

theorem sorted_none : ([] : List Bytes).Pairwise (· < ·) := List.Pairwise.nil

theorem sorted_seven : ([[1, 7]] : List Bytes).Pairwise (· < ·) := pairwise_singleton ..

def oneColumn (f : KeyCodec.Field Bool) (desc : Bool) (v : Bytes) : Setup Bool where
  sorts := foldingSorts
  idxParts := [⟨f, f.packLength, desc⟩]
  pkParts := [PkPosition.bytePart false]
  hasUserPk := true
  isPk := false
  keyreadOnly := true
  readSet := [true]
  pushed := none
  entries := []
  dataKeys := [[1, 7]]
  row := fun pk c => if c then some v else some pk
  entries_sorted := sorted_none
  dataKeys_sorted := sorted_seven

def tinyPart (c nullable desc : Bool) : KeyPart Bool := ⟨⟨c, nullable, .tiny, true, .bin, 1⟩, 1, desc⟩

theorem plain_tinyPart (c nullable desc : Bool) : Plain foldingSorts (tinyPart c nullable desc) := by
  refine .integer rfl fun v hv => ?_
  obtain ⟨b, rfl⟩ := length_eq_one_iff.mp hv
  rfl

def nullAndSeven : Row Bool := fun c => if c then none else some [7]

theorem entry_columns_recovered_null : ∃ b b', icpDecodeKeyParts [tinyPart true true true]
        (entryKey foldingSorts [tinyPart true true true] [tinyPart false false false] nullAndSeven)
        (fun _ => some [0]) = (true, b) ∧
      icpDecodeKeyParts [tinyPart false false false]
        ((entryKey foldingSorts [tinyPart true true true] [tinyPart false false false] nullAndSeven).drop
            (comparableKeyLength [tinyPart true true true])) b = (true, b') ∧
      b' true = none ∧ b' false = some [7] := by
  have hPlain : ∀ p ∈ [tinyPart true true true] ++ [tinyPart false false false], Plain foldingSorts p := by
    intro p hp
    simp only [singleton_append, mem_cons, not_mem_nil, or_false] at hp
    obtain rfl | rfl := hp
    · exact plain_tinyPart ..
    · exact plain_tinyPart ..
  have hStored : ∀ p ∈ [tinyPart true true true] ++ [tinyPart false false false], Stored nullAndSeven p := by
    intro p hp
    simp only [singleton_append, mem_cons, not_mem_nil, or_false] at hp
    obtain rfl | rfl := hp
    · exact ⟨fun hNot => (by cases hNot), fun v hv => (by cases hv)⟩
    · exact ⟨fun _ => some_ne_none _, fun v hv => (by cases hv; rfl)⟩
  obtain ⟨b, b', hIdx, hPk, hRead⟩ := (entry_columns_recovered hPlain hStored (fun _ => true) fun _ => some [0]).2
  exact ⟨b, b', hIdx, hPk, hRead _ mem_cons_self, hRead _ (mem_cons_of_mem _ mem_cons_self)⟩

def datetimeField : KeyCodec.Field Bool := ⟨true, false, .datetime2, true, .bin, 5⟩
def charField : KeyCodec.Field Bool := ⟨true, false, .string, true, .latin1, 2⟩

def bothReads (T : Setup Bool) : Option Bytes × Option Bytes :=
  ((materialize T PkPosition.calm (secIdxKey T [7] (T.row [7])) ⟨fun _ => none, []⟩).2.buf true,
    (fetchRowByPk T PkPosition.calm .read [7] ⟨fun _ => none, []⟩).2.buf true)

def palindrome : Setup Bool := oneColumn datetimeField false [0x99, 0, 0, 0, 0x99]

theorem mem_palindrome {p : KeyPart Bool} (hp : p ∈ palindrome.idxParts ++ palindrome.pkParts) :
    p = ⟨datetimeField, datetimeField.packLength, false⟩ ∨ p = PkPosition.bytePart false := by
  simpa only [palindrome, oneColumn, singleton_append, mem_cons, not_mem_nil, or_false] using hp

theorem covering_read_same_palindrome :
    ∃ covering fetched, materialize palindrome PkPosition.calm (secIdxKey palindrome [7] (palindrome.row [7]))
        ⟨fun _ => none, []⟩ = (none, covering) ∧
      fetchRowByPk palindrome PkPosition.calm .read [7] ⟨fun _ => none, []⟩ = (none, fetched) ∧
      covering.buf true = fetched.buf true := by
  have hReadable : ∀ p ∈ palindrome.idxParts ++ palindrome.pkParts,
      Readable palindrome.sorts (fun c => decide (c ∈ palindrome.readSet)) (palindrome.row [7]) p := by
    intro p hp
    obtain rfl | rfl := mem_palindrome hp
    · exact ⟨fun _ => some_ne_none _, fun v hv _ => (by cases hv; rfl)⟩
    · exact ⟨fun _ => some_ne_none _, fun v _ hWant => (by cases hWant)⟩
  have hWhole : ∀ p ∈ palindrome.idxParts ++ palindrome.pkParts, p.col = true →
      p.field = datetimeField ∧ p.length = datetimeField.packLength := by
    intro p hp hCol
    obtain rfl | rfl := mem_palindrome hp
    · exact ⟨rfl, rfl⟩
    · cases hCol
  obtain ⟨covering, fetched, hCovering, hFetched, hSame⟩ :=
    covering_read_same_iff (T := palindrome) (p := ⟨datetimeField, datetimeField.packLength, false⟩)
      (r := palindrome.row [7]) (v := [0x99, 0, 0, 0, 0x99]) rfl rfl (by decide) hReadable mem_cons_self hWhole
      (by decide) rfl (.temporal (by decide) (by decide) (by decide)) rfl PkPosition.calm rfl ⟨fun _ => none, []⟩
  exact ⟨covering, fetched, hCovering, hFetched, hSame.mpr rfl⟩

/-- 2026-11-16 10:20:30 comes back in reverse, and `ab` in capitals. -/
theorem columns_changed : bothReads (oneColumn datetimeField false [0x99, 0xBB, 0x60, 0xA5, 0x1E]) =
        (some [0x1E, 0xA5, 0x60, 0xBB, 0x99], some [0x99, 0xBB, 0x60, 0xA5, 0x1E]) ∧
      bothReads (oneColumn charField true [0x61, 0x62]) = (some [0x41, 0x42], some [0x61, 0x62]) := by
  decide

end Sample

end TideSql.KeyDecode
