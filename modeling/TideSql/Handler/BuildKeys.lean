import TideSql.Handler.InplaceCheck
import TideSql.Handler.KeyCodec
import TideSql.Handler.VarbinaryKey

/-!
# The keys an in-place build stores

The builder decodes a row into a record of the old definition and reads the columns of the added index out of
it at the places they have in the new one.
-/

namespace TideSql.BuildKeys
open SortKey InplaceCheck Lib List Option Function Nat
open KeyCodec (sortKeyNull sortKeyNotNull invertKeyPart)

structure Column (ι : Type) where
  id : ι
  nullable : Bool
  width : Nat
  width_pos : 0 < width
  deriving DecidableEq

structure Definition (ι : Type) where
  columns : List (Column ι)
  packRecord : Bool
  default : Column ι → Option Bytes
  default_width : ∀ c v, default c = some v → v.length = c.width
  default_null : ∀ c, default c = none → c.nullable = true

abbrev Buffer := Nat → UInt8

section Layout

variable {ι : Type} [DecidableEq ι] (D : Definition ι) (buf : Buffer) (c : Column ι)

def before : List (Column ι) := D.columns.takeWhile (· ≠ c)

def nullBit : Nat := nullBitBase D.packRecord + (before D c).countP Column.nullable

def nullBytes : Nat := (nullBitBase D.packRecord + D.columns.countP Column.nullable + 7) / 8

def offset : Nat := nullBytes D + ((before D c).map Column.width).sum

def isNull : Bool := c.nullable && (buf (nullBit D c / 8)).toNat.testBit (nullBit D c % 8)

def image : Bytes := (range c.width).map fun k => buf (offset D c + k)

def shown : Option Bytes := if isNull D buf c then none else some (image D buf c)

end Layout

structure SamePlace {ι : Type} [DecidableEq ι] (D D' : Definition ι) (c : Column ι) : Prop where
  mem : c ∈ D.columns
  offset : offset D c = offset D' c
  nullBit : c.nullable = true → nullBit D c = nullBit D' c

structure SortString (ι : Type) where
  write : Column ι → Nat → Bytes → Bytes
  length_write : ∀ c n v, (write c n v).length = n

structure KeyPart (ι : Type) where
  col : Column ι
  length : Nat
  length_pos : 0 < length
  desc : Bool
  varbinary : Option VarbinaryKey.Part
  varbinary_length : ∀ v, varbinary = some v → v.length = length

structure Index {ι : Type} (D : Definition ι) where
  parts : List (KeyPart ι)
  mem : ∀ p ∈ parts, p.col ∈ D.columns

section Encoders

variable {ι : Type} (S : SortString ι)

def KeyPart.orient (p : KeyPart ι) (span : Bytes) : Bytes := if p.desc then invertKeyPart span else span

def KeyPart.nullSpan (p : KeyPart ι) : Bytes := sortKeyNull :: replicate p.length 0

def KeyPart.valueSpan (p : KeyPart ι) (body : Bytes) : Bytes :=
  if p.col.nullable then sortKeyNotNull :: body else body

/-- `Field_varstring::val_str`: the length in front of the bytes says how many of them count. -/
def varstringValue (v : VarbinaryKey.Part) (image : Bytes) : Bytes :=
  (image.drop v.lenBytes).take (Bytes.ofLE (image.take v.lenBytes))

def KeyPart.held (p : KeyPart ι) (out : Buffer) (pos : Nat) : Bytes :=
  (range p.length).map fun k => out (pos + (if p.col.nullable then 1 else 0) + k)

def comparableSpan (out : Buffer) (row : Column ι → Option Bytes) (pos : Nat) (p : KeyPart ι) : Option Bytes :=
  if p.col.nullable && (row p.col).isNone then some p.nullSpan
  else
    let image := (row p.col).getD []
    match p.varbinary with
    | some v => (v.write (p.held out pos) (varstringValue v image)).map p.valueSpan
    | none => some (p.valueSpan (S.write p.col p.length image))

/-- `out` is the output buffer as it was before; nothing when the source writes beyond it. -/
def makeComparableKey (out : Buffer) (row : Column ι → Option Bytes) : Nat → List (KeyPart ι) → Option Bytes
  | _, [] => some []
  | pos, p :: parts =>
    match comparableSpan S out row pos p with
    | none => none
    | some span => (makeComparableKey out row (pos + span.length) parts).map (p.orient span ++ ·)

/-- `pk` is what `pk_from_record` gives, the key the row stands under. -/
def secIdxKey (out : Buffer) (row : Column ι → Option Bytes) (parts : List (KeyPart ι)) (pk : Bytes) : Option Bytes :=
  (makeComparableKey S out row 0 parts).map (· ++ pk)

variable [DecidableEq ι] (D' : Definition ι) (buf : Buffer)

def buildSpan (p : KeyPart ι) : Bytes :=
  if isNull D' buf p.col then p.nullSpan else p.valueSpan (S.write p.col p.length (image D' buf p.col))

def inplaceBuildIndexKey : List (KeyPart ι) → Bytes × Bool
  | [] => ([], false)
  | p :: parts =>
    let rest := inplaceBuildIndexKey parts
    (p.orient (buildSpan S D' buf p) ++ rest.1, isNull D' buf p.col || rest.2)

def inplaceEntry (parts : List (KeyPart ι)) (pk : Bytes) : Bytes := (inplaceBuildIndexKey S D' buf parts).1 ++ pk

end Encoders

def rowUnder {ι : Type} [DecidableEq ι] (D D' : Definition ι) (buf : Buffer) (c : Column ι) : Option Bytes :=
  if c ∈ D.columns then shown D buf c else D'.default c

section Lengths

variable {ι : Type} {S : SortString ι} {p : KeyPart ι}

def KeyPart.span (p : KeyPart ι) : Nat := (if p.col.nullable then 1 else 0) + p.length

@[simp] theorem length_orient (span : Bytes) : (p.orient span).length = span.length := by
  rw [KeyPart.orient]
  split
  · exact length_map _
  · rfl

theorem orient_inj {span span' : Bytes} (h : p.orient span = p.orient span') : span = span' := by
  rw [KeyPart.orient, KeyPart.orient] at h
  split at h
  · refine map_injective_iff.mpr (fun a b hab => ?_) h
    exact UInt8.not_inj.mp hab
  · exact h

theorem length_valueSpan {body : Bytes} (h : body.length = p.length) : (p.valueSpan body).length = p.span := by
  rw [KeyPart.valueSpan, KeyPart.span]
  split
  · rw [length_cons, h, add_comm]
  · rw [h, zero_add]

theorem length_nullSpan (h : p.col.nullable = true) : p.nullSpan.length = p.span := by
  rw [KeyPart.nullSpan, KeyPart.span, if_pos h, length_cons, length_replicate, add_comm]

theorem length_varbinary {v : VarbinaryKey.Part} {old w e : Bytes} (hOld : old.length = v.length)
    (h : v.write old w = some e) : e.length = v.length := by
  by_cases hRoom : v.lenBytes ≤ v.length
  · obtain hShort | hLong := lt_or_ge v.dataSpace w.length |>.symm
    · rw [VarbinaryKey.write_short hRoom hShort] at h
      cases h
      exact VarbinaryKey.length_short hRoom hShort
    · rw [VarbinaryKey.write_long hRoom hLong hOld] at h
      cases h
      rw [length_append, length_take, length_drop, hOld]
      omega
  · rw [VarbinaryKey.Part.write, if_pos (not_le.mp hRoom)] at h
    cases h

theorem length_comparableSpan {out : Buffer} {row : Column ι → Option Bytes} {pos : Nat} {span : Bytes}
    (h : comparableSpan S out row pos p = some span) : span.length = p.span := by
  rw [comparableSpan] at h
  split at h
  · rename_i hNull
    cases h
    exact length_nullSpan (Bool.and_eq_true_iff.mp hNull).1
  · dsimp only at h
    split at h
    · rename_i v hv
      obtain ⟨body, hBody, rfl⟩ := map_eq_some_iff.mp h
      have hHeld : (p.held out pos).length = v.length := by
        rw [KeyPart.held, length_map, length_range, p.varbinary_length v hv]
      exact length_valueSpan ((length_varbinary hHeld hBody).trans (p.varbinary_length v hv))
    · cases h
      exact length_valueSpan (S.length_write ..)

theorem nullSpan_ne_valueSpan (h : p.col.nullable = true) (body : Bytes) : p.nullSpan ≠ p.valueSpan body := by
  rw [KeyPart.nullSpan, KeyPart.valueSpan, if_pos h]
  intro hEq
  exact absurd (cons.inj hEq).1 (by decide)

theorem valueSpan_inj {body body' : Bytes} (h : p.valueSpan body = p.valueSpan body') : body = body' := by
  rw [KeyPart.valueSpan, KeyPart.valueSpan] at h
  split at h
  · exact (cons.inj h).2
  · exact h

def flat (byte : Bytes → UInt8) : SortString ι where
  write _ n v := replicate n (byte v)
  length_write _ _ _ := length_replicate

theorem flat_inj {byte byte' : Bytes → UInt8} {v v' : Bytes}
    (h : (flat byte).write p.col p.length v = (flat byte').write p.col p.length v') : byte v = byte' v' :=
  replicate_right_injective (ne_of_gt p.length_pos) h

end Lengths

section Agreement

variable {ι : Type} [DecidableEq ι] {S : SortString ι} {D D' : Definition ι} {out buf : Buffer}
  {row : Column ι → Option Bytes}

theorem length_buildSpan (p : KeyPart ι) : (buildSpan S D' buf p).length = p.span := by
  rw [buildSpan]
  split
  · rename_i hNull
    exact length_nullSpan (Bool.and_eq_true_iff.mp hNull).1
  · exact length_valueSpan (S.length_write ..)

theorem makeComparableKey_of_spans {parts : List (KeyPart ι)}
    (h : ∀ p ∈ parts, ∀ pos, comparableSpan S out row pos p = some (buildSpan S D' buf p)) (pos : Nat) :
    makeComparableKey S out row pos parts = some (inplaceBuildIndexKey S D' buf parts).1 := by
  induction parts generalizing pos with
  | nil => rfl
  | cons p parts ih =>
    rw [makeComparableKey, h p mem_cons_self pos]
    dsimp only
    rw [ih fun q hq => h q (mem_cons_of_mem p hq)]
    rfl

theorem spans_of_makeComparableKey {parts : List (KeyPart ι)} {pos : Nat}
    (h : makeComparableKey S out row pos parts = some (inplaceBuildIndexKey S D' buf parts).1) :
    ∀ p ∈ parts, ∃ pos, comparableSpan S out row pos p = some (buildSpan S D' buf p) := by
  induction parts generalizing pos with
  | nil => exact fun p hp => absurd hp not_mem_nil
  | cons q parts ih =>
    rw [makeComparableKey] at h
    cases hSpan : comparableSpan S out row pos q with
    | none =>
      rw [hSpan] at h
      cases h
    | some span =>
      rw [hSpan] at h
      obtain ⟨rest, hRest, hKey⟩ := map_eq_some_iff.mp h
      have hLength : (q.orient span).length = (q.orient (buildSpan S D' buf q)).length := by
        rw [length_orient, length_orient, length_comparableSpan hSpan, length_buildSpan]
      obtain ⟨hHead, hTail⟩ := append_inj hKey hLength
      intro p hp
      obtain rfl | hp := mem_cons.mp hp
      · exact ⟨pos, by rw [hSpan, orient_inj hHead]⟩
      · exact ih (hRest.trans (congrArg some hTail)) p hp

/-- The builder's key is the key of the row under the server's strings `S`, whatever the output buffer. -/
def Agrees (S : SortString ι) (D D' : Definition ι) (parts : List (KeyPart ι)) : Prop :=
  ∀ (out buf : Buffer) (pk : Bytes),
    secIdxKey S out (rowUnder D D' buf) parts pk = some (inplaceEntry S D' buf parts pk)

theorem Agrees.span {parts : List (KeyPart ι)} (h : Agrees S D D' parts) {p : KeyPart ι} (hp : p ∈ parts)
    (out buf : Buffer) :
    ∃ pos, comparableSpan S out (rowUnder D D' buf) pos p = some (buildSpan S D' buf p) := by
  obtain ⟨key, hKey, hEntry⟩ := map_eq_some_iff.mp (h out buf [])
  rw [inplaceEntry, append_nil, append_nil] at hEntry
  exact spans_of_makeComparableKey (hEntry ▸ hKey) p hp

end Agreement

section Buffers

variable {ι : Type} [DecidableEq ι] {D : Definition ι} {c : Column ι}

theorem takeWhile_split {columns : List (Column ι)} (h : c ∈ columns) :
    ∃ rest, columns = columns.takeWhile (· ≠ c) ++ c :: rest := by
  induction columns with
  | nil => cases h
  | cons d columns ih =>
    obtain rfl | hNe := eq_or_ne d c
    · exact ⟨columns, by rw [takeWhile_cons_of_neg (by simp)]; rfl⟩
    · obtain ⟨rest, hRest⟩ := ih ((mem_cons.mp h).resolve_left hNe.symm)
      refine ⟨rest, ?_⟩
      rw [takeWhile_cons_of_pos (by simpa using hNe), cons_append, ← hRest]

theorem nullBit_div_lt (h : c ∈ D.columns) (hNullable : c.nullable = true) : nullBit D c / 8 < nullBytes D := by
  obtain ⟨rest, hRest⟩ := takeWhile_split h
  have hCount : (before D c).countP Column.nullable + 1 ≤ D.columns.countP Column.nullable := by
    rw [hRest, ← before, countP_append, countP_cons_of_pos hNullable]
    omega
  rw [nullBit, nullBytes]
  omega

def bitBuffer (b : Nat) : Buffer := update (fun _ => 0) (b / 8) (UInt8.ofNat (2 ^ (b % 8)))

theorem isNull_bitBuffer (b : Nat) : isNull D (bitBuffer b) c = (c.nullable && decide (nullBit D c = b)) := by
  rw [isNull]
  congr 1
  by_cases hByte : nullBit D c / 8 = b / 8
  · have hLt : 2 ^ (b % 8) < 256 := by
      calc 2 ^ (b % 8) < 2 ^ 8 := Nat.pow_lt_pow_right (by decide) (Nat.mod_lt b (by decide))
        _ = 256 := rfl
    rw [bitBuffer, hByte, update_self, UInt8.toNat_ofNat_of_lt' hLt, testBit_two_pow]
    exact decide_eq_decide.mpr (by omega)
  · rw [bitBuffer, update_of_ne hByte]
    have hNe : nullBit D c ≠ b := fun hEq => hByte (hEq ▸ rfl)
    simp [hNe]

def byteBuffer (o : Nat) : Buffer := update (fun _ => 0) o 1

theorem isNull_byteBuffer (h : c ∈ D.columns) {o : Nat} (ho : nullBytes D ≤ o) : isNull D (byteBuffer o) c = false := by
  rw [isNull]
  cases hNullable : c.nullable with
  | false => rfl
  | true =>
    have hNe : nullBit D c / 8 ≠ o := Nat.ne_of_lt (lt_of_lt_of_le (nullBit_div_lt h hNullable) ho)
    rw [byteBuffer, update_of_ne hNe]
    simp

theorem headD_image (buf : Buffer) : (image D buf c).headD 0 = buf (offset D c) := by
  obtain ⟨n, hn⟩ := exists_eq_succ_of_ne_zero (ne_of_gt c.width_pos)
  rw [image, hn, range_succ_eq_map]
  rfl

end Buffers

section Necessary

variable {ι : Type} [DecidableEq ι] {D D' : Definition ι} {parts : List (KeyPart ι)} {p : KeyPart ι}

theorem nullable_of_isNull {buf : Buffer} {c : Column ι} (h : isNull D buf c = true) : c.nullable = true :=
  (Bool.and_eq_true_iff.mp h).1

variable (h : ∀ S, Agrees S D D' parts) (hp : p ∈ parts)
include h hp

theorem isNone_eq (hNullable : p.col.nullable = true) (buf : Buffer) :
    (rowUnder D D' buf p.col).isNone = isNull D' buf p.col := by
  obtain ⟨pos, hSpan⟩ := (h (flat fun _ => 0)).span hp (fun _ => 0) buf
  rw [comparableSpan, buildSpan, hNullable, Bool.true_and] at hSpan
  cases hRow : (rowUnder D D' buf p.col).isNone with
  | true =>
    cases hNull : isNull D' buf p.col with
    | true => rfl
    | false =>
      rw [hRow, if_pos rfl, hNull, if_neg Bool.false_ne_true] at hSpan
      exact absurd (some.inj hSpan) (nullSpan_ne_valueSpan hNullable _)
  | false =>
    cases hNull : isNull D' buf p.col with
    | false => rfl
    | true =>
      rw [hRow, if_neg Bool.false_ne_true, hNull, if_pos rfl] at hSpan
      dsimp only at hSpan
      split at hSpan
      · obtain ⟨body, -, hBody⟩ := map_eq_some_iff.mp hSpan
        exact absurd hBody.symm (nullSpan_ne_valueSpan hNullable _)
      · exact absurd (some.inj hSpan).symm (nullSpan_ne_valueSpan hNullable _)

theorem not_null {buf : Buffer} (hValue : isNull D' buf p.col = false) :
    (p.col.nullable && (rowUnder D D' buf p.col).isNone) = false := by
  cases hNullable : p.col.nullable with
  | false => rfl
  | true => rw [isNone_eq h hp hNullable, hValue, Bool.and_false]

theorem varbinary_eq_none : p.varbinary = none := by
  have hValue : isNull D' (fun _ => 0) p.col = false := by simp [isNull]
  have hRow := not_null h hp hValue
  cases hPart : p.varbinary with
  | none => rfl
  | some v =>
    -- the branch does not ask the server, so it cannot follow two of them
    have hBoth (x : UInt8) : (v.write (replicate p.length 0)
        (varstringValue v ((rowUnder D D' (fun _ => 0) p.col).getD []))) = some (replicate p.length x) := by
      obtain ⟨pos, hSpan⟩ := (h (flat fun _ => x)).span hp (fun _ => 0) fun _ => 0
      rw [comparableSpan, buildSpan, hRow, if_neg Bool.false_ne_true, hPart, hValue, if_neg Bool.false_ne_true] at hSpan
      obtain ⟨body, hBody, hEq⟩ := map_eq_some_iff.mp hSpan
      rw [valueSpan_inj hEq] at hBody
      have hHeld : p.held (fun _ => 0) pos = replicate p.length 0 := by
        rw [KeyPart.held, map_const', length_range]
      rwa [hHeld] at hBody
    have hEq := some.inj ((hBoth 0).symm.trans (hBoth 1))
    exact absurd (replicate_right_injective (ne_of_gt p.length_pos) hEq) (by decide)

theorem headD_eq {buf : Buffer} (hValue : isNull D' buf p.col = false) :
    ((rowUnder D D' buf p.col).getD []).headD 0 = buf (offset D' p.col) := by
  obtain ⟨pos, hSpan⟩ := (h (flat fun v => v.headD 0)).span hp (fun _ => 0) buf
  rw [comparableSpan, buildSpan, not_null h hp hValue, if_neg Bool.false_ne_true, varbinary_eq_none h hp, hValue,
    if_neg Bool.false_ne_true] at hSpan
  have hHead := flat_inj (valueSpan_inj (some.inj hSpan))
  rwa [headD_image] at hHead

theorem agreed_mem : p.col ∈ D.columns := by
  by_contra hAdded
  have hRow (buf : Buffer) : rowUnder D D' buf p.col = D'.default p.col := if_neg hAdded
  cases hDefault : D'.default p.col with
  | none =>
    have hNullable := D'.default_null _ hDefault
    have hEq := isNone_eq h hp hNullable fun _ => 0
    rw [hRow, hDefault] at hEq
    simp [isNull] at hEq
  | some v =>
    cases hNullable : p.col.nullable with
    | true =>
      have hEq := isNone_eq h hp hNullable (bitBuffer (nullBit D' p.col))
      rw [hRow, hDefault, isNull_bitBuffer, hNullable] at hEq
      simp at hEq
    | false =>
      have hValue : isNull D' (fun _ => v.headD 0 + 1) p.col = false := by rw [isNull, hNullable, Bool.false_and]
      have hHead := headD_eq h hp hValue
      rw [hRow, hDefault, getD_some] at hHead
      exact absurd hHead (by simp)

theorem offset_eq : offset D p.col = offset D' p.col := by
  have hMem := agreed_mem h hp
  have hNull : isNull D (byteBuffer (offset D p.col)) p.col = false := isNull_byteBuffer hMem (Nat.le_add_right ..)
  have hRow : rowUnder D D' (byteBuffer (offset D p.col)) p.col =
      some (image D (byteBuffer (offset D p.col)) p.col) := by
    rw [rowUnder, if_pos hMem, shown, hNull, if_neg Bool.false_ne_true]
  have hValue : isNull D' (byteBuffer (offset D p.col)) p.col = false := by
    cases hNull' : isNull D' (byteBuffer (offset D p.col)) p.col with
    | false => rfl
    | true =>
      have hEq := isNone_eq h hp (nullable_of_isNull hNull') (byteBuffer (offset D p.col))
      rw [hRow, hNull'] at hEq
      cases hEq
  have hHead := headD_eq h hp hValue
  rw [hRow, getD_some, headD_image, byteBuffer, update_self] at hHead
  by_contra hNe
  rw [update_of_ne (Ne.symm hNe)] at hHead
  exact absurd hHead (by decide)

theorem nullBit_eq (hNullable : p.col.nullable = true) : nullBit D p.col = nullBit D' p.col := by
  have hEq := isNone_eq h hp hNullable (bitBuffer (nullBit D p.col))
  rw [rowUnder, if_pos (agreed_mem h hp), shown, isNull_bitBuffer, isNull_bitBuffer, hNullable] at hEq
  simpa [eq_comm] using hEq

end Necessary

section Exact

variable {ι : Type} [DecidableEq ι] {D D' : Definition ι}

theorem SamePlace.isNull_eq {c : Column ι} (h : SamePlace D D' c) (buf : Buffer) :
    isNull D buf c = isNull D' buf c := by
  rw [isNull, isNull]
  cases hNullable : c.nullable with
  | false => rfl
  | true => rw [h.nullBit hNullable]

theorem SamePlace.comparableSpan_eq {p : KeyPart ι} (h : SamePlace D D' p.col) (hPlain : p.varbinary = none)
    (S : SortString ι) (out buf : Buffer) (pos : Nat) :
    comparableSpan S out (rowUnder D D' buf) pos p = some (buildSpan S D' buf p) := by
  have hImage : image D buf p.col = image D' buf p.col := by rw [image, image, h.offset]
  rw [comparableSpan, buildSpan, hPlain, rowUnder, if_pos h.mem, shown, h.isNull_eq, hImage]
  cases hNull : isNull D' buf p.col with
  | true =>
    rw [if_pos rfl, if_pos rfl, nullable_of_isNull hNull]
    rfl
  | false =>
    rw [if_neg Bool.false_ne_true, if_neg Bool.false_ne_true, isNone_some, Bool.and_false, if_neg Bool.false_ne_true]
    rfl

/-- The builder's keys are right exactly for an index without VARBINARY parts whose columns have the same place in
both records. -/
theorem build_keys_agree_iff (D : Definition ι) {D' : Definition ι} (index : Index D') :
    (∀ S, Agrees S D D' index.parts) ↔ ∀ p ∈ index.parts, p.varbinary = none ∧ SamePlace D D' p.col := by
  constructor
  · intro h p hp
    exact ⟨varbinary_eq_none h hp, agreed_mem h hp, offset_eq h hp, nullBit_eq h hp⟩
  · intro h S out buf pk
    have hKey : makeComparableKey S out (rowUnder D D' buf) 0 index.parts =
        some (inplaceBuildIndexKey S D' buf index.parts).1 :=
      makeComparableKey_of_spans (fun p hp pos => (h p hp).2.comparableSpan_eq (h p hp).1 S out buf pos) 0
    rw [secIdxKey, hKey]
    rfl

end Exact

section Samples

theorem one_pos : 0 < 1 := Nat.one_pos

def byteColumn (id : Nat) : Column Nat := ⟨id, false, 1, one_pos⟩

def bytesDefault (c : Column Nat) : Option Bytes := some (replicate c.width 0)

theorem bytesDefault_width (c : Column Nat) (v : Bytes) (h : bytesDefault c = some v) : v.length = c.width := by
  cases h
  exact length_replicate

theorem bytesDefault_null (c : Column Nat) (h : bytesDefault c = none) : c.nullable = true := by cases h

def ofColumns (columns : List (Column Nat)) : Definition Nat :=
  ⟨columns, true, bytesDefault, bytesDefault_width, bytesDefault_null⟩

def bytePart (id : Nat) : KeyPart Nat := ⟨byteColumn id, 1, one_pos, false, none, nofun⟩

theorem three_pos : 0 < 3 := succ_pos 2

theorem four_pos : 0 < 4 := succ_pos 3

theorem threeBytes_length (v : VarbinaryKey.Part) (h : some VarbinaryKey.threeBytes = some v) : v.length = 3 := by
  cases h
  rfl

def varbinaryPart : KeyPart Nat :=
  ⟨⟨9, false, 4, four_pos⟩, 3, three_pos, false, some VarbinaryKey.threeBytes, threeBytes_length⟩

theorem length_cleared (n : Nat) (v : Bytes) : ((v ++ replicate n 0).take n).length = n := by
  rw [length_take, length_append, length_replicate]
  omega

def cleared : SortString Nat where
  write c n v := ((if c.id = 9 then varstringValue VarbinaryKey.threeBytes v else v) ++ replicate n 0).take n
  length_write _ n _ := length_cleared n _

/-- A column added in front moves the indexed one, and the length of a VARBINARY value is missing. -/
theorem build_keys_differ : checkIfSupportedInplaceAlter ⟨true, true, [.addColumn, .addIndex], [.ordinary]⟩ = .noLock ∧
      secIdxKey cleared (fun _ => 0) (rowUnder (ofColumns [byteColumn 1]) (ofColumns [byteColumn 0, byteColumn 1])
        (update (fun _ => 0) 0 5)) [bytePart 1] [7] = some [5, 7] ∧
      inplaceEntry cleared (ofColumns [byteColumn 0, byteColumn 1]) (update (fun _ => 0) 0 5) [bytePart 1]
        [7] = [0, 7] ∧
      secIdxKey cleared (fun _ => 0) (rowUnder (ofColumns [varbinaryPart.col]) (ofColumns [varbinaryPart.col])
        fun k => [2, 0x61, 0x62].getD k 0) [varbinaryPart] [7] = some [0x61, 0x62, 2, 7] ∧
      inplaceEntry cleared (ofColumns [varbinaryPart.col]) (fun k => [2, 0x61, 0x62].getD k 0) [varbinaryPart] [7] =
        [0x61, 0x62, 0, 7] := by
  refine ⟨by decide, by decide, by decide, by decide, by decide⟩

end Samples

end TideSql.BuildKeys
