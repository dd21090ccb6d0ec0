import TideSql.Lib.PrefixCodec
import TideSql.Lib.Select
import TideSql.Handler.InplaceCheck
import Mathlib.Data.Nat.Bitwise

/-!
# The stored row

`serialize_row` and `deserialize_row`: a magic byte, the width of the null bitmap, the number of fields, the
server's bitmap as it stands, then the fields that are not NULL.
-/

namespace TideSql.RowFormat
open InplaceCheck Lib Lib.Bytes Lib.Select List Option Function Nat

abbrev Bytes := List UInt8

structure Column (ι : Type) where
  id : ι
  nullable : Bool
  deriving DecidableEq

structure TableDef (ι : Type) where
  columns : List (Column ι)
  packRecord : Bool
  defaultNull : Column ι → Bool
  default_fits : ∀ c, defaultNull c = true → c.nullable = true
  nodup : (columns.map Column.id).Nodup
  size : columns.length ≤ 4096

structure FieldType where
  codec : PrefixCodec Bytes
  default : Bytes
  default_valid : codec.Valid default

structure Record where
  null : Nat → UInt8
  slots : Nat → Bytes

def bit (null : Nat → UInt8) (j : Nat) : Bool := (null (j / 8)).toNat.testBit (j % 8)

section Layout

variable {ι : Type} (D : TableDef ι)

def nullables : List (Column ι) := D.columns.filter Column.nullable

def nullBit (i : Nat) : Nat := nullBitBase D.packRecord + (D.columns.take i).countP Column.nullable

def nullBytes : Nat := (nullBitBase D.packRecord + (nullables D).length + 7) / 8

def nullBytesCached : Nat := nullBytes D % 256

def fieldsCached : Nat := D.columns.length % 65536

def isRealNull (rec : Record) (c : Column ι) (i : Nat) : Bool := c.nullable && bit rec.null (nullBit D i)

end Layout

def rowHeaderMagic : UInt8 := 0xFE
def rowHeaderSize : Nat := 5

section Rows

variable {ι : Type} (types : ι → FieldType) (D : TableDef ι)

def packFields (rec : Record) : List (Column ι × Nat) → Bytes
  | [] => []
  | (c, i) :: fields =>
    if isRealNull D rec c i then packFields rec fields
    else (types c.id).codec.encode (rec.slots i) ++ packFields rec fields

def serializeRow (rec : Record) : Bytes :=
  rowHeaderMagic :: (toLE 2 (nullBytesCached D) ++ toLE 2 (fieldsCached D) ++
    (range (nullBytesCached D)).map rec.null ++
    packFields types D rec (D.columns.zipIdx.take (fieldsCached D)))

def deserializeUnpackFields : List (Column ι × Nat) → Bytes → Record → Record
  | [], _, buf => buf
  | (c, i) :: fields, from_, buf =>
    if isRealNull D buf c i then deserializeUnpackFields fields from_ buf
    else if from_.isEmpty then buf
    else
      match (types c.id).codec.decode from_ with
      | none => buf
      | some (v, next) => deserializeUnpackFields fields next { buf with slots := update buf.slots i v }

def zeroed (buf : Record) : Record := ⟨fun _ => 0, fun i => replicate (buf.slots i).length 0⟩

/-- `buf` is the record buffer as an earlier row left it. -/
def deserializeRow (defaultValues buf : Record) (data : Bytes) : Record :=
  if data.length < rowHeaderSize ∨ data.head? ≠ some rowHeaderMagic then zeroed buf
  else
    let storedNullBytes := ofLE ((data.drop 1).take 2)
    let storedFields := ofLE ((data.drop 3).take 2)
    let from_ := data.drop rowHeaderSize
    if from_.length < storedNullBytes then zeroed buf
    else
      let copyNb := min storedNullBytes (nullBytesCached D)
      let null := fun b =>
        if b < copyNb then from_.getD b 0
        else if b < nullBytesCached D then defaultValues.null b
        else buf.null b
      let slots := fun i =>
        if storedFields ≤ i ∧ i < fieldsCached D then defaultValues.slots i else buf.slots i
      deserializeUnpackFields types D (D.columns.zipIdx.take (min storedFields (fieldsCached D)))
        (from_.drop storedNullBytes) ⟨null, slots⟩

/-- The header and the bitmap, or nothing when they are not all there: the fields to read, their bytes,
and the record before they are read. -/
def parseHeader (defaultValues buf : Record) (data : Bytes) : Option (List (Column ι × Nat) × Bytes × Record) :=
  if data.length < rowHeaderSize ∨ data.head? ≠ some rowHeaderMagic then none
  else
    let storedNullBytes := ofLE ((data.drop 1).take 2)
    let storedFields := ofLE ((data.drop 3).take 2)
    let from_ := data.drop rowHeaderSize
    if from_.length < storedNullBytes then none
    else
      let null := fun b =>
        if b < min storedNullBytes (nullBytesCached D) then from_.getD b 0
        else if b < nullBytesCached D then defaultValues.null b
        else buf.null b
      let slots := fun i =>
        if storedFields ≤ i ∧ i < fieldsCached D then defaultValues.slots i else buf.slots i
      some (D.columns.zipIdx.take (min storedFields (fieldsCached D)), from_.drop storedNullBytes, ⟨null, slots⟩)

/-- The record has the row's values, and its NULL bits are those of the row. -/
structure Shows (rec : Record) (row : Column ι → Option Bytes) : Prop where
  null : ∀ i c, D.columns[i]? = some c → c.nullable = true → bit rec.null (nullBit D i) = (row c).isNone
  slot : ∀ i c v, D.columns[i]? = some c → row c = some v → rec.slots i = v

theorem Shows.congr {D : TableDef ι} {rec : Record} {row row' : Column ι → Option Bytes} (hShows : Shows D rec row)
    (h : ∀ c ∈ D.columns, row c = row' c) : Shows D rec row' where
  null i c hi hc := by rw [← h c (mem_of_getElem? hi), hShows.null i c hi hc]
  slot i c v hi hv := hShows.slot i c v hi (by rw [h c (mem_of_getElem? hi), hv])

/-- A record as the server fills it: the bits of the bitmap that no column uses are set. -/
structure Represents (rec : Record) (row : Column ι → Option Bytes) : Prop extends Shows D rec row where
  unused : ∀ j, nullBitBase D.packRecord + (nullables D).length ≤ j → j < 8 * nullBytes D → bit rec.null j = true

structure RowOk (row : Column ι → Option Bytes) : Prop where
  notNull : ∀ c ∈ D.columns, c.nullable = false → row c ≠ none
  valid : ∀ c ∈ D.columns, ∀ v, row c = some v → (types c.id).codec.Valid v

def defaultRow (c : Column ι) : Option Bytes := if D.defaultNull c then none else some (types c.id).default

def packRow (row : Column ι → Option Bytes) (cs : List (Column ι)) : Bytes :=
  cs.flatMap fun c => (row c).elim [] (types c.id).codec.encode

theorem packRow_cons (row : Column ι → Option Bytes) (c : Column ι) (cs : List (Column ι)) :
    packRow types row (c :: cs) = (row c).elim [] (types c.id).codec.encode ++ packRow types row cs := rfl

theorem packRow_congr {row row' : Column ι → Option Bytes} {cs : List (Column ι)} (h : ∀ c ∈ cs, row c = row' c) :
    packRow types row cs = packRow types row' cs :=
  flatMap_congr fun c hc => by rw [h c hc]

end Rows

def ofFlags (flag : Nat → Bool) (b : Nat) : UInt8 := UInt8.ofNat (ofBits fun k : Fin 8 => flag (8 * b + k))

theorem bit_ofFlags (flag : Nat → Bool) (j : Nat) : bit (ofFlags flag) j = flag j := by
  have hBits := ofBits_lt_two_pow fun k : Fin 8 => flag (8 * (j / 8) + k)
  have hByte : (ofFlags flag (j / 8)).toNat = ofBits fun k : Fin 8 => flag (8 * (j / 8) + k) := by
    rw [ofFlags, UInt8.toNat_ofNat', mod_eq_of_lt hBits]
  rw [bit, hByte, testBit_ofBits_lt _ _ (mod_lt _ (by decide))]
  exact congrArg flag (div_add_mod j 8)

def recordOf {ι : Type} (D : TableDef ι) (row : Column ι → Option Bytes) : Record where
  null := ofFlags fun j =>
    if nullBitBase D.packRecord ≤ j then
      ((nullables D)[j - nullBitBase D.packRecord]?).elim true fun c => (row c).isNone
    else true
  slots i := (D.columns[i]?.bind row).getD [1]

theorem represents_recordOf {ι : Type} (D : TableDef ι) (row : Column ι → Option Bytes) :
    Represents D (recordOf D row) row where
  null i c hi hc := by
    have hRank := getElem?_filter_of_getElem? hi hc
    rw [recordOf, bit_ofFlags, nullBit, if_pos (Nat.le_add_right ..), Nat.add_sub_cancel_left, nullables, hRank]
    rfl
  slot i c v hi hv := by simp [recordOf, hi, hv]
  unused j hj _ := by
    rw [recordOf, bit_ofFlags, if_pos (by omega), getElem?_eq_none (by omega)]
    rfl

section Serialize

variable {ι : Type} {types : ι → FieldType} {D : TableDef ι} {rec : Record} {row : Column ι → Option Bytes}

theorem isRealNull_eq {i : Nat} {c : Column ι} (hNotNull : c.nullable = false → row c ≠ none)
    (hBit : c.nullable = true → bit rec.null (nullBit D i) = (row c).isNone) :
    isRealNull D rec c i = (row c).isNone := by
  cases hNullable : c.nullable with
  | true => rw [isRealNull, hNullable, Bool.true_and, hBit hNullable]
  | false =>
    rw [isRealNull, hNullable, Bool.false_and, Eq.comm, isNone_eq_false_iff, isSome_iff_ne_none]
    exact hNotNull hNullable

theorem packFields_eq (hRow : RowOk types D row) (hShows : Shows D rec row) (cs : List (Column ι)) (k : Nat)
    (hDrop : D.columns.drop k = cs) : packFields types D rec (cs.zipIdx k) = packRow types row cs := by
  induction cs generalizing k with
  | nil => rfl
  | cons c cs ih =>
    have hi : D.columns[k]? = some c := by
      rw [← add_zero k, ← getElem?_drop, hDrop]
      rfl
    have hRest : D.columns.drop (k + 1) = cs := by
      rw [← drop_drop, hDrop]
      rfl
    have hNull : isRealNull D rec c k = (row c).isNone :=
      isRealNull_eq (hRow.notNull c (mem_of_getElem? hi)) (hShows.null k c hi)
    rw [zipIdx_cons, packFields, hNull, ih (k + 1) hRest, packRow_cons]
    cases hValue : row c with
    | none => rfl
    | some v =>
      rw [hShows.slot k c v hi hValue]
      rfl

theorem fieldsCached_eq (D : TableDef ι) : fieldsCached D = D.columns.length := by
  have := D.size
  rw [fieldsCached, mod_eq_of_lt (by omega)]

end Serialize

def nullRead {ι : Type} (D₀ D : TableDef ι) (rec defaultValues buf : Record) (b : Nat) : UInt8 :=
  if b < min (nullBytesCached D₀) (nullBytesCached D) then rec.null b
  else if b < nullBytesCached D then defaultValues.null b
  else buf.null b

def slotsRead {ι : Type} (D₀ D : TableDef ι) (defaultValues buf : Record) (i : Nat) : Bytes :=
  if D₀.columns.length ≤ i ∧ i < D.columns.length then defaultValues.slots i else buf.slots i

section Deserialize

variable {ι : Type} {types : ι → FieldType} {D₀ D : TableDef ι}

theorem header_slices {a b : Bytes} (ha : a.length = 2) (hb : b.length = 2) (rest : Bytes) (magic : UInt8) :
    ((magic :: (a ++ b ++ rest)).drop 1).take 2 = a ∧ ((magic :: (a ++ b ++ rest)).drop 3).take 2 = b ∧
      (magic :: (a ++ b ++ rest)).drop rowHeaderSize = rest := by
  have h₁ : (magic :: (a ++ b ++ rest)).drop 1 = a ++ (b ++ rest) := by simp
  have h₃ : (magic :: (a ++ b ++ rest)).drop 3 = b ++ rest := by
    rw [← drop_drop (i := 2) (j := 1), h₁, drop_left' ha]
  have h₅ : (magic :: (a ++ b ++ rest)).drop rowHeaderSize = rest := by
    rw [rowHeaderSize, ← drop_drop (i := 2) (j := 3), h₃, drop_left' hb]
  exact ⟨by rw [h₁, take_left' ha], by rw [h₃, take_left' hb], h₅⟩

theorem deserializeRow_eq (defaultValues buf : Record) (data : Bytes) : deserializeRow types D defaultValues buf data =
      ((parseHeader D defaultValues buf data).map fun r =>
        deserializeUnpackFields types D r.1 r.2.1 r.2.2).getD (zeroed buf) := by
  rw [deserializeRow, parseHeader]
  split
  · rfl
  · dsimp only
    split <;> rfl

theorem tag_of_parseHeader {defaultValues buf : Record} {data : Bytes} {r : List (Column ι × Nat) × Bytes × Record}
    (h : parseHeader D defaultValues buf data = some r) : data.head? = some rowHeaderMagic := by
  rw [parseHeader] at h
  split at h
  · cases h
  · rename_i hHeader
    exact Classical.byContradiction fun hTag => hHeader (Or.inr hTag)

def rowHead (D₀ : TableDef ι) (rec : Record) : Bytes :=
  rowHeaderMagic :: (toLE 2 (nullBytesCached D₀) ++ toLE 2 (fieldsCached D₀) ++
    (range (nullBytesCached D₀)).map rec.null)

theorem length_rowHead (D₀ : TableDef ι) (rec : Record) :
    (rowHead D₀ rec).length = rowHeaderSize + nullBytesCached D₀ := by
  simp [rowHead, rowHeaderSize]
  omega

theorem serializeRow_eq (types : ι → FieldType) (D₀ : TableDef ι) (rec : Record) :
    serializeRow types D₀ rec = rowHead D₀ rec ++ packFields types D₀ rec D₀.columns.zipIdx := by
  have hAll : D₀.columns.zipIdx.take (fieldsCached D₀) = D₀.columns.zipIdx := by
    rw [fieldsCached_eq, take_of_length_le (by simp)]
  rw [serializeRow, hAll, rowHead, cons_append]

theorem parseHeader_rowHead (D₀ D : TableDef ι) (rec defaultValues buf : Record) (fields : Bytes) :
    parseHeader D defaultValues buf (rowHead D₀ rec ++ fields) = some (D.columns.zipIdx.take D₀.columns.length, fields,
        ⟨nullRead D₀ D rec defaultValues buf, slotsRead D₀ D defaultValues buf⟩) := by
  have hSize := D₀.size
  have hNb : nullBytesCached D₀ < 256 := mod_lt _ (by decide)
  rw [rowHead, cons_append, append_assoc (toLE 2 _ ++ toLE 2 _)]
  generalize hBitmap : (range (nullBytesCached D₀)).map rec.null = bitmap
  have hBitmapLen : bitmap.length = nullBytesCached D₀ := by simp [← hBitmap]
  obtain ⟨hWidth, hCount, hFrom⟩ := header_slices (length_toLE 2 (nullBytesCached D₀))
    (length_toLE 2 (fieldsCached D₀)) (bitmap ++ fields) rowHeaderMagic
  have hStoredNb : ofLE (toLE 2 (nullBytesCached D₀)) = nullBytesCached D₀ := by
    rw [ofLE_toLE, mod_eq_of_lt (by omega)]
  have hStoredNf : ofLE (toLE 2 (fieldsCached D₀)) = D₀.columns.length := by
    rw [ofLE_toLE, fieldsCached_eq, mod_eq_of_lt (by omega)]
  have hGet : ∀ b, b < nullBytesCached D₀ → (bitmap ++ fields).getD b 0 = rec.null b := by
    intro b hb
    rw [getD_append _ _ _ _ (by omega), ← hBitmap]
    simp [getD_eq_getElem?_getD, hb]
  have hNull : (fun b => if b < min (nullBytesCached D₀) (nullBytesCached D) then (bitmap ++ fields).getD b 0
      else if b < nullBytesCached D then defaultValues.null b else buf.null b) =
        nullRead D₀ D rec defaultValues buf := by
    funext b
    rw [nullRead]
    split
    · exact hGet b (by omega)
    · rfl
  have hTake : D.columns.zipIdx.take (min D₀.columns.length D.columns.length) =
      D.columns.zipIdx.take D₀.columns.length := by
    rw [← take_take, take_of_length_le (l := D.columns.zipIdx) (by simp)]
  rw [parseHeader, if_neg (by simp [rowHeaderSize]; omega)]
  simp only [hWidth, hCount, hFrom, hStoredNb, hStoredNf]
  rw [if_neg (by simp [hBitmapLen])]
  simp only [hNull, fieldsCached_eq, hTake, drop_left' hBitmapLen]
  rfl

theorem deserializeRow_serializeRow (types : ι → FieldType) (D₀ D : TableDef ι) (rec defaultValues buf : Record) :
    deserializeRow types D defaultValues buf (serializeRow types D₀ rec) =
      deserializeUnpackFields types D (D.columns.zipIdx.take D₀.columns.length)
        (packFields types D₀ rec D₀.columns.zipIdx)
        ⟨nullRead D₀ D rec defaultValues buf, slotsRead D₀ D defaultValues buf⟩ := by
  rw [deserializeRow_eq, serializeRow_eq, parseHeader_rowHead, map_some, getD_some]

theorem parseHeader_of_cut {D₀ D : TableDef ι} {rec defaultValues buf : Record} {data : Bytes}
    (hPrefix : data <+: rowHead D₀ rec) (hNe : data ≠ rowHead D₀ rec) :
      parseHeader D defaultValues buf data = none := by
  have hNb : nullBytesCached D₀ < 256 := mod_lt _ (by decide)
  have hLen := length_rowHead D₀ rec
  have hShort : data.length < rowHeaderSize + nullBytesCached D₀ := by
    refine lt_of_le_of_ne (hLen ▸ hPrefix.length_le) fun hEq => hNe ?_
    exact hPrefix.eq_of_length (hEq.trans hLen.symm)
  rw [parseHeader]
  split
  · rfl
  · rename_i hHeader
    have hLong : rowHeaderSize ≤ data.length := Nat.le_of_not_lt fun hLt => hHeader (Or.inl hLt)
    have hWidth : (data.drop 1).take 2 = toLE 2 (nullBytesCached D₀) := by
      rw [prefix_iff_eq_take.mp hPrefix, drop_take, take_take, rowHead]
      rw [rowHeaderSize] at hLong
      have hMin : min 2 (data.length - 1) = 2 := by omega
      simp [hMin, take_left' (length_toLE 2 (nullBytesCached D₀))]
    have hStored : ofLE (toLE 2 (nullBytesCached D₀)) = nullBytesCached D₀ := by
      rw [ofLE_toLE, mod_eq_of_lt (by omega)]
    dsimp only
    rw [hWidth, hStored, if_pos]
    rw [length_drop]
    omega

theorem unpack_cons_null {buf : Record} {c : Column ι} {i : Nat} (h : isRealNull D buf c i = true)
    (fields : List (Column ι × Nat)) (from_ : Bytes) :
    deserializeUnpackFields types D ((c, i) :: fields) from_ buf =
      deserializeUnpackFields types D fields from_ buf := by
  rw [deserializeUnpackFields, if_pos h]

theorem unpack_cons_value {buf : Record} {c : Column ι} {i : Nat} (h : isRealNull D buf c i = false) {v : Bytes}
    (hv : (types c.id).codec.Valid v) (fields : List (Column ι × Nat)) (next : Bytes) :
    deserializeUnpackFields types D ((c, i) :: fields) ((types c.id).codec.encode v ++ next) buf =
      deserializeUnpackFields types D fields next { buf with slots := update buf.slots i v } := by
  have hMore : ((types c.id).codec.encode v ++ next).isEmpty = false := by
    simp [(types c.id).codec.encode_ne_nil v hv]
  rw [deserializeUnpackFields, if_neg (by simp [h]), if_neg (by simp [hMore]),
    (types c.id).codec.decode_encode v next hv]

section

variable (fields : List (Column ι × Nat)) (from_ : Bytes) (buf : Record)

theorem null_unpack : (deserializeUnpackFields types D fields from_ buf).null = buf.null := by
  induction fields generalizing from_ buf with
  | nil => rfl
  | cons field fields ih =>
    rw [deserializeUnpackFields]
    split
    · exact ih from_ buf
    · split
      · rfl
      · split
        · rfl
        · exact ih _ _

theorem slots_unpack_of_notMem (j : Nat) (hj : j ∉ fields.map Prod.snd) :
    (deserializeUnpackFields types D fields from_ buf).slots j = buf.slots j := by
  induction fields generalizing from_ buf with
  | nil => rfl
  | cons field fields ih =>
    obtain ⟨hNe, hRest⟩ := not_or.mp (mt mem_cons.mpr hj)
    rw [deserializeUnpackFields]
    split
    · exact ih from_ buf hRest
    · split
      · rfl
      · split
        · rfl
        · rw [ih _ _ hRest]
          exact update_of_ne hNe _ _

end

theorem unpack_spec [DecidableEq ι] {row : Column ι → Option Bytes} (known : List (Column ι))
    (fields : List (Column ι × Nat)) (rest : List (Column ι)) (buf : Record)
    (hFlags : ∀ c i, (c, i) ∈ fields → isRealNull D buf c i = (row c).isNone)
    (hNew : ∀ c i, (c, i) ∈ fields → c ∉ known → row c = none)
    (hValid : ∀ c ∈ rest, ∀ v, row c = some v → (types c.id).codec.Valid v)
    (hOrder : (fields.map Prod.fst).filter (· ∈ known) <+: rest) (hNodup : (fields.map Prod.snd).Nodup)
    {c : Column ι} {i : Nat} {v : Bytes} (hMem : (c, i) ∈ fields) (hValue : row c = some v) :
    (deserializeUnpackFields types D fields (packRow types row rest) buf).slots i = v := by
  induction fields generalizing rest buf with
  | nil => cases hMem
  | cons field fields ih =>
    obtain ⟨c₀, i₀⟩ := field
    obtain ⟨hFresh, hNodup'⟩ := nodup_cons.mp hNodup
    have hFlag := hFlags c₀ i₀ (mem_cons_self ..)
    have hFlags' : ∀ c i, (c, i) ∈ fields → isRealNull D buf c i = (row c).isNone := fun c i hMem =>
      hFlags c i (mem_cons_of_mem _ hMem)
    have hNew' : ∀ c i, (c, i) ∈ fields → c ∉ known → row c = none := fun c i hMem =>
      hNew c i (mem_cons_of_mem _ hMem)
    rw [map_cons, filter_cons] at hOrder
    cases hRow₀ : row c₀ with
    | none =>
      rw [unpack_cons_null (by rw [hFlag, hRow₀]; rfl)]
      have hMem' : (c, i) ∈ fields := by
        obtain hEq | hMem' := mem_cons.mp hMem
        · cases hEq
          rw [hValue] at hRow₀
          cases hRow₀
        · exact hMem'
      split at hOrder
      · obtain ⟨rest', rfl, hOrder'⟩ := cons_prefix_iff.mp hOrder
        rw [packRow_cons, hRow₀]
        exact ih rest' buf hFlags' hNew' (fun c hc => hValid c (mem_cons_of_mem _ hc)) hOrder' hNodup' hMem'
      · exact ih rest buf hFlags' hNew' hValid hOrder hNodup' hMem'
    | some v₀ =>
      split at hOrder
      · obtain ⟨rest', rfl, hOrder'⟩ := cons_prefix_iff.mp hOrder
        rw [packRow_cons, hRow₀, elim_some,
          unpack_cons_value (by rw [hFlag, hRow₀]; rfl) (hValid c₀ (mem_cons_self ..) v₀ hRow₀)]
        obtain hEq | hMem' := mem_cons.mp hMem
        · cases hEq
          rw [slots_unpack_of_notMem _ _ _ _ hFresh]
          rw [hRow₀] at hValue
          cases hValue
          exact update_self ..
        · exact ih rest' _ hFlags' hNew' (fun c hc => hValid c (mem_cons_of_mem _ hc)) hOrder' hNodup' hMem'
      · rename_i hUnknown
        rw [hNew c₀ i₀ (mem_cons_self ..) (by simpa using hUnknown)] at hRow₀
        cases hRow₀

end Deserialize

end TideSql.RowFormat
