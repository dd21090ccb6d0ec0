import TideSql.Handler.RowFormat
import TideSql.Lib.Run

/-!
# Rows of an earlier definition

`ADD COLUMN`, `DROP COLUMN` and a change of the column order are taken as instant, so a row stored before a
sequence of them is read under the last definition.
-/

namespace TideSql.InstantAlter
open InplaceCheck RowFormat Lib Lib.Run Lib.Select List Function

variable {ι : Type} [DecidableEq ι]

structure Statement (ι : Type) where
  table : TableDef ι
  flags : List AlterFlag

structure History (ι : Type) where
  table : TableDef ι
  used : List ι
  kept : List (Column ι)

def History.init (D₀ : TableDef ι) : History ι := ⟨D₀, D₀.columns.map Column.id, D₀.columns⟩

/-- One `ALTER TABLE`. A column that was not there before is a new one, whatever its name. -/
def alterStep (h : History ι) (st : Statement ι) : Option (History ι) :=
  if checkIfSupportedInplaceAlter ⟨h.table.packRecord, st.table.packRecord, st.flags, []⟩ = .instant ∧
      ∀ c ∈ st.table.columns, c ∈ h.table.columns ∨ c.id ∉ h.used then
    some ⟨st.table, h.used ++ st.table.columns.map Column.id, h.kept.filter (· ∈ st.table.columns)⟩
  else none

def expected (types : ι → FieldType) (D : TableDef ι) (kept : List (Column ι)) (row : Column ι → Option Bytes)
    (c : Column ι) : Option Bytes :=
  if c ∈ kept then row c else defaultRow types D c

/-- Every row stored under the first definition reads back, for every choice of types, defaults and values, and
whatever the buffer held; an added column shows the default that the final definition gives it. -/
def ReadsBack (D₀ : TableDef ι) (h : History ι) : Prop :=
  ∀ (types : ι → FieldType) (defaultValues buf rec : Record) (row : Column ι → Option Bytes),
    RowOk types D₀ row → Represents D₀ rec row → Shows h.table defaultValues (defaultRow types h.table) →
      Shows h.table (deserializeRow types h.table defaultValues buf (serializeRow types D₀ rec))
        (expected types h.table h.kept row)

def Stored (D₀ : TableDef ι) (q : Nat) : Prop := (nullBitBase D₀.packRecord + q) / 8 < nullBytesCached D₀

structure Readable (D₀ D : TableDef ι) : Prop where
  narrow : nullBytes D < 256
  kept_null : ∀ q c, (nullables D)[q]? = some c → c ∈ D₀.columns → Stored D₀ q ∧ (nullables D₀)[q]? = some c
  added_null : ∀ q c, (nullables D)[q]? = some c → c ∉ D₀.columns → Stored D₀ q →
    (nullables D₀).length ≤ q ∧ D.defaultNull c = true
  added_early : ∀ i c, D.columns[i]? = some c → c ∉ D₀.columns → i < D₀.columns.length → D.defaultNull c = true
  kept_early : ∀ i c, D.columns[i]? = some c → c ∈ D₀.columns → i < D₀.columns.length
  kept_order : D.columns.filter (· ∈ D₀.columns) <+: D₀.columns

structure Traced (D₀ : TableDef ι) (h : History ι) : Prop where
  packRecord_eq : h.table.packRecord = D₀.packRecord
  used_all : ∀ c ∈ D₀.columns, c.id ∈ h.used
  kept_sub : ∀ c ∈ h.kept, c ∈ D₀.columns
  kept_iff : ∀ c ∈ h.table.columns, c ∈ h.kept ↔ c ∈ D₀.columns

omit [DecidableEq ι] in
theorem traced_init (D₀ : TableDef ι) : Traced D₀ (History.init D₀) :=
  ⟨rfl, fun _ hc => mem_map_of_mem hc, fun _ hc => hc, fun _ _ => Iff.rfl⟩

theorem Traced.step {D₀ : TableDef ι} {h h' : History ι} {st : Statement ι} (hTraced : Traced D₀ h)
    (hStep : alterStep h st = some h') : Traced D₀ h' := by
  rw [alterStep] at hStep
  split at hStep
  · rename_i hOk
    cases hStep
    obtain ⟨hInstant, hColumns⟩ := hOk
    have hPack := ((check_eq_instant_iff _).mp hInstant).1
    refine ⟨hPack.symm.trans hTraced.packRecord_eq, fun c hc => mem_append_left _ (hTraced.used_all c hc),
      fun c hc => hTraced.kept_sub c (mem_filter.mp hc).1, fun c hc => ?_⟩
    rw [mem_filter, decide_eq_true_eq, and_iff_left hc]
    obtain hOld | hFresh := hColumns c hc
    · exact hTraced.kept_iff c hOld
    · constructor
      · exact hTraced.kept_sub c
      · exact fun hFirst => absurd (hTraced.used_all c hFirst) hFresh
  · cases hStep

section Layout

variable {D₀ D : TableDef ι} {rec defaultValues buf : Record}

omit [DecidableEq ι] in
theorem bit_nullRead (j : Nat) : bit (nullRead D₀ D rec defaultValues buf) j =
      if j / 8 < min (nullBytesCached D₀) (nullBytesCached D) then bit rec.null j
      else if j / 8 < nullBytesCached D then bit defaultValues.null j
      else bit buf.null j := by
  simp only [bit, nullRead]
  split
  · rfl
  · split <;> rfl

omit [DecidableEq ι] in
theorem byte_lt_nullBytes {q : Nat} (hq : q < (nullables D).length) :
    (nullBitBase D.packRecord + q) / 8 < nullBytes D := by
  rw [nullBytes]
  omega

omit [DecidableEq ι] in
theorem bit_nullRead_of_narrow (hPack : D.packRecord = D₀.packRecord) (hNarrow : nullBytes D < 256) {q : Nat}
    (hq : q < (nullables D).length) [Decidable (Stored D₀ q)] :
    bit (nullRead D₀ D rec defaultValues buf) (nullBitBase D.packRecord + q) =
      if Stored D₀ q then bit rec.null (nullBitBase D.packRecord + q)
      else bit defaultValues.null (nullBitBase D.packRecord + q) := by
  have hByte := byte_lt_nullBytes hq
  have hCached : nullBytesCached D = nullBytes D := Nat.mod_eq_of_lt hNarrow
  have hIff : (nullBitBase D.packRecord + q) / 8 < min (nullBytesCached D₀) (nullBytes D) ↔ Stored D₀ q := by
    rw [Stored, ← hPack]
    omega
  rw [bit_nullRead]
  simp only [hCached, hIff, hByte, if_true]

omit [DecidableEq ι] in
theorem bit_stored {row : Column ι → Option Bytes} (hRec : Represents D₀ rec row) {q : Nat} {c : Column ι}
    (hq : (nullables D₀)[q]? = some c) : bit rec.null (nullBitBase D₀.packRecord + q) = (row c).isNone := by
  obtain ⟨i, hi, rfl⟩ := exists_of_getElem?_filter hq
  have hNullable : c.nullable = true := (mem_filter.mp (mem_of_getElem? hq)).2
  exact hRec.null i c hi hNullable

omit [DecidableEq ι] in
theorem bit_spare {row : Column ι → Option Bytes} (hRec : Represents D₀ rec row) {q : Nat}
    (hq : (nullables D₀).length ≤ q) (hStored : Stored D₀ q) :
    bit rec.null (nullBitBase D₀.packRecord + q) = true := by
  apply hRec.unused
  · omega
  · have hLe : nullBytesCached D₀ ≤ nullBytes D₀ := Nat.mod_le _ _
    rw [Stored] at hStored
    omega

end Layout

def ReadsUnder (D₀ D : TableDef ι) : Prop :=
  ∀ (types : ι → FieldType) (defaultValues buf rec : Record) (row : Column ι → Option Bytes),
    RowOk types D₀ row → Represents D₀ rec row → Shows D defaultValues (defaultRow types D) →
      Shows D (deserializeRow types D defaultValues buf (serializeRow types D₀ rec)) (expected types D D₀.columns row)

theorem readsBack_iff {D₀ : TableDef ι} {h : History ι} (hTraced : Traced D₀ h) :
    ReadsBack D₀ h ↔ ReadsUnder D₀ h.table := by
  have hExpected : ∀ types row, ∀ c ∈ h.table.columns,
      expected types h.table h.kept row c = expected types h.table D₀.columns row c := by
    intro types row c hc
    simp only [expected, hTraced.kept_iff c hc]
  constructor
  · intro hReads types defaultValues buf rec row hRow hRec hDefaults
    exact (hReads types defaultValues buf rec row hRow hRec hDefaults).congr (hExpected types row)
  · intro hReads types defaultValues buf rec row hRow hRec hDefaults
    exact (hReads types defaultValues buf rec row hRow hRec hDefaults).congr fun c hc => (hExpected types row c hc).symm

section Sufficient

variable {types : ι → FieldType} {D₀ D : TableDef ι} {rec defaultValues buf : Record} {row : Column ι → Option Bytes}

variable {c : Column ι}

theorem expected_ne_none (hRow : RowOk types D₀ row) (hc : c.nullable = false) :
    expected types D D₀.columns row c ≠ none := by
  rw [expected]
  split
  · rename_i hMem
    exact hRow.notNull c hMem hc
  · have hDefault : ¬ D.defaultNull c = true := fun h => by simp [D.default_fits c h] at hc
    simp [defaultRow, hDefault]

theorem bit_read_eq (hOk : Readable D₀ D) (hPack : D.packRecord = D₀.packRecord) (hRec : Represents D₀ rec row)
    (hDefaults : Shows D defaultValues (defaultRow types D)) {i : Nat} (hi : D.columns[i]? = some c)
    (hc : c.nullable = true) :
    bit (nullRead D₀ D rec defaultValues buf) (nullBit D i) = (expected types D D₀.columns row c).isNone := by
  classical
  generalize hRank : (D.columns.take i).countP Column.nullable = q
  have hq : (nullables D)[q]? = some c := hRank ▸ getElem?_filter_of_getElem? hi hc
  have hDefault := hDefaults.null i c hi hc
  simp only [nullBit, hRank] at hDefault ⊢
  rw [bit_nullRead_of_narrow hPack hOk.narrow (List.getElem?_eq_some_iff.mp hq).1, expected]
  split
  · rename_i hStored
    split
    · rename_i hMem
      obtain ⟨-, hq₀⟩ := hOk.kept_null q c hq hMem
      rw [hPack, bit_stored hRec hq₀]
    · rename_i hNew
      obtain ⟨hSpare, hNull⟩ := hOk.added_null q c hq hNew hStored
      rw [hPack, bit_spare hRec hSpare hStored, defaultRow, if_pos hNull]
      rfl
  · rename_i hStored
    rw [if_neg fun hMem => hStored (hOk.kept_null q c hq hMem).1, hDefault]

theorem slot_read_eq (hOk : Readable D₀ D) (hRow : RowOk types D₀ row) (hRec : Represents D₀ rec row)
    (hDefaults : Shows D defaultValues (defaultRow types D)) (hPack : D.packRecord = D₀.packRecord) {i : Nat}
    {v : Bytes} (hi : D.columns[i]? = some c) (hv : expected types D D₀.columns row c = some v) :
    (deserializeRow types D defaultValues buf (serializeRow types D₀ rec)).slots i = v := by
  have hPacked : packFields types D₀ rec D₀.columns.zipIdx =
      packRow types (expected types D D₀.columns row) D₀.columns := by
    rw [packFields_eq hRow hRec.toShows D₀.columns 0 rfl]
    exact packRow_congr types fun c hc => (if_pos hc).symm
  rw [deserializeRow_serializeRow, hPacked]
  obtain hEarly | hLate := Nat.lt_or_ge i D₀.columns.length
  · apply unpack_spec D₀.columns
    · intro c i hMem
      obtain ⟨-, hi⟩ := mem_take_zipIdx.mp hMem
      exact isRealNull_eq (expected_ne_none hRow) (bit_read_eq hOk hPack hRec hDefaults hi)
    · intro c i hMem hNew
      obtain ⟨hLt, hi⟩ := mem_take_zipIdx.mp hMem
      rw [expected, if_neg hNew, defaultRow, if_pos (hOk.added_early i c hi hNew hLt)]
    · intro c hc v hv
      rw [expected, if_pos hc] at hv
      exact hRow.valid c hc v hv
    · rw [take_zipIdx, zipIdx_map_fst]
      exact (( take_prefix ..).filter _).trans hOk.kept_order
    · rw [take_zipIdx, zipIdx_map_snd]
      exact nodup_range'
    · exact mem_take_zipIdx.mpr ⟨hEarly, hi⟩
    · exact hv
  · have hNew : c ∉ D₀.columns := fun hMem => Nat.not_lt.mpr hLate (hOk.kept_early i c hi hMem)
    rw [slots_unpack_of_notMem]
    · rw [expected, if_neg hNew] at hv
      simpa [slotsRead, hLate, (List.getElem?_eq_some_iff.mp hi).1] using hDefaults.slot i c v hi hv
    · intro hMem
      obtain ⟨⟨c', i'⟩, hField, rfl⟩ := mem_map.mp hMem
      exact Nat.not_lt.mpr hLate (mem_take_zipIdx.mp hField).1

theorem readsUnder_of_readable (hOk : Readable D₀ D) (hPack : D.packRecord = D₀.packRecord) : ReadsUnder D₀ D := by
  intro types defaultValues buf rec row hRow hRec hDefaults
  constructor
  · intro i c hi hc
    rw [deserializeRow_serializeRow, null_unpack]
    exact bit_read_eq hOk hPack hRec hDefaults hi hc
  · intro i c v hi hv
    exact slot_read_eq hOk hRow hRec hDefaults hPack hi hv

end Sufficient

section Necessary

def byteType : FieldType := ⟨.fixed 1 (by decide), [0], rfl⟩

def sample (f : Column ι → Option UInt8) (c : Column ι) : Option Bytes := (f c).map fun v => [v]

variable {D₀ D : TableDef ι}

def sampleRead (D₀ D : TableDef ι) (buf : Record) (f : Column ι → Option UInt8) : Record :=
  deserializeRow (fun _ => byteType) D (recordOf D (defaultRow (fun _ => byteType) D)) buf
    (serializeRow (fun _ => byteType) D₀ (recordOf D₀ (sample f)))

variable {f : Column ι → Option UInt8}

omit [DecidableEq ι] in
theorem rowOk_sample (hf : ∀ c ∈ D₀.columns, c.nullable = false → f c ≠ none) :
    RowOk (fun _ => byteType) D₀ (sample f) where
  notNull c hc hNullable := by simpa [sample] using hf c hc hNullable
  valid c _ v hv := by
    obtain ⟨x, -, rfl⟩ := Option.map_eq_some_iff.mp hv
    rfl

theorem shows_sampleRead (hReads : ReadsUnder D₀ D) (hf : ∀ c ∈ D₀.columns, c.nullable = false → f c ≠ none)
    (buf : Record) : Shows D (sampleRead D₀ D buf f) (expected (fun _ => byteType) D D₀.columns (sample f)) :=
  hReads _ _ buf _ _ (rowOk_sample hf) (represents_recordOf D₀ _) (represents_recordOf D _).toShows

variable {c : Column ι}

theorem bit_sampleRead (hReads : ReadsUnder D₀ D) (hf : ∀ c ∈ D₀.columns, c.nullable = false → f c ≠ none)
    (buf : Record) {q : Nat} (hq : (nullables D)[q]? = some c) :
    bit (nullRead D₀ D (recordOf D₀ (sample f)) (recordOf D (defaultRow (fun _ => byteType) D)) buf)
      (nullBitBase D.packRecord + q) = (expected (fun _ => byteType) D D₀.columns (sample f) c).isNone := by
  have hc := (mem_filter.mp (mem_of_getElem? hq)).2
  obtain ⟨i, hi, rfl⟩ := exists_of_getElem?_filter hq
  have hShows := (shows_sampleRead hReads hf buf).null i c hi hc
  rwa [sampleRead, deserializeRow_serializeRow, null_unpack] at hShows

theorem narrow_of_reads (hReads : ReadsUnder D₀ D) : nullBytes D < 256 := by
  refine Nat.lt_of_not_le fun hWide => ?_
  have hBase : nullBitBase D.packRecord ≤ 1 := by
    rw [nullBitBase]
    split <;> omega
  have hLast : (nullables D).length - 1 < (nullables D).length := by
    rw [nullBytes] at hWide
    omega
  have hBeyond : nullBytesCached D ≤ (nullBitBase D.packRecord + ((nullables D).length - 1)) / 8 := by
    rw [nullBytesCached]
    rw [nullBytes] at hWide ⊢
    omega
  have hBuffer : ∀ flag : Bool, flag = (expected (fun _ => byteType) D D₀.columns (sample fun _ => some 1)
      (nullables D)[(nullables D).length - 1]).isNone := by
    intro flag
    rw [← bit_sampleRead hReads (f := fun _ => some 1) (fun _ _ _ => nofun) ⟨ofFlags fun _ => flag, fun _ => []⟩
      (getElem?_eq_getElem hLast), bit_nullRead, if_neg (by omega), if_neg (by omega), bit_ofFlags]
  exact absurd ((hBuffer true).trans (hBuffer false).symm) nofun

def nullAt (c a : Column ι) : Option UInt8 := if a = c then none else some 1

theorem isNone_sample_nullAt (c a : Column ι) : (sample (nullAt c) a).isNone = decide (a = c) := by
  rw [sample, nullAt]
  split
  · rename_i h
    simp [h]
  · rename_i h
    simp [h]

theorem nullAt_ne_none (hc : c.nullable = true) : ∀ a ∈ D₀.columns, a.nullable = false → nullAt c a ≠ none := by
  rintro a - ha hNone
  rw [nullAt] at hNone
  split at hNone
  · rename_i hEq
    rw [hEq, hc] at ha
    cases ha
  · cases hNone

section

variable (hReads : ReadsUnder D₀ D) (hPack : D.packRecord = D₀.packRecord)
include hReads hPack

theorem kept_null_of_reads {q : Nat} (hq : (nullables D)[q]? = some c) (hc : c ∈ D₀.columns) :
    Stored D₀ q ∧ (nullables D₀)[q]? = some c := by
  classical
  have hNullable := (List.mem_filter.mp (mem_of_getElem? hq)).2
  have hNarrow := narrow_of_reads hReads
  have hLt := (List.getElem?_eq_some_iff.mp hq).1
  have hSet := bit_sampleRead hReads (nullAt_ne_none hNullable) (recordOf D₀ (sample (nullAt c))) hq
  have hClear := bit_sampleRead hReads (f := fun _ => some 1) (fun _ _ _ => nofun) (recordOf D₀ (sample (nullAt c))) hq
  rw [bit_nullRead_of_narrow hPack hNarrow hLt, expected, if_pos hc] at hSet hClear
  rw [isNone_sample_nullAt, decide_eq_true rfl] at hSet
  have hStored : Stored D₀ q := by
    refine Decidable.byContradiction fun hBeyond => ?_
    rw [if_neg hBeyond] at hSet hClear
    rw [hSet] at hClear
    cases hClear
  rw [if_pos hStored, hPack] at hSet hClear
  refine ⟨hStored, ?_⟩
  cases hq₀ : (nullables D₀)[q]? with
  | none =>
    rw [bit_spare (represents_recordOf D₀ _) (List.getElem?_eq_none_iff.mp hq₀) hStored] at hClear
    cases hClear
  | some a =>
    rw [bit_stored (represents_recordOf D₀ _) hq₀, isNone_sample_nullAt, decide_eq_true_eq] at hSet
    rw [hSet]

theorem added_null_of_reads {q : Nat} (hq : (nullables D)[q]? = some c) (hc : c ∉ D₀.columns) (hStored : Stored D₀ q) :
    (nullables D₀).length ≤ q ∧ D.defaultNull c = true := by
  classical
  have hNarrow := narrow_of_reads hReads
  have hLt := (List.getElem?_eq_some_iff.mp hq).1
  have hClear :=
    bit_sampleRead hReads (f := fun _ => some 1) (fun _ _ _ => nofun) (recordOf D (sample fun _ => some 1)) hq
  rw [bit_nullRead_of_narrow hPack hNarrow hLt, expected, if_neg hc, if_pos hStored, hPack] at hClear
  cases hq₀ : (nullables D₀)[q]? with
  | none =>
    have hSpare := List.getElem?_eq_none_iff.mp hq₀
    rw [bit_spare (represents_recordOf D₀ _) hSpare hStored, defaultRow] at hClear
    refine ⟨hSpare, ?_⟩
    split at hClear
    · assumption
    · cases hClear
  | some a =>
    have hNullable := (List.mem_filter.mp (mem_of_getElem? hq₀)).2
    have hSet := bit_sampleRead hReads (nullAt_ne_none hNullable) (recordOf D (sample fun _ => some 1)) hq
    rw [bit_nullRead_of_narrow hPack hNarrow hLt, expected, if_neg hc, if_pos hStored, hPack] at hSet
    rw [← hSet, bit_stored (represents_recordOf D₀ _) hq₀, bit_stored (represents_recordOf D₀ _) hq₀,
      isNone_sample_nullAt, decide_eq_true rfl] at hClear
    cases hClear

end

variable {i : Nat}

omit [DecidableEq ι] in
theorem slots_unpack_ones (fields : List (Column ι × Nat)) (from_ : Bytes) (buf : Record) (hOnes : ∀ b ∈ from_, b = 1)
    (hSlot : buf.slots i = [1]) : (deserializeUnpackFields (fun _ => byteType) D fields from_ buf).slots i = [1] := by
  induction fields generalizing from_ buf with
  | nil => exact hSlot
  | cons field fields ih =>
    cases from_ with
    | nil =>
      rw [deserializeUnpackFields]
      split
      · exact ih [] buf hOnes hSlot
      · exact hSlot
    | cons b from_ =>
      rw [deserializeUnpackFields]
      split
      · exact ih _ buf hOnes hSlot
      · apply ih from_ _ (fun b hb => hOnes b (mem_cons_of_mem _ hb))
        obtain rfl | hNe := eq_or_ne i field.2
        · rw [hOnes b (mem_cons_self ..)]
          exact update_self ..
        · rw [← hSlot]
          exact update_of_ne hNe _ _

omit [DecidableEq ι] in
theorem sampleRead_eq (buf : Record) (v : Column ι → UInt8) : sampleRead D₀ D buf (fun c => some (v c)) =
      deserializeUnpackFields (fun _ => byteType) D (D.columns.zipIdx.take D₀.columns.length)
        (packRow (fun _ => byteType) (sample fun c => some (v c)) D₀.columns)
        ⟨nullRead D₀ D (recordOf D₀ (sample fun c => some (v c))) (recordOf D (defaultRow (fun _ => byteType) D)) buf,
          slotsRead D₀ D (recordOf D (defaultRow (fun _ => byteType) D)) buf⟩ := by
  have hOk : RowOk (fun _ => byteType) D₀ (sample fun c => some (v c)) := rowOk_sample fun _ _ _ => nofun
  rw [sampleRead, deserializeRow_serializeRow, packFields_eq hOk (represents_recordOf D₀ _).toShows D₀.columns 0 rfl]

theorem added_early_of_reads (hReads : ReadsUnder D₀ D) (hi : D.columns[i]? = some c) (hc : c ∉ D₀.columns)
    (hEarly : i < D₀.columns.length) : D.defaultNull c = true := by
  refine Decidable.byContradiction fun hDefault => ?_
  have hExpected : expected (fun _ => byteType) D D₀.columns (sample fun _ => some 1) c = some [0] := by
    rw [expected, if_neg hc, defaultRow, if_neg hDefault]
    rfl
  have hZero := (shows_sampleRead hReads (f := fun _ => some 1) (fun _ _ _ => nofun) ⟨fun _ => 0, fun _ => [1]⟩).slot
    i c _ hi hExpected
  rw [sampleRead_eq, slots_unpack_ones] at hZero
  · cases hZero
  · intro b hb
    obtain ⟨a, -, hb⟩ := mem_flatMap.mp hb
    exact mem_singleton.mp hb
  · exact if_neg (by omega)

theorem kept_early_of_reads (hReads : ReadsUnder D₀ D) (hi : D.columns[i]? = some c) (hc : c ∈ D₀.columns) :
    i < D₀.columns.length := by
  refine Nat.lt_of_not_le fun hLate => ?_
  have hTwo := (shows_sampleRead hReads (f := fun _ => some 2) (fun _ _ _ => nofun) ⟨fun _ => 0, fun _ => []⟩).slot
    i c [2] hi (if_pos hc)
  rw [sampleRead_eq, slots_unpack_of_notMem] at hTwo
  · simp only [slotsRead, if_pos (And.intro hLate (List.getElem?_eq_some_iff.mp hi).1), recordOf, hi,
      Option.bind_some, defaultRow] at hTwo
    split at hTwo <;> cases hTwo
  · intro hMem
    obtain ⟨⟨c', i'⟩, hField, rfl⟩ := List.mem_map.mp hMem
    exact Nat.not_lt.mpr hLate (mem_take_zipIdx.mp hField).1

omit [DecidableEq ι] in
theorem unpack_sample_cons {buf : Record} (h : isRealNull D buf c i = false) (a : Column ι) (v : Column ι → UInt8)
    (fields : List (Column ι × Nat)) (rest : List (Column ι)) :
    deserializeUnpackFields (fun _ => byteType) D ((c, i) :: fields)
        (packRow (fun _ => byteType) (sample fun c => some (v c)) (a :: rest)) buf =
      deserializeUnpackFields (fun _ => byteType) D fields
        (packRow (fun _ => byteType) (sample fun c => some (v c)) rest)
        { buf with slots := update buf.slots i [v a] } :=
  unpack_cons_value h (v := [v a]) rfl fields _

theorem prefix_of_unpack (known : List (Column ι)) (fields : List (Column ι × Nat)) (rest : List (Column ι))
    (buf : (Column ι → UInt8) → Record)
    (hFlags : ∀ v c i, (c, i) ∈ fields → isRealNull D (buf v) c i = decide (c ∉ known))
    (hSlots : ∀ v w i, i ∈ fields.map Prod.snd → (buf v).slots i = (buf w).slots i)
    (hNodup : (fields.map Prod.snd).Nodup)
    (hRead : ∀ v c i, (c, i) ∈ fields → c ∈ known → (deserializeUnpackFields (fun _ => byteType) D fields
      (packRow (fun _ => byteType) (sample fun c => some (v c)) rest) (buf v)).slots i = [v c]) :
    (fields.map Prod.fst).filter (· ∈ known) <+: rest := by
  induction fields generalizing rest buf with
  | nil => exact nil_prefix
  | cons field fields ih =>
    obtain ⟨c₀, i₀⟩ := field
    obtain ⟨hFresh, hNodup'⟩ := nodup_cons.mp hNodup
    have hFlag := fun v => hFlags v c₀ i₀ (mem_cons_self ..)
    rw [map_cons, filter_cons]
    split
    · rename_i hKnown
      have hKnown : c₀ ∈ known := of_decide_eq_true hKnown
      have hHead := fun v => hRead v c₀ i₀ (mem_cons_self ..) hKnown
      have hValue : ∀ v, isRealNull D (buf v) c₀ i₀ = false := fun v => by simp [hFlag v, hKnown]
      cases rest with
      | nil =>
        have hBuf : ∀ v, (buf v).slots i₀ = [v c₀] := by
          intro v
          have hEmpty := hHead v
          rw [deserializeUnpackFields, if_neg (by simp [hValue v])] at hEmpty
          exact hEmpty
        have hSame := hSlots (fun _ => 1) (fun _ => 2) i₀ (mem_cons_self ..)
        rw [hBuf, hBuf] at hSame
        cases hSame
      | cons a rest =>
        have hSlot : ∀ v : Column ι → UInt8, v a = v c₀ := by
          intro v
          have hFirst := hHead v
          rw [unpack_sample_cons (hValue v), slots_unpack_of_notMem _ _ _ _ hFresh] at hFirst
          simpa using hFirst
        obtain rfl : a = c₀ := by
          have hTwo := hSlot fun c => if c = c₀ then 2 else 1
          rw [if_pos rfl] at hTwo
          split at hTwo
          · assumption
          · cases hTwo
        rw [prefix_cons_inj]
        apply ih rest fun v => { buf v with slots := update (buf v).slots i₀ [v a] }
        · exact fun v c i hMem => hFlags v c i (mem_cons_of_mem _ hMem)
        · intro v w i hMem
          have hNe : i ≠ i₀ := fun hEq => hFresh (hEq ▸ hMem)
          simp only [update_of_ne hNe]
          exact hSlots v w i (mem_cons_of_mem _ hMem)
        · exact hNodup'
        · intro v c i hMem hc
          rw [← hRead v c i (mem_cons_of_mem _ hMem) hc, unpack_sample_cons (hValue v)]
    · rename_i hNew
      have hNew : c₀ ∉ known := by simpa using hNew
      apply ih rest buf
      · exact fun v c i hMem => hFlags v c i (mem_cons_of_mem _ hMem)
      · exact fun v w i hMem => hSlots v w i (mem_cons_of_mem _ hMem)
      · exact hNodup'
      · intro v c i hMem hc
        rw [← hRead v c i (mem_cons_of_mem _ hMem) hc, unpack_cons_null]
        rw [hFlag v, decide_eq_true hNew]

theorem isRealNull_of_reads (hReads : ReadsUnder D₀ D) (buf : Record) (v : Column ι → UInt8)
    (hi : D.columns[i]? = some c) (hEarly : i < D₀.columns.length) :
    isRealNull D (sampleRead D₀ D buf fun c => some (v c)) c i = decide (c ∉ D₀.columns) := by
  have hOk : ∀ a ∈ D₀.columns, a.nullable = false → (fun c => some (v c)) a ≠ none := fun _ _ _ => nofun
  rw [isRealNull_eq (expected_ne_none (rowOk_sample hOk)) ((shows_sampleRead hReads hOk buf).null i c hi), expected]
  split
  · rename_i hc
    simp [hc, sample]
  · rename_i hc
    simp [hc, defaultRow, added_early_of_reads hReads hi hc hEarly]

theorem kept_order_of_reads (hReads : ReadsUnder D₀ D) : D.columns.filter (· ∈ D₀.columns) <+: D₀.columns := by
  have hTake : (D.columns.take D₀.columns.length).filter (· ∈ D₀.columns) = D.columns.filter (· ∈ D₀.columns) :=
    filter_take_of_lt fun i c hi hc => kept_early_of_reads hReads hi (of_decide_eq_true hc)
  have hFst : (D.columns.zipIdx.take D₀.columns.length).map Prod.fst = D.columns.take D₀.columns.length := by
    rw [take_zipIdx, zipIdx_map_fst]
  rw [← hTake, ← hFst]
  let buf : Record := ⟨fun _ => 0, fun _ => []⟩
  apply prefix_of_unpack (D := D) D₀.columns (D.columns.zipIdx.take D₀.columns.length) D₀.columns fun v =>
    ⟨nullRead D₀ D (recordOf D₀ (sample fun c => some (v c))) (recordOf D (defaultRow (fun _ => byteType) D)) buf,
      slotsRead D₀ D (recordOf D (defaultRow (fun _ => byteType) D)) buf⟩
  · intro v c i hMem
    obtain ⟨hEarly, hi⟩ := mem_take_zipIdx.mp hMem
    rw [← isRealNull_of_reads hReads buf v hi hEarly, sampleRead_eq]
    simp only [isRealNull, null_unpack]
  · exact fun _ _ _ _ => rfl
  · rw [take_zipIdx, zipIdx_map_snd]
    exact nodup_range'
  · intro v c i hMem hc
    rw [← sampleRead_eq]
    exact (shows_sampleRead hReads (f := fun c => some (v c)) (fun _ _ _ => Option.some_ne_none _) buf).slot i c _
      (mem_take_zipIdx.mp hMem).2 (if_pos hc)

theorem readable_of_reads (hReads : ReadsUnder D₀ D) (hPack : D.packRecord = D₀.packRecord) : Readable D₀ D where
  narrow := narrow_of_reads hReads
  kept_null _ _ hq hc := kept_null_of_reads hReads hPack hq hc
  added_null _ _ hq hc hStored := added_null_of_reads hReads hPack hq hc hStored
  added_early _ _ hi hc hEarly := added_early_of_reads hReads hi hc hEarly
  kept_early _ _ hi hc := kept_early_of_reads hReads hi hc
  kept_order := kept_order_of_reads hReads

end Necessary

theorem readable_append {D₀ D : TableDef ι} {added : List (Column ι)} (hColumns : D.columns = D₀.columns ++ added)
    (hPack : D.packRecord = D₀.packRecord) (hNarrow : nullBytes D < 256) (hNew : ∀ c ∈ added, c ∉ D₀.columns)
    (hDefault : ∀ c ∈ added, c.nullable = true → D.defaultNull c = true) : Readable D₀ D := by
  have hNullables : nullables D = nullables D₀ ++ added.filter Column.nullable := by
    rw [nullables, hColumns, filter_append]
    rfl
  have hCached : nullBytesCached D₀ = nullBytes D₀ := by
    apply Nat.mod_eq_of_lt
    rw [nullBytes, hPack, hNullables, length_append] at hNarrow
    rw [nullBytes]
    omega
  have hRest : ∀ {q c}, (nullables D₀).length ≤ q → (nullables D)[q]? = some c → c ∈ added ∧ c.nullable = true := by
    intro q c hLe hq
    rw [hNullables, getElem?_append_right hLe] at hq
    exact mem_filter.mp (mem_of_getElem? hq)
  constructor
  · exact hNarrow
  · intro q c hq hc
    obtain hLt | hLe := Nat.lt_or_ge q (nullables D₀).length
    · rw [Stored, hCached]
      rw [hNullables, getElem?_append_left hLt] at hq
      exact ⟨byte_lt_nullBytes hLt, hq⟩
    · exact absurd hc (hNew c (hRest hLe hq).1)
  · intro q c hq hc _
    obtain hLt | hLe := Nat.lt_or_ge q (nullables D₀).length
    · rw [hNullables, getElem?_append_left hLt] at hq
      exact absurd (mem_filter.mp (mem_of_getElem? hq)).1 hc
    · exact ⟨hLe, hDefault c (hRest hLe hq).1 (hRest hLe hq).2⟩
  · intro i c hi hc hEarly
    rw [hColumns, getElem?_append_left hEarly] at hi
    exact absurd (mem_of_getElem? hi) hc
  · intro i c hi hc
    refine Nat.lt_of_not_le fun hLate => ?_
    rw [hColumns, getElem?_append_right hLate] at hi
    exact hNew c (mem_of_getElem? hi) hc
  · have hKept : D₀.columns.filter (· ∈ D₀.columns) = D₀.columns := by simp
    have hNone : added.filter (· ∈ D₀.columns) = [] := by simpa using hNew
    have hAll : D.columns.filter (· ∈ D₀.columns) = D₀.columns := by
      rw [hColumns, filter_append, hKept, hNone, append_nil]
    exact ⟨[], by rw [append_nil, hAll]⟩

/-- The rows of the first definition read back under the last one exactly when the two agree on the positions of the
columns they share. -/
theorem instant_alter_reads_iff (D₀ : TableDef ι) (h : History ι)
    (hReach : Reach alterStep (fun _ _ => True) (History.init D₀) h) : ReadsBack D₀ h ↔ Readable D₀ h.table := by
  have hTraced : Traced D₀ h :=
    hReach.invariant (Traced D₀) (traced_init D₀) fun _ _ _ hTraced _ hStep => hTraced.step hStep
  rw [readsBack_iff hTraced]
  constructor
  · exact fun hReads => readable_of_reads hReads hTraced.packRecord_eq
  · exact fun hOk => readsUnder_of_readable hOk hTraced.packRecord_eq

def customers : TableDef String where
  columns := [⟨"id", false⟩, ⟨"name", true⟩]
  packRecord := false
  defaultNull c := c.nullable
  default_fits _ h := h
  nodup := by decide
  size := by decide

def customersPoints : TableDef String where
  columns := [⟨"id", false⟩, ⟨"name", true⟩, ⟨"points", false⟩]
  packRecord := false
  defaultNull c := c.nullable
  default_fits _ h := h
  nodup := by decide
  size := by decide

theorem column_appended_reads :
    ReadsBack customers ⟨customersPoints, ["id", "name", "id", "name", "points"], customers.columns⟩ :=
  (instant_alter_reads_iff customers _ (Reach.init.step ⟨customersPoints, [.addColumn]⟩ trivial rfl)).mpr
    (readable_append rfl rfl (by decide) (by decide) (by decide))

def customersPointsFirst : TableDef String where
  columns := [⟨"points", false⟩, ⟨"id", false⟩, ⟨"name", true⟩]
  packRecord := false
  defaultNull c := c.nullable
  default_fits _ h := h
  nodup := by decide
  size := by decide

/-- After `ADD COLUMN points FIRST` the row `(7, NULL)` shows the number of the customer in the new column. -/
theorem column_added_first_misread :
    ∃ h, alterStep (History.init customers) ⟨customersPointsFirst, [.addColumn, .alterStoredColumnOrder]⟩ = some h ∧
      (∀ buf,
        (deserializeRow (fun _ => byteType) h.table (recordOf h.table (defaultRow (fun _ => byteType) h.table)) buf
        (serializeRow (fun _ => byteType) customers
          (recordOf customers fun c => if c.nullable then none else some [7]))).slots 0 = [7]) ∧
      ¬ ReadsBack customers h := by
  have hSeven : ∀ buf, (deserializeRow (fun _ => byteType) customersPointsFirst
      (recordOf customersPointsFirst (defaultRow (fun _ => byteType) customersPointsFirst)) buf
      (serializeRow (fun _ => byteType) customers
        (recordOf customers fun c => if c.nullable then none else some [7]))).slots 0 = [7] := by
    intro buf
    rw [deserializeRow_serializeRow]
    rfl
  refine ⟨_, rfl, hSeven, fun hReads => ?_⟩
  have hRow : RowOk (fun _ => byteType) customers fun c => if c.nullable then none else some [7] := by
    constructor
    · intro c _ hc
      simp [hc]
    · intro c _ v hv
      split at hv
      · cases hv
      · cases hv
        rfl
  have hZero := (hReads _ _ ⟨fun _ => 0, fun _ => []⟩ _ _ hRow (represents_recordOf _ _)
    (represents_recordOf _ _).toShows).slot 0 ⟨"points", false⟩ [0] rfl rfl
  rw [hSeven] at hZero
  cases hZero

end TideSql.InstantAlter
