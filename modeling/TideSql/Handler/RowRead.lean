import TideSql.Handler.IndexRead
import TideSql.Handler.InstantAlter

/-!
# Reading a stored row

An encrypted row is stored as the version of its key, an initialisation vector and the ciphertext of the row
format.
-/

namespace TideSql.RowRead
open InplaceCheck RowFormat InstantAlter Lib Lib.Bytes Lib.Select List Option
open IndexRead (HaError keyNsData)

def tidesdbEncVersionLen : Nat := 4
def tidesdbEncIvLen : Nat := 16

structure Crypto where
  getKey : (keyId keyVersion : Nat) → Option Bytes
  randomBytes : Option Bytes
  encrypt : (key iv src : Bytes) → Option Bytes
  decrypt : (key iv src : Bytes) → Option Bytes

/-- `tidesdb_encrypt_row_into`: the empty string signals failure. -/
def tidesdbEncryptRowInto (crypto : Crypto) (plain : Bytes) (keyId keyVersion : Nat) : Bytes :=
  match crypto.getKey keyId keyVersion, crypto.randomBytes with
  | some key, some iv =>
    match crypto.encrypt key iv plain with
    | some cipher => toLE tidesdbEncVersionLen keyVersion ++ iv ++ cipher
    | none => []
  | _, _ => []

def tidesdbDecryptRow (crypto : Crypto) (data : Bytes) (keyId : Nat) : Bytes :=
  if data.length ≤ tidesdbEncVersionLen + tidesdbEncIvLen then []
  else
    let keyVersion := ofLE (data.take tidesdbEncVersionLen)
    match crypto.getKey keyId keyVersion with
    | none => []
    | some key =>
      let iv := (data.drop tidesdbEncVersionLen).take tidesdbEncIvLen
      let src := data.drop (tidesdbEncVersionLen + tidesdbEncIvLen)
      (crypto.decrypt key iv src).getD []

structure Share where
  hasBlobs : Bool
  encrypted : Bool
  encryptionKeyId : Nat

section Read

variable {ι : Type} (types : ι → FieldType) (D : TableDef ι) (defaultValues : Record) (crypto : Crypto) (share : Share)

/-- `deserialize_row` of a string, which decrypts first. -/
def deserializeRowString (buf : Record) (row : Bytes) : Record :=
  if share.encrypted then
    let decrypted := tidesdbDecryptRow crypto row share.encryptionKeyId
    if decrypted.isEmpty then zeroed buf else deserializeRow types D defaultValues buf decrypted
  else deserializeRow types D defaultValues buf row

def decode (buf : Record) (value : Bytes) : Record :=
  if !share.hasBlobs && !share.encrypted then deserializeRow types D defaultValues buf value
  else deserializeRowString types D defaultValues crypto share buf value

inductive GetAnswer where
  | notFound
  | failed (err : HaError)
  | found (value : Bytes)

def fetchRowByPk (buf : Record) : GetAnswer → Except HaError Record
  | .notFound => .error .keyNotFound
  | .failed err => .error err
  | .found value => .ok (decode types D defaultValues crypto share buf value)

def isDataKey (key : Bytes) : Bool := key.head? = some keyNsData

/-- The iterator's entries from its position on; an entry the library cannot give is `none`. -/
def iterReadCurrent (buf : Record) : List (Option (Bytes × Bytes)) → Except HaError Record
  | [] => .error .endOfFile
  | none :: _ => .error .endOfFile
  | some (key, value) :: rest =>
    if isDataKey key then .ok (decode types D defaultValues crypto share buf value) else iterReadCurrent buf rest

/-- The readers of a stored value. The index build and the recovery of the counter do not look at how the decoding
went. -/
inductive Reader where
  | pointLookup
  | scan (skipped : List (Bytes × Bytes)) (hSkipped : ∀ e ∈ skipped, isDataKey e.1 = false) (key : Bytes)
      (hKey : isDataKey key = true) (rest : List (Option (Bytes × Bytes)))
  | indexBuild
  | counterRecovery

def Reader.read (buf : Record) (stored : Bytes) : Reader → Except HaError Record
  | .pointLookup => fetchRowByPk types D defaultValues crypto share buf (.found stored)
  | .scan skipped _ key _ rest =>
    iterReadCurrent types D defaultValues crypto share buf (skipped.map some ++ some (key, stored) :: rest)
  | .indexBuild | .counterRecovery => .ok (decode types D defaultValues crypto share buf stored)

end Read

section Strict

variable {ι : Type} (types : ι → FieldType) (D : TableDef ι) (defaultValues : Record) (crypto : Crypto) (share : Share)

def opened (stored : Bytes) : Option Bytes :=
  if share.encrypted then
    if stored.length ≤ tidesdbEncVersionLen + tidesdbEncIvLen then none
    else
      (crypto.getKey share.encryptionKeyId (ofLE (stored.take tidesdbEncVersionLen))).bind fun key =>
        crypto.decrypt key ((stored.drop tidesdbEncVersionLen).take tidesdbEncIvLen)
          (stored.drop (tidesdbEncVersionLen + tidesdbEncIvLen))
  else some stored

def parseFields : List (Column ι × Nat) → Bytes → Record → Option Record
  | [], _, buf => some buf
  | (c, i) :: fields, from_, buf =>
    if isRealNull D buf c i then parseFields fields from_ buf
    else if from_.isEmpty then none
    else (types c.id).codec.decode from_ |>.bind fun r =>
      parseFields fields r.2 { buf with slots := Function.update buf.slots i r.1 }

def parseRow (buf : Record) (data : Bytes) : Option Record :=
  (parseHeader D defaultValues buf data).bind fun r => parseFields types D r.1 r.2.1 r.2.2

def strictRead (buf : Record) (stored : Bytes) : Option Record :=
  (opened crypto share stored).bind (parseRow types D defaultValues buf)

end Strict

section Decode

variable {ι : Type} {types : ι → FieldType} {D : TableDef ι} {defaultValues : Record} {crypto : Crypto} {share : Share}

theorem unpack_of_parse {fields : List (Column ι × Nat)} {from_ : Bytes} {buf rec : Record}
    (h : parseFields types D fields from_ buf = some rec) : deserializeUnpackFields types D fields from_ buf = rec := by
  induction fields generalizing from_ buf with
  | nil =>
    cases h
    rfl
  | cons field fields ih =>
    rw [parseFields] at h
    rw [deserializeUnpackFields]
    split at h
    · rename_i hNull
      rw [if_pos hNull]
      exact ih h
    · rename_i hNull
      rw [if_neg hNull]
      split at h
      · cases h
      · rename_i hMore
        obtain ⟨⟨v, next⟩, hDecode, hRest⟩ := bind_eq_some_iff.mp h
        rw [if_neg hMore, hDecode]
        exact ih hRest

theorem deserializeRow_of_parseRow {buf rec : Record} {data : Bytes}
    (h : parseRow types D defaultValues buf data = some rec) : deserializeRow types D defaultValues buf data = rec := by
  obtain ⟨r, hHeader, hFields⟩ := bind_eq_some_iff.mp h
  rw [deserializeRow_eq, hHeader, map_some, getD_some]
  exact unpack_of_parse hFields

theorem decode_of_opened {buf : Record} {stored plain : Bytes} (h : opened crypto share stored = some plain) :
    decode types D defaultValues crypto share buf stored = deserializeRow types D defaultValues buf plain := by
  obtain ⟨hasBlobs, encrypted, keyId⟩ := share
  cases encrypted with
  | false =>
    cases h
    cases hasBlobs <;> rfl
  | true =>
    have hDecrypted : tidesdbDecryptRow crypto stored keyId = plain := by
      simp only [opened, if_true] at h
      split at h
      · cases h
      · rename_i hLong
        obtain ⟨key, hKey, hPlain⟩ := bind_eq_some_iff.mp h
        rw [tidesdbDecryptRow, if_neg hLong]
        simp only [hKey, hPlain, getD_some]
    simp only [decode, Bool.not_true, Bool.and_false, Bool.false_eq_true, if_false, deserializeRowString, if_true,
      hDecrypted]
    cases plain with
    | nil | cons b bytes => rfl

theorem opened_encrypted (crypto₀ : Crypto) {key iv plain cipher : Bytes} {keyVersion : Nat}
    (hKey₀ : crypto₀.getKey share.encryptionKeyId keyVersion = some key) (hIv : crypto₀.randomBytes = some iv)
    (hCipher : crypto₀.encrypt key iv plain = some cipher) (hIvLen : iv.length = tidesdbEncIvLen)
    (hVersion : keyVersion < 256 ^ tidesdbEncVersionLen) (hNe : cipher ≠ []) (hEncrypted : share.encrypted = true)
    (hKey : crypto.getKey share.encryptionKeyId keyVersion = some key)
      (hPlain : crypto.decrypt key iv cipher = some plain) :
    opened crypto share (tidesdbEncryptRowInto crypto₀ plain share.encryptionKeyId keyVersion) = some plain := by
  have hLen := length_toLE tidesdbEncVersionLen keyVersion
  have hEnvelope : (toLE tidesdbEncVersionLen keyVersion ++ iv).length = tidesdbEncVersionLen + tidesdbEncIvLen := by
    rw [length_append, hLen, hIvLen]
  have hPos : 0 < cipher.length := length_pos_iff.mpr hNe
  simp only [tidesdbEncryptRowInto, hKey₀, hIv, hCipher, opened, hEncrypted, if_true]
  rw [if_neg (by rw [length_append, hEnvelope]; omega), drop_left' hEnvelope, append_assoc,
    take_left' hLen, drop_left' hLen, take_left' hIvLen, ofLE_toLE, Nat.mod_eq_of_lt hVersion, hKey,
    bind_some, hPlain]

theorem read_eq (reader : Reader) (buf : Record) (stored : Bytes) :
    reader.read types D defaultValues crypto share buf stored =
      .ok (decode types D defaultValues crypto share buf stored) := by
  cases reader with
  | pointLookup | indexBuild | counterRecovery => rfl
  | scan skipped hSkipped key hKey rest =>
    rw [Reader.read]
    induction skipped with
    | nil => rw [map_nil, nil_append, iterReadCurrent, if_pos hKey]
    | cons e skipped ih =>
      obtain ⟨hSkip, hSkipped'⟩ := forall_mem_cons.mp hSkipped
      rw [map_cons, cons_append, iterReadCurrent, if_neg (by rw [hSkip]; exact Bool.false_ne_true)]
      exact ih hSkipped'

end Decode

section Damage

variable {ι : Type} [DecidableEq ι] {types : ι → FieldType} {D : TableDef ι}

instance instLawfulBEqColumn : LawfulBEq (Column ι) := inferInstance

def fill (row : Column ι → Option Bytes) : List (Column ι × Nat) → Record → Record
  | [], buf => buf
  | (c, i) :: fields, buf =>
    fill row fields ((row c).elim buf fun v => { buf with slots := Function.update buf.slots i v })

variable {row : Column ι → Option Bytes} {known : List (Column ι)}

structure Marked (D : TableDef ι) (row : Column ι → Option Bytes) (known : List (Column ι)) (null : Nat → UInt8)
    (fields : List (Column ι × Nat)) : Prop where
  flags : ∀ c i, (c, i) ∈ fields → (c.nullable && bit null (nullBit D i)) = (row c).isNone
  unknown : ∀ c i, (c, i) ∈ fields → c ∉ known → row c = none

omit [DecidableEq ι] in
theorem Marked.tail {null : Nat → UInt8} {field : Column ι × Nat} {fields : List (Column ι × Nat)}
    (h : Marked D row known null (field :: fields)) : Marked D row known null fields :=
  ⟨fun c i hMem => h.flags c i (mem_cons_of_mem _ hMem), fun c i hMem => h.unknown c i (mem_cons_of_mem _ hMem)⟩

def knownFields (known : List (Column ι)) (fields : List (Column ι × Nat)) : List (Column ι) :=
  (fields.map Prod.fst).filter (· ∈ known)

theorem packRow_knownFields_cons (types : ι → FieldType) (row : Column ι → Option Bytes) (known : List (Column ι))
    (c : Column ι) (i : Nat) (fields : List (Column ι × Nat)) (hNew : c ∉ known → row c = none) :
    packRow types row (knownFields known ((c, i) :: fields)) =
      (row c).elim [] (types c.id).codec.encode ++ packRow types row (knownFields known fields) := by
  simp only [knownFields, map_cons, filter_cons, decide_eq_true_eq]
  split
  · exact packRow_cons ..
  · rename_i hUnknown
    rw [hNew hUnknown]
    rfl

theorem parse_of_complete {fields : List (Column ι × Nat)} {buf : Record} (hMarked : Marked D row known buf.null fields)
    (hValid : ∀ c ∈ known, ∀ v, row c = some v → (types c.id).codec.Valid v) (tail : Bytes) :
    parseFields types D fields (packRow types row (knownFields known fields) ++ tail) buf =
      some (fill row fields buf) := by
  induction fields generalizing buf with
  | nil => rfl
  | cons field fields ih =>
    obtain ⟨c, i⟩ := field
    have hFlag : isRealNull D buf c i = (row c).isNone := hMarked.flags c i mem_cons_self
    have hNew := hMarked.unknown c i mem_cons_self
    rw [packRow_knownFields_cons types row known c i fields hNew, parseFields, hFlag, fill]
    cases hRow : row c with
    | none => exact ih hMarked.tail
    | some v =>
      have hv : (types c.id).codec.Valid v := by
        refine hValid c (Classical.byContradiction fun hUnknown => ?_) v hRow
        rw [hNew hUnknown] at hRow
        cases hRow
      have hMore :
        ((types c.id).codec.encode v ++ (packRow types row (knownFields known fields) ++ tail)).isEmpty = false := by
        simp [(types c.id).codec.encode_ne_nil v hv]
      rw [isNone_some, if_neg Bool.false_ne_true, elim_some, append_assoc, hMore,
        if_neg Bool.false_ne_true, (types c.id).codec.decode_encode v _ hv, bind_some]
      refine ih ?_
      exact hMarked.tail

theorem parse_of_cut {fields : List (Column ι × Nat)} {buf : Record} (hMarked : Marked D row known buf.null fields)
    (hValid : ∀ c ∈ known, ∀ v, row c = some v → (types c.id).codec.Valid v)
    (hStrict : ∀ c ∈ known, (types c.id).codec.Strict) {bytes : Bytes}
    (hPrefix : bytes <+: packRow types row (knownFields known fields))
    (hNe : bytes ≠ packRow types row (knownFields known fields)) : parseFields types D fields bytes buf = none := by
  induction fields generalizing buf bytes with
  | nil => exact absurd (prefix_nil.mp hPrefix) hNe
  | cons field fields ih =>
    obtain ⟨c, i⟩ := field
    have hFlag : isRealNull D buf c i = (row c).isNone := hMarked.flags c i mem_cons_self
    have hNew := hMarked.unknown c i mem_cons_self
    rw [packRow_knownFields_cons types row known c i fields hNew] at hPrefix hNe
    rw [parseFields, hFlag]
    cases hRow : row c with
    | none =>
      rw [hRow] at hPrefix hNe
      exact ih hMarked.tail hPrefix hNe
    | some v =>
      have hKnown : c ∈ known := by
        refine Classical.byContradiction fun hUnknown => ?_
        rw [hNew hUnknown] at hRow
        cases hRow
      have hv := hValid c hKnown v hRow
      rw [hRow, elim_some] at hPrefix hNe
      rw [isNone_some, if_neg Bool.false_ne_true]
      split
      · rfl
      · -- The cut is behind this value or inside it.
        by_cases hWhole : (types c.id).codec.encode v <+: bytes
        · obtain ⟨rest, rfl⟩ := hWhole
          rw [(types c.id).codec.decode_encode v _ hv, bind_some]
          refine ih ?_ ((prefix_append_right_inj _).mp hPrefix) fun hEq => hNe (congrArg _ hEq)
          exact hMarked.tail
        · have hInside := ( prefix_or_prefix_of_prefix hPrefix (prefix_append ..)).resolve_right hWhole
          have hCut : bytes ≠ (types c.id).codec.encode v := fun hEq => hWhole (hEq ▸ prefix_rfl)
          rw [hStrict c hKnown v bytes hv hInside hCut, bind_none]

variable {D₀ : TableDef ι} {rec defaultValues buf : Record}

/-- How many bytes of the stored row the reader needs: the header, the bitmap, and the values of the
columns that are still there. -/
def needed (types : ι → FieldType) (D₀ D : TableDef ι) (row : Column ι → Option Bytes) : Nat :=
  rowHeaderSize + nullBytesCached D₀ + (packRow types row (D.columns.filter (· ∈ D₀.columns))).length

theorem marked_of_readable (buf : Record) (hOk : Readable D₀ D) (hPack : D.packRecord = D₀.packRecord)
    (hRow : RowOk types D₀ row)
    (hRec : Represents D₀ rec row) (hDefaults : Shows D defaultValues (defaultRow types D)) :
    Marked D (expected types D D₀.columns row) D₀.columns (nullRead D₀ D rec defaultValues buf)
      (D.columns.zipIdx.take D₀.columns.length) := by
  refine ⟨fun c i hMem => ?_, fun c i hMem hNew => ?_⟩
  · obtain ⟨-, hi⟩ := mem_take_zipIdx.mp hMem
    have hBit : isRealNull D ⟨nullRead D₀ D rec defaultValues buf, buf.slots⟩ c i =
        (expected types D D₀.columns row c).isNone :=
      isRealNull_eq (expected_ne_none hRow) (bit_read_eq hOk hPack hRec hDefaults hi)
    exact hBit
  · obtain ⟨hLt, hi⟩ := mem_take_zipIdx.mp hMem
    rw [expected, if_neg hNew, defaultRow, if_pos (hOk.added_early i c hi hNew hLt)]

theorem valid_expected (hRow : RowOk types D₀ row) :
    ∀ c ∈ D₀.columns, ∀ v, expected types D D₀.columns row c = some v → (types c.id).codec.Valid v := by
  intro c hc v hv
  rw [expected, if_pos hc] at hv
  exact hRow.valid c hc v hv

theorem packRow_expected (types : ι → FieldType) (D : TableDef ι) (row : Column ι → Option Bytes) (cs : List (Column ι))
    (h : ∀ c ∈ cs, c ∈ D₀.columns) :
    packRow types (expected types D D₀.columns row) cs = packRow types row cs :=
  packRow_congr types fun c hc => if_pos (h c hc)

theorem knownFields_eq (hOk : Readable D₀ D) :
    knownFields D₀.columns (D.columns.zipIdx.take D₀.columns.length) = D.columns.filter (· ∈ D₀.columns) := by
  have hLate : ∀ c ∈ D.columns.drop D₀.columns.length, ¬ decide (c ∈ D₀.columns) = true := by
    intro c hc hMem
    obtain ⟨i, hi⟩ := mem_iff_getElem?.mp hc
    rw [getElem?_drop] at hi
    have hEarly := hOk.kept_early _ c hi (of_decide_eq_true hMem)
    omega
  rw [knownFields, take_zipIdx, zipIdx_map_fst]
  conv_rhs => rw [← take_append_drop D₀.columns.length D.columns, filter_append]
  rw [filter_eq_nil_iff.mpr hLate, append_nil]

theorem packFields_eq_append (hOk : Readable D₀ D) (hRow : RowOk types D₀ row) (hRec : Represents D₀ rec row) :
    ∃ tail, packFields types D₀ rec D₀.columns.zipIdx =
      packRow types row (D.columns.filter (· ∈ D₀.columns)) ++ tail := by
  obtain ⟨later, hLater⟩ := hOk.kept_order
  refine ⟨packRow types row later, ?_⟩
  rw [packFields_eq hRow hRec.toShows D₀.columns 0 rfl]
  conv_lhs => rw [← hLater]
  rw [packRow, flatMap_append]
  rfl

/-- What is left of a row that has been cut off or carries another tag, the whole row included. -/
def Damaged (written data : Bytes) : Prop := data <+: written ∨ data.head? ≠ some rowHeaderMagic

variable (hOk : Readable D₀ D) (hPack : D.packRecord = D₀.packRecord) (hRow : RowOk types D₀ row)
  (hRec : Represents D₀ rec row) (hDefaults : Shows D defaultValues (defaultRow types D))
include hOk hPack hRow hRec hDefaults

theorem parseFields_complete (buf : Record) (tail : Bytes) :
    parseFields types D (D.columns.zipIdx.take D₀.columns.length)
        (packRow types row (D.columns.filter (· ∈ D₀.columns)) ++ tail)
        ⟨nullRead D₀ D rec defaultValues buf, slotsRead D₀ D defaultValues buf⟩ =
      some (fill (expected types D D₀.columns row) (D.columns.zipIdx.take D₀.columns.length)
        ⟨nullRead D₀ D rec defaultValues buf, slotsRead D₀ D defaultValues buf⟩) := by
  have hMarked := marked_of_readable buf hOk hPack hRow hRec hDefaults
  have hFields := packRow_expected types D row (D.columns.filter (· ∈ D₀.columns)) fun c hc =>
    of_decide_eq_true (mem_filter.mp hc).2
  rw [← hFields, ← knownFields_eq hOk]
  exact parse_of_complete hMarked (valid_expected hRow) tail

theorem parseRow_of_needed (buf : Record) {data : Bytes} (hPrefix : data <+: serializeRow types D₀ rec)
    (hLong : needed types D₀ D row ≤ data.length) :
    parseRow types D defaultValues buf data =
      some (deserializeRow types D defaultValues buf (serializeRow types D₀ rec)) := by
  obtain ⟨tail, hTail⟩ := packFields_eq_append hOk hRow hRec
  have hComplete := parseFields_complete hOk hPack hRow hRec hDefaults buf
  rw [serializeRow_eq, hTail, ← append_assoc] at hPrefix
  have hHead : rowHead D₀ rec ++ packRow types row (D.columns.filter (· ∈ D₀.columns)) <+: data := by
    refine prefix_of_prefix_length_le (prefix_append ..) hPrefix ?_
    rw [length_append, length_rowHead]
    exact hLong
  obtain ⟨left, rfl⟩ := hHead
  rw [deserializeRow_serializeRow, hTail, unpack_of_parse (hComplete tail), append_assoc, parseRow,
    parseHeader_rowHead, bind_some]
  exact hComplete left

theorem parseRow_of_short (hStrict : ∀ c ∈ D₀.columns, (types c.id).codec.Strict) {data : Bytes}
    (hPrefix : data <+: serializeRow types D₀ rec) (hShort : data.length < needed types D₀ D row) :
    parseRow types D defaultValues buf data = none := by
  obtain ⟨tail, hTail⟩ := packFields_eq_append hOk hRow hRec
  rw [serializeRow_eq, hTail] at hPrefix
  by_cases hHead : rowHead D₀ rec <+: data
  · obtain ⟨bytes, rfl⟩ := hHead
    have hFields := packRow_expected types D row (D.columns.filter (· ∈ D₀.columns)) fun c hc =>
      of_decide_eq_true (mem_filter.mp hc).2
    rw [length_append, length_rowHead, needed] at hShort
    have hBytes := (prefix_append_right_inj _).mp hPrefix
    have hInside : bytes <+: packRow types row (D.columns.filter (· ∈ D₀.columns)) :=
      prefix_of_prefix_length_le hBytes (prefix_append ..) (by omega)
    have hCut : bytes ≠ packRow types row (D.columns.filter (· ∈ D₀.columns)) := by
      rintro rfl
      omega
    rw [parseRow, parseHeader_rowHead, bind_some]
    refine parse_of_cut (marked_of_readable _ hOk hPack hRow hRec hDefaults) (valid_expected hRow) hStrict ?_ ?_
    · rw [knownFields_eq hOk, hFields]
      exact hInside
    · rw [knownFields_eq hOk, hFields]
      exact hCut
  · have hInside := ( prefix_or_prefix_of_prefix hPrefix (prefix_append ..)).resolve_right hHead
    have hCut : data ≠ rowHead D₀ rec := fun hEq => hHead (hEq ▸ prefix_rfl)
    rw [parseRow, parseHeader_of_cut hInside hCut, bind_none]

end Damage

section FailClosed

variable {ι : Type} [DecidableEq ι]

/-- A read that reports success has parsed the row to the end and shows the values it was written with. -/
def FailsClosed (types : ι → FieldType) (D : TableDef ι) (defaultValues : Record) (crypto : Crypto) (share : Share)
    (buf : Record) (stored : Bytes) (shown : Column ι → Option Bytes) (reader : Reader) : Prop :=
  ∀ rec, reader.read types D defaultValues crypto share buf stored = .ok rec →
    strictRead types D defaultValues crypto share buf stored = some rec ∧ Shows D rec shown

end FailClosed

def vault : Crypto where
  getKey _ _ := some [1]
  randomBytes := some (replicate tidesdbEncIvLen 0)
  encrypt _ _ src := some src
  decrypt _ _ src := some src

def seven (c : Column String) : Option Bytes := if c.nullable then none else some [7]

theorem rowOk_seven : RowOk (fun _ => byteType) customers seven where
  notNull c _ hc := by simp [seven, hc]
  valid c _ v hv := by
    rw [seven] at hv
    split at hv
    · cases hv
    · cases hv
      rfl

def sevenWritten : Bytes := serializeRow (fun _ => byteType) customers (recordOf customers seven)

def sevenStored : Bytes := tidesdbEncryptRowInto vault sevenWritten 1 1

def vaultShare : Share := ⟨false, true, 1⟩

theorem opened_sevenStored : opened vault vaultShare sevenStored = some sevenWritten :=
  opened_encrypted vault rfl rfl rfl rfl (by decide) (cons_ne_nil _ _) rfl rfl rfl

end TideSql.RowRead
