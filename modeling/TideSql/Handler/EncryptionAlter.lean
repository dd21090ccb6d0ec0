import TideSql.Handler.KeyRuns

/-!
# Turning encryption on and off

Whether the rows of a table are encrypted, and under which key id, is an option of the table. A row does not
say which it was written with.
-/

namespace TideSql.EncryptionAlter
open InplaceCheck RowFormat InstantAlter RowRead Lib Lib.Bytes Lib.Run Function
open KeyCustody (Book Reply Refines)

def tidesdbDefaultEncryptionKeyId : Nat := 1

structure Options where
  encrypted : Bool
  encryptionKeyId : Nat
  keyId_lt : encryptionKeyId < 2 ^ 32

structure Table (ι : Type) where
  types : ι → FieldType
  definition : TableDef ι
  defaultValues : Record
  hasBlobs : Bool
  encrypt : (key iv src : Bytes) → Option Bytes
  decrypt : (key iv src : Bytes) → Option Bytes

structure State (ι κ : Type) where
  options : Options
  share : RowRead.Share
  book : Book
  rows : Store κ Bytes
  written : κ → Option (Column ι → Option Bytes)

inductive Action (ι κ : Type) where
  | write (key : κ) (row : Column ι → Option Bytes) (version : Nat) (iv : Reply)
  | delete (key : κ)
  | addKey (keyId : Nat) (tableKey : Bytes)
  | reopen
  | alter (req : Request) (opts : Options) (version : Nat) (ivs : κ → Reply) (bufs : κ → Record)

section Model

variable {ι κ : Type} (T : Table ι)

def bookKey (book : Book) (keyId version : Nat) : Option Bytes :=
  if version = 0 then none else (book keyId)[version - 1]?

def Table.service (book : Book) (iv : Reply) : Crypto where
  getKey := bookKey book
  randomBytes := if iv.ok then some (iv.bytes tidesdbEncIvLen) else none
  encrypt := T.encrypt
  decrypt := T.decrypt

/-- `serialize_row`, which encrypts what it has packed when the share says so. -/
def storedRow (share : RowRead.Share) (book : Book) (version : Nat) (iv : Reply) (rec : Record) : Bytes :=
  let plain := serializeRow T.types T.definition rec
  if share.encrypted then tidesdbEncryptRowInto (T.service book iv) plain share.encryptionKeyId version else plain

def openShare (opts : Options) : RowRead.Share where
  hasBlobs := T.hasBlobs
  encrypted := opts.encrypted
  encryptionKeyId := if opts.encrypted then opts.encryptionKeyId else tidesdbDefaultEncryptionKeyId

def commitApplyRuntimeConfig (s : State ι κ) (opts : Options) : State ι κ where
  options := opts
  share :=
    { s.share with
      encrypted := opts.encrypted
      encryptionKeyId := if opts.encrypted then opts.encryptionKeyId else s.share.encryptionKeyId }
  book := s.book
  rows := s.rows
  written := s.written

/-- The options of the table are other ones only if the server has set the flag. -/
def commitInplaceAlterTable (s : State ι κ) (req : Request) (opts : Options) : State ι κ :=
  if .changeCreateOption ∈ req.flags then commitApplyRuntimeConfig s opts else s

variable [DecidableEq ι]

def valuesOf (D : TableDef ι) (rec : Record) (c : Column ι) : Option Bytes :=
  if isRealNull D rec c (D.columns.idxOf c) then none else some (rec.slots (D.columns.idxOf c))

def copiedRow (s : State ι κ) (opts : Options) (version : Nat) (iv : Reply) (buf : Record) (stored : Bytes) : Bytes :=
  let rec_ := decode T.types T.definition T.defaultValues (T.service s.book iv) s.share buf stored
  storedRow T (openShare T opts) s.book version iv (recordOf T.definition (valuesOf T.definition rec_))

variable [DecidableEq κ]

def copyAlter (s : State ι κ) (opts : Options) (version : Nat) (ivs : κ → Reply) (bufs : κ → Record) :
    Option (State ι κ) :=
  let rows := s.rows.mapValues fun key stored => copiedRow T s opts version (ivs key) (bufs key) stored
  if opts.encrypted ∧ ∃ e ∈ rows.entries, e.2 = [] then none
  else some { s with options := opts, share := openShare T opts, rows := rows }

def step (s : State ι κ) : Action ι κ → Option (State ι κ)
  | .write key row version iv =>
    let stored := storedRow T s.share s.book version iv (recordOf T.definition row)
    if s.share.encrypted ∧ stored = [] then none
    else some { s with rows := s.rows.put key stored, written := update s.written key (some row) }
  | .delete key => some { s with rows := s.rows.drop key, written := update s.written key none }
  | .addKey keyId tableKey =>
    if (s.book keyId).length < KeyCustody.tidesdbMaxEncryptionKeyVersions then
      some { s with book := s.book.add keyId tableKey }
    else none
  | .reopen => some { s with share := openShare T s.options }
  | .alter req opts version ivs bufs =>
    match checkIfSupportedInplaceAlter req with
    | .instant | .noLock => some (commitInplaceAlterTable s req opts)
    | .notSupported _ => copyAlter T s opts version ivs bufs

def init (opts : Options) : State ι κ where
  options := opts
  share := openShare T opts
  book _ := []
  rows := .empty
  written _ := none

structure Serves (book : Book) (crypto : Crypto) : Prop where
  getKey {keyId version : Nat} {key : Bytes} : keyId < 2 ^ 32 → bookKey book keyId version = some key →
    crypto.getKey keyId version = some key
  decrypt : crypto.decrypt = T.decrypt

def ReadsBack (s : State ι κ) : Prop :=
  ∀ key row, s.written key = some row → ∃ stored, s.rows.get key = some stored ∧
    ∀ crypto, Serves T s.book crypto → ∀ buf,
      Shows T.definition (decode T.types T.definition T.defaultValues crypto s.share buf stored) row

def RowsOk (_ : State ι κ) : Action ι κ → Prop
  | .write _ row _ _ => RowOk T.types T.definition row
  | _ => True

def Condition (s : State ι κ) : Action ι κ → Prop
  | .write _ row _ _ => RowOk T.types T.definition row
  | .alter req opts _ _ _ => (∃ reason, checkIfSupportedInplaceAlter req = .notSupported reason) ∨
    (opts.encrypted = s.share.encrypted ∧ (opts.encrypted = true → opts.encryptionKeyId = s.share.encryptionKeyId)) ∨
    s.rows.entries = []
  | _ => True

structure Table.Sound : Prop where
  narrow : nullBytes T.definition < 256
  defaults : Shows T.definition T.defaultValues (defaultRow T.types T.definition)
  inverse (key iv plain cipher : Bytes) : T.encrypt key iv plain = some cipher →
    T.decrypt key iv cipher = some plain ∧ cipher ≠ []

end Model

section Rows

variable {ι : Type} {T : Table ι} {book book' : Book} {share share' : RowRead.Share}
  {row : Column ι → Option Bytes} {stored : Bytes}

variable {rec : Record}

theorem valuesOf_eq [DecidableEq ι] {D : TableDef ι} {types : ι → FieldType} (hShows : Shows D rec row)
    (hRow : RowOk types D row) {c : Column ι} (hc : c ∈ D.columns) : valuesOf D rec c = row c := by
  have hAt : D.columns[D.columns.idxOf c]? = some c := List.getElem?_idxOf hc
  rw [valuesOf, isRealNull_eq (hRow.notNull c hc) (hShows.null _ c hAt)]
  cases hValue : row c with
  | none => rfl
  | some v => exact congrArg some (hShows.slot _ c v hAt hValue)

theorem represents_copied [DecidableEq ι] {D : TableDef ι} {types : ι → FieldType} (hShows : Shows D rec row)
    (hRow : RowOk types D row) : Represents D (recordOf D (valuesOf D rec)) row where
  toShows := (represents_recordOf D _).toShows.congr fun _ hc => valuesOf_eq hShows hRow hc
  unused := (represents_recordOf D (valuesOf D rec)).unused

theorem shows_deserialized [DecidableEq ι] (hSound : T.Sound) (hRow : RowOk T.types T.definition row)
    (hRec : Represents T.definition rec row) (buf : Record) :
    Shows T.definition (deserializeRow T.types T.definition T.defaultValues buf (serializeRow T.types T.definition rec))
      row := by
  have hReadable : Readable T.definition T.definition :=
    readable_append (List.append_nil _).symm rfl hSound.narrow nofun nofun
  refine (readsUnder_of_readable hReadable rfl T.types T.defaultValues buf rec row hRow hRec hSound.defaults).congr ?_
  intro c hc
  rw [expected, if_pos hc]

theorem bookKey_later (h : book.Later book') {keyId version : Nat} {key : Bytes}
    (hKey : bookKey book keyId version = some key) : bookKey book' keyId version = some key := by
  rw [bookKey] at hKey ⊢
  split at hKey
  · cases hKey
  · rename_i hPos
    obtain ⟨added, hBook⟩ := h keyId
    rw [if_neg hPos, ← hBook, List.getElem?_append_left (List.getElem?_eq_some_iff.mp hKey).1]
    exact hKey

variable {iv : Reply}

theorem encrypted_of_ne_nil {plain : Bytes} {keyId version : Nat}
    (h : tidesdbEncryptRowInto (T.service book iv) plain keyId version ≠ []) :
    iv.ok = true ∧ ∃ key cipher, bookKey book keyId version = some key ∧
      T.encrypt key (iv.bytes tidesdbEncIvLen) plain = some cipher := by
  rw [tidesdbEncryptRowInto] at h
  split at h
  · rename_i key vector hKey hVector
    have hOk : iv.ok = true := by
      by_contra hNot
      have hNone : (T.service book iv).randomBytes = none := if_neg hNot
      rw [hNone] at hVector
      cases hVector
    have hBytes : (T.service book iv).randomBytes = some (iv.bytes tidesdbEncIvLen) := if_pos hOk
    rw [hBytes] at hVector
    cases hVector
    split at h
    · rename_i cipher hCipher
      exact ⟨hOk, key, cipher, hKey, hCipher⟩
    · exact absurd rfl h
  · exact absurd rfl h

structure Seals (T : Table ι) (book : Book) (share : RowRead.Share) (row : Column ι → Option Bytes) (stored : Bytes)
    (rec : Record) (version : Nat) (iv : Reply) : Prop where
  represents : Represents T.definition rec row
  stored_eq : stored = storedRow T share book version iv rec
  encrypted : share.encrypted = true → stored ≠ []

variable {version : Nat}

theorem Seals.congr (h : Seals T book share row stored rec version iv)
    (hEncrypted : share'.encrypted = share.encrypted)
    (hKeyId : share.encrypted = true → share'.encryptionKeyId = share.encryptionKeyId) :
    Seals T book share' row stored rec version iv where
  represents := h.represents
  stored_eq := by
    rw [h.stored_eq, storedRow, storedRow, hEncrypted]
    split
    · rename_i hOn
      rw [hKeyId hOn]
    · rfl
  encrypted hOn := h.encrypted (hEncrypted ▸ hOn)

theorem Seals.later (h : Seals T book share row stored rec version iv) (hLater : book.Later book') :
    Seals T book' share row stored rec version iv where
  represents := h.represents
  stored_eq := by
    have hStored := h.stored_eq
    have hSome := h.encrypted
    rw [storedRow] at hStored ⊢
    split at hStored
    · rename_i hOn
      rw [hStored] at hSome
      obtain ⟨-, key, cipher, hKey, -⟩ := encrypted_of_ne_nil (hSome hOn)
      have hSame : (T.service book iv).getKey share.encryptionKeyId version =
          (T.service book' iv).getKey share.encryptionKeyId version := hKey.trans (bookKey_later hLater hKey).symm
      rw [hStored, if_pos hOn, tidesdbEncryptRowInto, tidesdbEncryptRowInto, hSame]
      rfl
    · rename_i hOff
      rw [hStored, if_neg hOff]
  encrypted := h.encrypted

theorem Seals.shows [DecidableEq ι] (hSound : T.Sound) (h : Seals T book share row stored rec version iv)
    (hRow : RowOk T.types T.definition row)
    (hBounded : ∀ keyId, (book keyId).length ≤ KeyCustody.tidesdbMaxEncryptionKeyVersions)
    (hId : share.encryptionKeyId < 2 ^ 32) {crypto : Crypto} (hServes : Serves T book crypto) (buf : Record) :
    Shows T.definition (decode T.types T.definition T.defaultValues crypto share buf stored) row := by
  have hOpened : opened crypto share stored = some (serializeRow T.types T.definition rec) := by
    have hStored := h.stored_eq
    have hSome := h.encrypted
    rw [storedRow] at hStored
    split at hStored
    · rename_i hOn
      rw [hStored] at hSome
      obtain ⟨hOk, key, cipher, hKey, hCipher⟩ := encrypted_of_ne_nil (hSome hOn)
      obtain ⟨hPlain, hNe⟩ := hSound.inverse _ _ _ _ hCipher
      have hVersion : version < 256 ^ tidesdbEncVersionLen := by
        have hAt := hKey
        rw [bookKey] at hAt
        split at hAt
        · cases hAt
        · have hLt := (List.getElem?_eq_some_iff.mp hAt).1
          have hLe : (book share.encryptionKeyId).length ≤ 4096 := hBounded _
          have hPow : (256 : Nat) ^ tidesdbEncVersionLen = 4294967296 := by decide
          omega
      rw [hStored]
      refine opened_encrypted (T.service book iv) hKey (if_pos hOk) hCipher ?_ hVersion hNe hOn
        (hServes.getKey hId hKey) ?_
      · simp [Reply.bytes]
      · rw [hServes.decrypt]
        exact hPlain
    · rename_i hOff
      rw [opened, if_neg hOff, hStored]
  rw [decode_of_opened hOpened]
  exact shows_deserialized hSound hRow h.represents buf

end Rows

section Runs

variable {ι κ : Type} [DecidableEq κ] {T : Table ι} {s s' : State ι κ}

structure Inv (T : Table ι) (s : State ι κ) : Prop where
  encrypted : s.share.encrypted = s.options.encrypted
  keyId : s.options.encrypted = true → s.share.encryptionKeyId = s.options.encryptionKeyId
  keyId_lt : s.share.encryptionKeyId < 2 ^ 32
  bounded (keyId : Nat) : (s.book keyId).length ≤ KeyCustody.tidesdbMaxEncryptionKeyVersions
  row {key : κ} {row : Column ι → Option Bytes} : s.written key = some row → RowOk T.types T.definition row ∧
    ∃ stored rec version iv, s.rows.get key = some stored ∧ Seals T s.book s.share row stored rec version iv

theorem serves_service (T : Table ι) (book : Book) (iv : Reply) : Serves T book (T.service book iv) where
  getKey _ hKey := hKey
  decrypt := rfl

theorem serves_keyService {τ η : Type} (S : KeyRuns.Setup τ η) (hDecrypt : S.decryptRow = T.decrypt) {book : Book}
    {w : KeyCustody.World} (h : Refines S.aes w book) (hAvailable : w.available = true) :
    Serves T book (S.keyService w) where
  getKey {keyId version key} hId hKey := by
    rw [bookKey] at hKey
    split at hKey
    · cases hKey
    · rename_i hPos
      exact KeyRuns.keyService_getKey h hAvailable hId (Nat.one_le_iff_ne_zero.mpr hPos) hKey
  decrypt := hDecrypt

theorem Inv.readsBack [DecidableEq ι] (h : Inv T s) (hSound : T.Sound) : ReadsBack T s := by
  intro key row hWritten
  obtain ⟨hRow, stored, rec, version, iv, hStored, hSeals⟩ := h.row hWritten
  exact ⟨stored, hStored, fun crypto hServes buf => hSeals.shows hSound hRow h.bounded h.keyId_lt hServes buf⟩

theorem openShare_keyId_lt (T : Table ι) (opts : Options) : (openShare T opts).encryptionKeyId < 2 ^ 32 := by
  rw [openShare]
  dsimp only
  split
  · exact opts.keyId_lt
  · decide

theorem inv_init (T : Table ι) (opts : Options) : Inv T (init T opts : State ι κ) where
  encrypted := rfl
  keyId hOn := if_pos hOn
  keyId_lt := openShare_keyId_lt T opts
  bounded _ := Nat.zero_le _
  row := nofun

theorem Inv.reshare (h : Inv T s) {opts : Options} {share : RowRead.Share}
    (hEncrypted : share.encrypted = opts.encrypted)
    (hKeyId : opts.encrypted = true → share.encryptionKeyId = opts.encryptionKeyId)
    (hLt : share.encryptionKeyId < 2 ^ 32)
    (hSame : (opts.encrypted = s.share.encrypted ∧
      (opts.encrypted = true → opts.encryptionKeyId = s.share.encryptionKeyId)) ∨ s.rows.entries = []) :
    Inv T { s with options := opts, share := share } where
  encrypted := hEncrypted
  keyId := hKeyId
  keyId_lt := hLt
  bounded := h.bounded
  row {key row} hWritten := by
    obtain ⟨hRow, stored, rec, version, iv, hStored, hSeals⟩ := h.row hWritten
    refine ⟨hRow, stored, rec, version, iv, hStored, ?_⟩
    obtain ⟨hOn, hId⟩ | hEmpty := hSame
    · refine hSeals.congr (hEncrypted.trans hOn) fun hShare => ?_
      have hOpts : opts.encrypted = true := hOn.trans hShare
      rw [hKeyId hOpts, hId hOpts]
    · have hMem := (s.rows.mem_entries_iff key stored).mpr hStored
      rw [hEmpty] at hMem
      cases hMem

theorem Inv.copy [DecidableEq ι] (h : Inv T s) (hSound : T.Sound) {opts : Options} {version : Nat} {ivs : κ → Reply}
    {bufs : κ → Record} (hCopy : copyAlter T s opts version ivs bufs = some s') : Inv T s' := by
  rw [copyAlter] at hCopy
  split at hCopy
  · cases hCopy
  · rename_i hOk
    cases hCopy
    refine ⟨rfl, fun hOn => if_pos hOn, openShare_keyId_lt T opts, h.bounded, fun {key row} hWritten => ?_⟩
    obtain ⟨hRow, stored, rec, version₀, iv₀, hStored, hSeals⟩ := h.row hWritten
    have hCopied : (s.rows.mapValues fun key stored => copiedRow T s opts version (ivs key) (bufs key) stored).get key =
        some (copiedRow T s opts version (ivs key) (bufs key) stored) := by rw [Store.get_mapValues, hStored]; rfl
    have hShows := hSeals.shows hSound hRow h.bounded h.keyId_lt (serves_service T s.book (ivs key)) (bufs key)
    refine ⟨hRow, _, _, version, ivs key, hCopied, represents_copied hShows hRow, rfl, fun hOn hNil => ?_⟩
    exact hOk ⟨hOn, _, (Store.mem_entries_iff _ key _).mpr hCopied, hNil⟩

/-- One row is set or taken away and the others stay as they are. -/
theorem Inv.setRow (h : Inv T s) {key : κ} {rows : Store κ Bytes} {value : Option (Column ι → Option Bytes)}
    (hOthers : ∀ z, z ≠ key → rows.get z = s.rows.get z)
    (hValue : ∀ row, value = some row → RowOk T.types T.definition row ∧
      ∃ stored rec version iv, rows.get key = some stored ∧ Seals T s.book s.share row stored rec version iv) :
    Inv T { s with rows := rows, written := update s.written key value } := by
  refine ⟨h.encrypted, h.keyId, h.keyId_lt, h.bounded, fun {z row'} hWritten => ?_⟩
  dsimp only at hWritten
  obtain rfl | hNe := eq_or_ne z key
  · rw [update_self] at hWritten
    exact hValue row' hWritten
  · rw [update_of_ne hNe] at hWritten
    obtain ⟨hRow, stored, rec, version, iv, hStored, hSeals⟩ := h.row hWritten
    exact ⟨hRow, stored, rec, version, iv, (hOthers z hNe).trans hStored, hSeals⟩

theorem Inv.addKey (h : Inv T s) {keyId : Nat} (tableKey : Bytes)
    (hRoom : (s.book keyId).length < KeyCustody.tidesdbMaxEncryptionKeyVersions) :
    Inv T { s with book := s.book.add keyId tableKey } := by
  refine ⟨h.encrypted, h.keyId, h.keyId_lt, fun id => ?_, fun hWritten => ?_⟩
  · obtain rfl | hNe := eq_or_ne id keyId
    · change (s.book.add id tableKey id).length ≤ _
      rw [Book.add, update_self, List.length_append]
      exact hRoom
    · change (s.book.add keyId tableKey id).length ≤ _
      rw [Book.add, update_of_ne hNe]
      exact h.bounded id
  · obtain ⟨hRow, stored, rec, version, iv, hStored, hSeals⟩ := h.row hWritten
    exact ⟨hRow, stored, rec, version, iv, hStored, hSeals.later (s.book.later_add keyId tableKey)⟩

theorem Inv.inPlace (h : Inv T s) (req : Request) {opts : Options}
    (hSame : (opts.encrypted = s.share.encrypted ∧
      (opts.encrypted = true → opts.encryptionKeyId = s.share.encryptionKeyId)) ∨ s.rows.entries = []) :
    Inv T (commitInplaceAlterTable s req opts) := by
  rw [commitInplaceAlterTable]
  split
  · refine h.reshare rfl (fun hOn => if_pos hOn) ?_ hSame
    dsimp only
    split
    · exact opts.keyId_lt
    · exact h.keyId_lt
  · exact h

theorem Inv.step [DecidableEq ι] (h : Inv T s) (hSound : T.Sound) {a : Action ι κ} (hCondition : Condition T s a)
    (hStep : step T s a = some s') : Inv T s' := by
  cases a with
  | write key row version iv =>
    rw [EncryptionAlter.step] at hStep
    split at hStep
    · cases hStep
    · rename_i hOk
      cases hStep
      refine h.setRow (fun z hNe => (Store.get_put ..).trans (if_neg hNe)) ?_
      rintro _ ⟨⟩
      refine ⟨hCondition, _, _, version, iv, (Store.get_put ..).trans (if_pos rfl), represents_recordOf _ _, rfl, ?_⟩
      exact fun hOn hNil => hOk ⟨hOn, hNil⟩
  | delete key =>
    cases hStep
    exact h.setRow (fun z hNe => (Store.get_drop ..).trans (if_neg hNe)) nofun
  | addKey keyId tableKey =>
    rw [EncryptionAlter.step] at hStep
    split at hStep
    · rename_i hRoom
      cases hStep
      exact h.addKey tableKey hRoom
    · cases hStep
  | reopen =>
    cases hStep
    exact h.reshare rfl (fun hOn => if_pos hOn) (openShare_keyId_lt T _)
      (.inl ⟨h.encrypted.symm, fun hOn => (h.keyId hOn).symm⟩)
  | alter req opts version ivs bufs =>
    rw [EncryptionAlter.step] at hStep
    rw [Condition] at hCondition
    cases hCheck : checkIfSupportedInplaceAlter req with
    | instant | noLock =>
      rw [hCheck] at hStep hCondition
      cases hStep
      exact h.inPlace req (hCondition.resolve_left (by rintro ⟨_, ⟨⟩⟩))
    | notSupported reason =>
      rw [hCheck] at hStep
      exact h.copy hSound hStep

end Runs

/-- Every row reads back with the values it was last written with when statements in place leave the encryption of its
table as it is. -/
theorem encrypted_rows_read_back {ι κ : Type} [DecidableEq ι] [DecidableEq κ] {T : Table ι} (hSound : T.Sound)
    {opts : Options} {s : State ι κ} (hReach : Reach (step T) (Condition T) (init T opts) s) : ReadsBack T s :=
  (hReach.invariant (Inv T) (inv_init T opts) fun _ _ _ h hCondition hStep => h.step hSound hCondition hStep).readsBack
    hSound

def ledger : Table String where
  types _ := byteType
  definition := customers
  defaultValues := recordOf customers (defaultRow (fun _ => byteType) customers)
  hasBlobs := false
  encrypt _ _ src := some (0 :: src)
  decrypt _ _ src := some src.tail

theorem ledger_sound : ledger.Sound where
  narrow := by decide
  defaults := (represents_recordOf ..).toShows
  inverse _ _ _ cipher h := by
    cases h
    exact ⟨rfl, List.cons_ne_nil _ _⟩

def plain : Options := ⟨false, 1, by decide⟩

def ciphered : Options := ⟨true, 1, by decide⟩

def stores : Action String Nat := .write 0 seven 0 ⟨true, fun _ => 0⟩

def rebuilt : Action String Nat := .alter ⟨false, false, [.changeCreateOption, .addPkIndex], []⟩ ciphered 1
  (fun _ => ⟨true, fun _ => 0⟩) fun _ => ⟨fun _ => 0, fun _ => []⟩

def flipped : Action String Nat := .alter ⟨false, false, [.changeCreateOption], []⟩ ciphered 1
  (fun _ => ⟨true, fun _ => 0⟩) fun _ => ⟨fun _ => 0, fun _ => []⟩

theorem ledger_row_read_back : ∃ s, Reach (step ledger) (Condition ledger) (init ledger plain) s ∧
    s.share.encrypted = true ∧ s.written 0 = some seven ∧ ReadsBack ledger s ∧
    ∀ (S : KeyRuns.Setup Unit Unit) (w : KeyCustody.World), S.decryptRow = ledger.decrypt → Refines S.aes w s.book →
      w.available = true → ∃ stored, s.rows.get 0 = some stored ∧ ∀ buf, Shows ledger.definition
        (decode ledger.types ledger.definition ledger.defaultValues (S.keyService w) s.share buf stored) seven := by
  have hWritten : Reach (step ledger) (Condition ledger) (init ledger plain) _ := .step stores .init rowOk_seven rfl
  have hKeyed : Reach (step ledger) (Condition ledger) (init ledger plain) _ :=
    .step (.addKey 1 [1]) hWritten (show True from trivial) rfl
  have hRebuilt := Reach.step rebuilt hKeyed (.inl ⟨none, rfl⟩) rfl
  have hReads := encrypted_rows_read_back ledger_sound hRebuilt
  obtain ⟨stored, hStored, hShows⟩ := hReads 0 seven rfl
  exact ⟨_, hRebuilt, rfl, rfl, hReads, fun S w hDecrypt hRefines hAvailable =>
    ⟨stored, hStored, hShows _ (serves_keyService S hDecrypt hRefines hAvailable)⟩⟩

/-- The options of a table with one row are changed in place: the row is then read as ciphertext, and shows 0. -/
theorem ledger_row_lost : ¬ ∀ s : State String Nat,
    Reach (step ledger) (RowsOk ledger) (init ledger plain) s → ReadsBack ledger s := by
  intro hAll
  have hWritten : Reach (step ledger) (RowsOk ledger) (init ledger plain) _ := .step stores .init rowOk_seven rfl
  have hFlipped := Reach.step flipped hWritten trivial rfl
  obtain ⟨stored, hStored, hReads⟩ := hAll _ hFlipped 0 seven rfl
  cases hStored
  have hShows := hReads (ledger.service (fun _ => []) ⟨true, fun _ => 0⟩) (serves_service ..)
    ⟨fun _ => 0, fun _ => [0]⟩
  have hZero : ([0] : Bytes) = [7] := hShows.slot 0 ⟨"id", false⟩ [7] rfl rfl
  cases hZero

end TideSql.EncryptionAlter
