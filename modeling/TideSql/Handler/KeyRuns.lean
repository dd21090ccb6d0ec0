import TideSql.Handler.KeyBook

/-!
# Rows and their keys over a run

The handlers write encrypted rows while table keys are minted and rotated and the master key is rotated.
-/

namespace TideSql.KeyRuns
open CryptoKeyenc KeyCustody RowRead Lib Lib.Bytes Lib.Program Lib.Run List Function

structure Setup (τ η : Type) where
  aes : WrapCipher
  encryptRow : (key iv src : Bytes) → Option Bytes
  decryptRow : (key iv src : Bytes) → Option Bytes
  tableOf : η → τ
  encryptionKeyId : τ → Nat
  keyId_lt (t : τ) : encryptionKeyId t < 2 ^ 32

structure Handler where
  cachedEncKeyVer : Nat
  encKeyVerValid : Bool

structure Written where
  keyId : Nat
  version : Nat
  key : Bytes
  iv : Bytes
  plain : Bytes

structure State (τ η : Type) where
  world : World
  shares : τ → Option Nat
  handlers : η → Handler
  rows : List Written

inductive Action (τ η : Type) where
  | openTable (t : τ) (replies : List Reply)
  | externalLock (h : η)
  | keyVersion (h : η) (replies : List Reply)
  | encryptRow (h : η) (plain : Bytes) (iv : Reply) (replies : List Reply)
  | rotateTableKey (keyId : Nat) (replies : List Reply)
  | rotateMasterKey (replies : List Reply)
  | crash (available : Bool)

section Model

variable {τ η : Type} [DecidableEq τ] [DecidableEq η] (S : Setup τ η)

def Setup.keyIdOf (h : η) : Nat := S.encryptionKeyId (S.tableOf h)

/-- The key service and the ciphers while the calls are answered without a failure. -/
def Setup.crypto (getKey : (keyId keyVersion : Nat) → Option Bytes) (iv : Option Bytes) : Crypto :=
  ⟨getKey, iv, S.encryptRow, S.decryptRow⟩

def Written.stored (r : Written) : Bytes :=
  tidesdbEncryptRowInto (S.crypto (fun _ _ => some r.key) (some r.iv)) r.plain r.keyId r.version

def restart (s : State τ η) (w : World) (available : Bool) : State τ η where
  world := { w with available := available, masterGeneration := generationNone }
  shares _ := none
  handlers _ := ⟨0, false⟩
  rows := s.rows

def resume {α : Type} (s : State τ η) (r : Option α × World) (next : α → State τ η → State τ η) : State τ η :=
  match r with
  | (some a, w) => next a { s with world := w }
  | (none, w) => restart s w w.available

def setVersion (s : State τ η) (t : τ) (version : Nat) : State τ η :=
  { s with shares := update s.shares t (some version) }

def setHandler (s : State τ η) (h : η) (handler : Handler) : State τ η :=
  { s with handlers := update s.handlers h handler }

/-- The call of `serialize_encrypt_row` for the version, which falls back to the one the share holds. -/
def keyVersion (h : η) (known : Nat) (version : Nat) (s : State τ η) : State τ η :=
  if version ≠ keyVersionInvalid then setHandler (setVersion s (S.tableOf h) version) h ⟨version, true⟩
  else setHandler s h ⟨known, true⟩

def addRow (h : η) (plain : Bytes) (iv : Reply) (key : Option Bytes) (s : State τ η) : State τ η :=
  match key with
  | none => s
  | some key =>
    let r : Written := ⟨S.keyIdOf h, (s.handlers h).cachedEncKeyVer, key, iv.bytes tidesdbEncIvLen, plain⟩
    if iv.ok ∧ r.stored S ≠ [] then { s with rows := r :: s.rows } else s

def step (s : State τ η) : Action τ η → Option (State τ η)
  | .openTable t replies =>
    some (resume s (exec reliable (cryptoLatestKeyVersion S.aes (S.encryptionKeyId t)) replies s.world)
      fun version s => if version = keyVersionInvalid then s else setVersion s t version)
  | .externalLock h => some (setHandler s h ⟨(s.handlers h).cachedEncKeyVer, false⟩)
  | .keyVersion h replies =>
    match s.shares (S.tableOf h) with
    | none => none
    | some known =>
      if (s.handlers h).encKeyVerValid then some s
      else
        some (resume s (exec reliable (cryptoLatestKeyVersion S.aes (S.keyIdOf h)) replies s.world)
          (keyVersion S h known))
  | .encryptRow h plain iv replies =>
    if (s.handlers h).encKeyVerValid then
      some (resume s
        (exec reliable
          (cryptoGetKey S.aes (S.keyIdOf h) (s.handlers h).cachedEncKeyVer tidesdbEncKeyLen) replies s.world)
        (addRow S h plain iv))
    else none
  | .rotateTableKey keyId replies =>
    some (resume s (exec reliable (cryptoRotateTableKey S.aes keyId) replies s.world) fun _ s => s)
  | .rotateMasterKey replies =>
    some (resume s (exec reliable (cryptoRotateMasterKey S.aes) replies s.world) fun _ s => s)
  | .crash available => some (restart s s.world available)

def init (keyring : Nat → Option Bytes) (available : Bool) : State τ η where
  world := ⟨.empty, keyring, available, generationNone⟩
  shares _ := none
  handlers _ := ⟨0, false⟩
  rows := []

end Model

section Invariant

variable {τ η : Type} {S : Setup τ η} {s s' : State τ η} {book : Book}

def Known (book : Book) (keyId version : Nat) : Prop := 1 ≤ version ∧ version ≤ (book keyId).length

theorem Known.later {book' : Book} {keyId version : Nat} (h : Known book keyId version) (hLater : book.Later book') :
    Known book' keyId version := ⟨h.1, h.2.trans (hLater keyId).length_le⟩

structure Inv (S : Setup τ η) (book : Book) (s : State τ η) : Prop where
  refines : Refines S.aes s.world book
  share {t : τ} {version : Nat} : s.shares t = some version → Known book (S.encryptionKeyId t) version
  cached {h : η} : (s.handlers h).encKeyVerValid = true → Known book (S.keyIdOf h) (s.handlers h).cachedEncKeyVer
  row {r : Written} : r ∈ s.rows → r.keyId < 2 ^ 32 ∧ 1 ≤ r.version ∧ (book r.keyId)[r.version - 1]? = some r.key ∧
    r.iv.length = tidesdbEncIvLen ∧ r.stored S ≠ []

namespace Inv

section

variable (h : Inv S book s)
include h

theorem later {w : World} {book' : Book} (hLater : book.Later book') (hRefines : Refines S.aes w book') :
    Inv S book' { s with world := w } where
  refines := hRefines
  share hShare := (h.share hShare).later hLater
  cached hValid := (h.cached hValid).later hLater
  row {r} hr := by
    obtain ⟨hId, hPos, hKey, hRest⟩ := h.row hr
    obtain ⟨added, hBook⟩ := hLater r.keyId
    rw [← hBook, getElem?_append_left (List.getElem?_eq_some_iff.mp hKey).1]
    exact ⟨hId, hPos, hKey, hRest⟩

theorem restart {w : World} {book' : Book} (hLater : book.Later book') (hRefines : Refines S.aes w book')
    (available : Bool) : Inv S book' (restart s w available) where
  refines := hRefines.of_same (fun _ _ _ => rfl) id (show generationNone < 2 ^ 32 by decide)
  share := nofun
  cached := nofun
  row hr := (h.later hLater hRefines).row hr

theorem setVersion [DecidableEq τ] {t : τ} {version : Nat} (hKnown : Known book (S.encryptionKeyId t) version) :
    Inv S book (setVersion s t version) where
  refines := h.refines
  share {t'} v hShare := by
    obtain rfl | hNe := eq_or_ne t' t
    · have hSelf : (KeyRuns.setVersion s t' version).shares t' = some version := update_self ..
      rw [hSelf] at hShare
      cases hShare
      exact hKnown
    · exact h.share ((update_of_ne hNe _ _).symm.trans hShare)
  cached := h.cached
  row := h.row

theorem setHandler [DecidableEq η] {k : η} {handler : Handler}
    (hKnown : handler.encKeyVerValid = true → Known book (S.keyIdOf k) handler.cachedEncKeyVer) :
    Inv S book (setHandler s k handler) where
  refines := h.refines
  share := h.share
  cached {k'} hValid := by
    obtain rfl | hNe := eq_or_ne k' k
    · have hSelf : (KeyRuns.setHandler s k' handler).handlers k' = handler := update_self ..
      rw [hSelf] at hValid ⊢
      exact hKnown hValid
    · have hOther : (KeyRuns.setHandler s k handler).handlers k' = s.handlers k' := update_of_ne hNe ..
      rw [hOther] at hValid ⊢
      exact h.cached hValid
  row := h.row

theorem key_eq {keyId version klen : Nat} {key : Bytes} (hId : keyId < 2 ^ 32)
    (hKnown : Known book keyId version)
    (hKey : some key = if s.world.available then (recorded S.aes s.world keyId version).filter fun plain =>
      plain ≠ [] ∧ plain.length ≤ klen else none) : (book keyId)[version - 1]? = some key := by
  have hLt : version - 1 < (book keyId).length := Nat.lt_of_lt_of_le (Nat.sub_lt hKnown.1 Nat.one_pos) hKnown.2
  have hBook := getElem?_eq_getElem hLt
  have hRecorded := h.refines.keys hId hBook
  rw [Nat.sub_add_cancel hKnown.1] at hRecorded
  split at hKey
  · rw [(Option.filter_eq_some_iff.mp hKey.symm).1] at hRecorded
    rw [hBook, hRecorded]
  · cases hKey

theorem addRow (k : η) (hValid : (s.handlers k).encKeyVerValid = true) (plain : Bytes) (iv : Reply)
    {key : Option Bytes}
    (hKey : key = if s.world.available then
      (recorded S.aes s.world (S.keyIdOf k) (s.handlers k).cachedEncKeyVer).filter fun plain =>
        plain ≠ [] ∧ plain.length ≤ tidesdbEncKeyLen else none) :
    Inv S book (addRow S k plain iv key s) := by
  cases key with
  | none => exact h
  | some key =>
    rw [KeyRuns.addRow]
    split
    · rename_i hOk
      refine ⟨h.refines, h.share, h.cached, fun {r} hr => ?_⟩
      obtain rfl | hr := mem_cons.mp hr
      · have hKnown := h.cached hValid
        refine ⟨S.keyId_lt _, hKnown.1, h.key_eq (S.keyId_lt _) hKnown hKey, ?_, hOk.2⟩
        simp [Reply.bytes]
      · exact h.row hr
    · exact h

theorem resume {α : Type} {p : M α} {Q : α → World → Prop} {next : α → State τ η → State τ η}
    (hSafe : Safe reliable (Custody S.aes book) Q p s.world)
    (hNext : ∀ a w, Q a w → ∃ book', Inv S book' (next a { s with world := w })) (replies : List Reply) :
    ∃ book', Inv S book' (resume s (exec reliable p replies s.world) next) := by
  obtain ⟨⟨book', hLater, hRefines⟩, hReturns⟩ := hSafe.exec h.refines.custody replies
  generalize exec reliable p replies s.world = r at hRefines hReturns
  obtain ⟨_ | a, w⟩ := r
  · exact ⟨book', h.restart hLater hRefines _⟩
  · exact hNext a w (hReturns a rfl)

end

end Inv

theorem inv_step [DecidableEq τ] [DecidableEq η] (a : Action τ η) (hAes : S.aes.Inverse) (h : Inv S book s)
    (hStep : step S s a = some s') :
    ∃ book', Inv S book' s' := by
  cases a with
  | openTable t replies =>
    cases hStep
    refine h.resume (safe_cryptoLatestKeyVersion hAes h.refines (S.keyId_lt t)) ?_ replies
    rintro version w ⟨book', hLater, hRefines, hKnown⟩
    refine ⟨book', ?_⟩
    split
    · exact h.later hLater hRefines
    · exact (h.later hLater hRefines).setVersion (hKnown ‹_›)
  | externalLock k =>
    cases hStep
    exact ⟨book, h.setHandler nofun⟩
  | keyVersion k replies =>
    rw [step] at hStep
    split at hStep
    · cases hStep
    · rename_i known hShare
      split at hStep
      · cases hStep
        exact ⟨book, h⟩
      · cases hStep
        refine h.resume (safe_cryptoLatestKeyVersion hAes h.refines (S.keyId_lt _)) ?_ replies
        rintro version w ⟨book', hLater, hRefines, hKnown⟩
        have h' := h.later hLater hRefines
        refine ⟨book', ?_⟩
        rw [keyVersion]
        split
        · exact (h'.setVersion (hKnown ‹_›)).setHandler fun _ => hKnown ‹_›
        · exact h'.setHandler fun _ => h'.share hShare
  | encryptRow k plain iv replies =>
    rw [step] at hStep
    split at hStep
    · rename_i hValid
      cases hStep
      refine h.resume ((safe_cryptoGetKey _ _ _ s.world).mono (fun _ hs => hs ▸ h.refines.custody) fun _ _ hs => hs) ?_
        replies
      rintro key w ⟨rfl, hKey⟩
      exact ⟨book, h.addRow k hValid plain iv hKey⟩
    · cases hStep
  | rotateTableKey keyId replies =>
    cases hStep
    refine h.resume (safe_cryptoRotateTableKey hAes h.refines keyId) ?_ replies
    rintro - w ⟨book', hLater, hRefines⟩
    exact ⟨book', h.later hLater hRefines⟩
  | rotateMasterKey replies =>
    cases hStep
    refine h.resume ((safe_cryptoRotateMasterKey hAes h.refines).mono (fun _ => Refines.custody) fun _ _ hs => hs) ?_
      replies
    rintro - w hRefines
    exact ⟨book, h.later (.refl book) hRefines⟩
  | crash available =>
    cases hStep
    exact ⟨book, h.restart (.refl book) h.refines available⟩

theorem inv_init (S : Setup τ η) (keyring : Nat → Option Bytes) (available : Bool) :
    Inv S (fun _ => []) (init keyring available) where
  refines := {
    latest := fun _ => rfl
    keys := nofun
    bounded := fun _ => Nat.zero_le _
    sized := nofun
    inForce := show generationNone < 2 ^ 32 by decide }
  share := nofun
  cached := nofun
  row := nofun

theorem inv_of_reach [DecidableEq τ] [DecidableEq η] (hAes : S.aes.Inverse) {keyring : Nat → Option Bytes}
    {available : Bool}
    (h : Reach (step S) (fun _ _ => True) (init keyring available) s) : ∃ book, Inv S book s :=
  h.invariant (fun s => ∃ book, Inv S book s) ⟨_, inv_init S keyring available⟩
    fun _ a _ ⟨_, hInv⟩ _ hStep => inv_step a hAes hInv hStep

end Invariant

section Decrypt

variable {τ η : Type} (S : Setup τ η)

def Setup.keyService (w : World) : Crypto :=
  S.crypto (fun keyId keyVersion => if w.available then
    (recorded S.aes w keyId keyVersion).filter fun plain => plain ≠ [] ∧ plain.length ≤ tidesdbEncKeyLen else none) none

def Setup.RowInverse : Prop :=
  ∀ key iv plain cipher, S.encryptRow key iv plain = some cipher → S.decryptRow key iv cipher = some plain ∧ cipher ≠ []

/-- The key of the row's version is still recorded, and it opens the row. -/
structure Decryptable (w : World) (r : Written) : Prop where
  key : recorded S.aes w r.keyId (ofLE ((r.stored S).take tidesdbEncVersionLen)) = some r.key
  opens : S.RowInverse → w.available = true → ∀ hasBlobs,
    opened (S.keyService w) ⟨hasBlobs, true, r.keyId⟩ (r.stored S) = some r.plain

variable {S}

theorem encrypted_of_stored {r : Written} (h : r.stored S ≠ []) :
    ∃ cipher, S.encryptRow r.key r.iv r.plain = some cipher ∧
      r.stored S = toLE tidesdbEncVersionLen r.version ++ r.iv ++ cipher := by
  rw [Written.stored, tidesdbEncryptRowInto, Setup.crypto] at h ⊢
  dsimp only at h ⊢
  cases hCipher : S.encryptRow r.key r.iv r.plain with
  | none =>
    rw [hCipher] at h
    exact absurd rfl h
  | some cipher => exact ⟨cipher, rfl, rfl⟩

theorem stamp_stored {r : Written} (h : r.stored S ≠ []) (hVersion : r.version < 2 ^ 32) :
    ofLE ((r.stored S).take tidesdbEncVersionLen) = r.version := by
  obtain ⟨cipher, -, hStored⟩ := encrypted_of_stored h
  rw [hStored, append_assoc, take_left' (length_toLE _ _), ofLE_toLE]
  exact Nat.mod_eq_of_lt hVersion

theorem keyService_getKey {book : Book} {w : World} (h : Refines S.aes w book) (hAvailable : w.available = true)
    {keyId version : Nat} {key : Bytes} (hId : keyId < 2 ^ 32) (hPos : 1 ≤ version)
    (hKey : (book keyId)[version - 1]? = some key) : (S.keyService w).getKey keyId version = some key := by
  have hRecorded := h.keys hId hKey
  rw [Nat.sub_add_cancel hPos] at hRecorded
  have hSized := h.sized (mem_of_getElem? hKey)
  have hNe : key ≠ [] := length_pos_iff.mp (hSized ▸ by decide)
  rw [Setup.keyService, Setup.crypto]
  dsimp only
  rw [if_pos hAvailable, hRecorded, Option.filter_some_pos]
  simpa using ⟨hNe, hSized.le⟩

theorem Inv.decryptable {book : Book} {s : State τ η} (h : Inv S book s) {r : Written} (hr : r ∈ s.rows) :
    Decryptable S s.world r := by
  obtain ⟨hId, hPos, hKey, hIv, hStored⟩ := h.row hr
  have hLe : r.version < 2 ^ 32 := by
    have hLt := h.refines.lt_of_getElem? hKey
    rwa [Nat.sub_add_cancel hPos] at hLt
  have hRecorded : recorded S.aes s.world r.keyId r.version = some r.key := by
    have hAt := h.refines.keys hId hKey
    rwa [Nat.sub_add_cancel hPos] at hAt
  constructor
  · rw [stamp_stored hStored hLe, hRecorded]
  · intro hInverse hAvailable hasBlobs
    obtain ⟨cipher, hCipher, -⟩ := encrypted_of_stored hStored
    obtain ⟨hPlain, hNe⟩ := hInverse _ _ _ _ hCipher
    have hService := keyService_getKey h.refines hAvailable hId hPos hKey
    have hShare : (⟨hasBlobs, true, r.keyId⟩ : RowRead.Share).encrypted = true := rfl
    exact opened_encrypted (S.crypto (fun _ _ => some r.key) (some r.iv)) rfl rfl hCipher hIv hLe hNe hShare hService
      hPlain

end Decrypt

/-- Over every run, with a crash or a failed write at any point: each row is encrypted with the key that
is still recorded for its version. -/
theorem rows_stay_decryptable {τ η : Type} [DecidableEq τ] [DecidableEq η] (S : Setup τ η) (hAes : S.aes.Inverse)
    {keyring : Nat → Option Bytes} {available : Bool} {s : State τ η}
    (hReach : Reach (step S) (fun _ _ => True) (init keyring available) s) (r : Written) (hr : r ∈ s.rows) :
    Decryptable S s.world r := by
  obtain ⟨book, hInv⟩ := inv_of_reach hAes hReach
  exact hInv.decryptable hr

section Samples

def vault : Setup Unit Unit where
  aes := ⟨fun master src => some (master ++ src), fun master src => some (src.drop master.length)⟩
  encryptRow key iv src := some (key ++ iv ++ src)
  decryptRow key iv src := some (src.drop (key.length + iv.length))
  tableOf _ := ()
  encryptionKeyId _ := 1
  keyId_lt _ := by decide

def granted (b : UInt8) : Reply := ⟨true, fun _ => b⟩

def refused : Reply := ⟨false, fun _ => 0⟩

def interrupted : List (Action Unit Unit) :=
  [.openTable () (replicate 11 (granted 1) ++ [refused]), .openTable () (replicate 9 (granted 2)),
    .keyVersion () (replicate 2 (granted 0)),
    .encryptRow () [7, 8] (granted 3) (replicate 3 (granted 0)),
    .rotateTableKey 1 (replicate 6 (granted 4)),
    .rotateMasterKey (replicate 12 (granted 5))]

theorem vault_inverse : vault.aes.Inverse := by
  intro master plain wrapped h
  cases h
  exact congrArg some (drop_left ..)

theorem interrupted_row_decryptable :
    ∃ s r, Reach (step vault) (fun _ _ => True) (init (fun _ => none) true) s ∧ s.rows = [r] ∧
      Decryptable vault s.world r := by
  have hRows : (guardedRun (step vault) (fun _ _ => True) (init (fun _ => none) true) interrupted).map (·.rows.length) =
      some 1 := by decide +kernel
  obtain ⟨s, hRun, hLength⟩ := Option.map_eq_some_iff.mp hRows
  obtain ⟨r, hr⟩ := length_eq_one_iff.mp hLength
  have hReach := reach_of_guardedRun interrupted .init hRun
  exact ⟨s, r, hReach, hr, rows_stay_decryptable vault vault_inverse hReach r (hr ▸ mem_singleton_self r)⟩

end Samples

end TideSql.KeyRuns
