import TideSql.Handler.KeyCustody

/-!
# The book of the table keys

What the custody is for is a book that has, for every key id, its keys in the order of their versions, and to
which keys are only ever added.
-/

namespace TideSql.KeyCustody
open CryptoKeyenc Lib Lib.Program List Function

/-- For every key id its keys, in the order of their versions. -/
abbrev Book := Nat → List Bytes

def Book.add (book : Book) (keyId : Nat) (key : Bytes) : Book := update book keyId (book keyId ++ [key])

def Book.Later (book book' : Book) : Prop := ∀ keyId, book keyId <+: book' keyId

theorem Book.Later.refl (book : Book) : book.Later book := fun _ => prefix_rfl

theorem Book.later_add (book : Book) (keyId : Nat) (key : Bytes) : book.Later (book.add keyId key) := by
  intro id
  obtain rfl | hNe := eq_or_ne id keyId
  · rw [Book.add, update_self]
    exact prefix_append _ _
  · rw [Book.add, update_of_ne hNe]

/-- The store has the keys of the book under their numbers. -/
structure Refines (aes : WrapCipher) (w : World) (book : Book) : Prop where
  latest {keyId : Nat} : keyId < 2 ^ 32 → latestOf w keyId = if book keyId = [] then none else some (book keyId).length
  keys {keyId i : Nat} {key : Bytes} : keyId < 2 ^ 32 → (book keyId)[i]? = some key →
    recorded aes w keyId (i + 1) = some key
  bounded (keyId : Nat) : (book keyId).length ≤ tidesdbMaxEncryptionKeyVersions
  sized {keyId : Nat} {key : Bytes} : key ∈ book keyId → key.length = tdbCryptoKeyLen
  inForce : w.masterGeneration < 2 ^ 32

namespace Refines

variable {aes : WrapCipher} {w w' : World} {book : Book}

section

variable (h : Refines aes w book)
include h

theorem of_same
    (hStore : ∀ n fields, n ≠ Ns.masterSeq → w'.store.get (encodeKey n fields) = w.store.get (encodeKey n fields))
    (hKeyring : ∀ {generation key}, w.keyring generation = some key → w'.keyring generation = some key)
    (hGeneration : w'.masterGeneration < 2 ^ 32) : Refines aes w' book where
  latest hId := by
    rw [latestOf, encodeLatestKey, hStore _ _ (by decide)]
    exact h.latest hId
  keys hId hKey := by
    obtain ⟨stored, hStored, hUnwraps⟩ := Option.bind_eq_some_iff.mp (h.keys hId hKey)
    rw [recorded, encodeWrappedKey, hStore _ _ (by decide), ← encodeWrappedKey, hStored, Option.bind_some]
    exact unwraps_mono hKeyring hUnwraps
  bounded := h.bounded
  sized := h.sized
  inForce := hGeneration

theorem beside (hBeside : Beside w w') : Refines aes w' book :=
  h.of_same (fun _ _ _ => by rw [hBeside.store]) hBeside.keyring (hBeside.masterGeneration ▸ h.inForce)

theorem setGeneration {generation : Nat} (hGeneration : generation < 2 ^ 32) :
    Refines aes { w with masterGeneration := generation } book := h.of_same (fun _ _ _ => rfl) id hGeneration

theorem putMaster (value : Bytes) : Refines aes { w with store := w.store.put encodeMasterSeqKey value } book := by
  refine h.of_same (fun n fields hNs => ?_) id h.inForce
  rw [Store.get_put, if_neg (encodeKey_ne_masterSeqKey hNs fields)]

theorem lt_of_getElem? {keyId i : Nat} {key : Bytes} (hKey : (book keyId)[i]? = some key) : i + 1 < 2 ^ 32 := by
  have hLength := (List.getElem?_eq_some_iff.mp hKey).1
  have hBound : (book keyId).length ≤ 4096 := h.bounded keyId
  omega

theorem putWrapped {keyId version : Nat} {value : Bytes} (hId : keyId < 2 ^ 32) (hVersion : version < 2 ^ 32)
    (hNe : value ≠ [])
    (hSame : ∀ i key, version = i + 1 → (book keyId)[i]? = some key → unwraps aes w value = some key) :
    Refines aes { w with store := w.store.put (encodeWrappedKey keyId version) value } book where
  latest hId' := by
    rw [latestOf_putWrapped]
    exact h.latest hId'
  keys {id i key} hId' hKey := by
    by_cases hSelf : id = keyId ∧ i + 1 = version
    · obtain ⟨rfl, rfl⟩ := hSelf
      rw [recorded_putWrapped_self hNe]
      exact hSame i key rfl hKey
    · rw [recorded_putWrapped_of_ne hId hId' hVersion (h.lt_of_getElem? hKey) hSelf]
      exact h.keys hId' hKey
  bounded := h.bounded
  sized := h.sized
  inForce := h.inForce

theorem putLatest {keyId : Nat} {key : Bytes} (hId : keyId < 2 ^ 32)
    (hKey : recorded aes w keyId ((book keyId).length + 1) = some key) (hSized : key.length = tdbCryptoKeyLen)
    (hRoom : (book keyId).length < tidesdbMaxEncryptionKeyVersions) :
    Refines aes { w with store := w.store.put (encodeLatestKey keyId) (be32Encode ((book keyId).length + 1)) }
      (book.add keyId key) where
  latest {id} hId' := by
    rw [Book.add]
    obtain rfl | hNe := eq_or_ne id keyId
    · have hFits : (book id).length + 1 < 2 ^ 32 := by
        have hLt : (book id).length < 4096 := hRoom
        omega
      rw [latestOf_putLatest_self hFits, update_self, if_neg (by simp), length_append]
      rfl
    · rw [latestOf_putLatest_of_ne hId hId' hNe, update_of_ne hNe]
      exact h.latest hId'
  keys {id i k} hId' hk := by
    rw [recorded_putLatest]
    obtain rfl | hNe := eq_or_ne id keyId
    · rw [Book.add, update_self, getElem?_append] at hk
      split at hk
      · exact h.keys hId' hk
      · rename_i hLong
        obtain ⟨hLt, hEq⟩ := List.getElem?_eq_some_iff.mp hk
        have hi : i = (book id).length := by
          have hOne : i - (book id).length < 1 := hLt
          omega
        rw [hi, hKey, ← hEq]
        exact congrArg some (getElem_singleton _).symm
    · rw [Book.add, update_of_ne hNe] at hk
      exact h.keys hId' hk
  bounded id := by
    obtain rfl | hNe := eq_or_ne id keyId
    · rw [Book.add, update_self, length_append]
      exact hRoom
    · rw [Book.add, update_of_ne hNe]
      exact h.bounded id
  sized {id k} hk := by
    obtain rfl | hNe := eq_or_ne id keyId
    · rw [Book.add, update_self] at hk
      obtain hk | hk := List.mem_append.mp hk
      · exact h.sized hk
      · rw [List.mem_singleton.mp hk]
        exact hSized
    · rw [Book.add, update_of_ne hNe] at hk
      exact h.sized hk
  inForce := h.inForce

end

end Refines

section Custody

variable {failed : Bytes → Bool} {aes : WrapCipher} {w : World} {book : Book}

def Custody (aes : WrapCipher) (book : Book) (w : World) : Prop := ∃ book', book.Later book' ∧ Refines aes w book'

theorem Refines.custody (h : Refines aes w book) : Custody aes book w := ⟨book, .refl book, h⟩

theorem safe_masterGenerationResolve (h : Refines aes w book) :
    Safe (handle failed) (Refines aes · book) (fun generation w' => generation < 2 ^ 32 ∧ Refines aes w' book)
      masterGenerationResolve w := by
  refine Safe.bind (safe_inForce h) ?_
  rintro current w' ⟨rfl, rfl⟩
  split
  · exact ⟨h.inForce, h⟩
  · refine Safe.bind (safe_storeGet h _) ?_
    rintro stored w₁ ⟨-, rfl⟩
    split
    · rename_i generation hField
      have hLt := storedField_lt hField
      refine Safe.bind (safe_setInForce (h.setGeneration hLt)) ?_
      rintro - w₂ rfl
      exact ⟨hLt, h.setGeneration hLt⟩
    · refine Safe.bind (safe_storePut h fun _ => h.putMaster _) ?_
      rintro ok w₂ (⟨rfl, rfl⟩ | ⟨rfl, -, rfl⟩)
      · exact ⟨by decide, h⟩
      · refine Safe.bind (safe_setInForce ((h.putMaster _).setGeneration (by decide))) ?_
        rintro - w₃ rfl
        exact ⟨by decide, (h.putMaster _).setGeneration (by decide)⟩

theorem Refines.stable (book : Book) : Stable aes (Refines aes · book) where
  beside h := h.beside
  rewrap h hId hVersion hNe hRecorded hUnwraps := h.putWrapped hId hVersion hNe fun i key hi hKey => by
    have hBook := h.keys hId hKey
    rw [← hi, hRecorded] at hBook
    rw [hUnwraps, hBook]

theorem safe_recordKey (hAes : aes.Inverse) (h : Refines aes w book) {keyId generation : Nat} (hId : keyId < 2 ^ 32)
    (hGen : generation < 2 ^ 32) (hRoom : (book keyId).length < tidesdbMaxEncryptionKeyVersions) :
    Safe (handle failed) (Custody aes book)
      (fun ok w' => ∃ book', book.Later book' ∧ Refines aes w' book' ∧
        (ok = true → (book keyId).length + 1 ≤ (book' keyId).length))
      (recordKey aes keyId ((book keyId).length + 1) generation) w := by
  have hFits : (book keyId).length + 1 < 2 ^ 32 := by
    have hLt : (book keyId).length < 4096 := hRoom
    omega
  refine (safe_recordKey_of hAes (J := (Refines aes · book)) (K := fun w => ∃ key, Refines aes w (book.add keyId key))
    hGen (fun _ => Refines.custody) (fun _ ⟨key, hs⟩ => ⟨_, book.later_add keyId key, hs⟩) (fun _ _ => Refines.beside)
    (fun _ _ hs hNe => hs.putWrapped hId hFits hNe fun i key hi hKey => ?_)
    (fun _ key hs hSized hRecorded => ⟨key, hs.putLatest hId hRecorded hSized hRoom⟩) h).imp ?_
  · have hLt := (List.getElem?_eq_some_iff.mp hKey).1
    omega
  · intro ok w' hs
    cases ok with
    | false => exact ⟨book, .refl book, hs, nofun⟩
    | true =>
      obtain ⟨key, hs⟩ := hs
      refine ⟨_, book.later_add keyId key, hs, fun _ => ?_⟩
      rw [Book.add, update_self, length_append]
      exact Nat.le_refl _

theorem safe_tableKeyMint (hAes : aes.Inverse) (h : Refines aes w book) {keyId : Nat} (hId : keyId < 2 ^ 32)
    (hNone : book keyId = []) :
    Safe (handle failed) (Custody aes book)
      (fun version w' => ∃ book', book.Later book' ∧ Refines aes w' book' ∧
        (version ≠ keyVersionInvalid → 1 ≤ version ∧ version ≤ (book' keyId).length))
      (tableKeyMint aes keyId) w := by
  refine Safe.bind ((safe_masterGenerationResolve h).mono (fun _ => Refines.custody) fun _ _ hs => hs) ?_
  rintro generation w' ⟨hGen, h'⟩
  split
  · exact ⟨book, .refl book, h', fun hNe => absurd rfl hNe⟩
  · have hLength : (book keyId).length + 1 = generationFirst := by rw [hNone]; rfl
    have hRoom : (book keyId).length < tidesdbMaxEncryptionKeyVersions := by rw [hNone]; decide
    refine Safe.bind (hLength ▸ safe_recordKey hAes h' hId hGen hRoom) ?_
    rintro ok w₁ ⟨book', hLater, h₁, hOk⟩
    cases ok with
    | false => exact ⟨book', hLater, h₁, fun hNe => absurd rfl hNe⟩
    | true => exact ⟨book', hLater, h₁, fun _ => ⟨Nat.le_refl _, hLength ▸ hOk rfl⟩⟩

abbrev reliable := handle fun _ => false

theorem Refines.latest_cases (h : Refines aes w book) {keyId : Nat} (hId : keyId < 2 ^ 32) {stored : Option Bytes}
    (hStored : stored = nonEmpty (w.store.get (encodeLatestKey keyId))) :
    (storedField stored = none ∧ book keyId = []) ∨
      (storedField stored = some (book keyId).length ∧ 0 < (book keyId).length) := by
  have hLatest := h.latest hId
  rw [latestOf, ← storedField_nonEmpty, ← hStored] at hLatest
  split at hLatest
  · exact .inl ⟨hLatest, ‹_›⟩
  · exact .inr ⟨hLatest, List.length_pos_iff.mpr ‹_›⟩

theorem safe_cryptoLatestKeyVersion (hAes : aes.Inverse) (h : Refines aes w book) {keyId : Nat} (hId : keyId < 2 ^ 32) :
    Safe reliable (Custody aes book)
      (fun version w' => ∃ book', book.Later book' ∧ Refines aes w' book' ∧
        (version ≠ keyVersionInvalid → 1 ≤ version ∧ version ≤ (book' keyId).length))
      (cryptoLatestKeyVersion aes keyId) w := by
  refine Safe.bind (safe_cryptoAvailable h.custody) ?_
  rintro available w' ⟨-, rfl⟩
  cases available with
  | false => exact ⟨book, .refl book, h, fun hNe => absurd rfl hNe⟩
  | true =>
    refine Safe.bind (safe_storeGet h.custody _) ?_
    rintro stored w₁ ⟨hStored, rfl⟩
    obtain ⟨hField, hNone⟩ | ⟨hField, hPos⟩ := h.latest_cases hId hStored
    · rw [hField]
      exact safe_tableKeyMint hAes h hId hNone
    · rw [hField]
      exact ⟨book, .refl book, h, fun _ => ⟨hPos, Nat.le_refl _⟩⟩

theorem safe_cryptoGetKey (keyId keyVersion klen : Nat) (w : World) : Safe reliable (· = w)
      (fun r w' => w' = w ∧ r = if w.available then
        (recorded aes w keyId keyVersion).filter fun plain => plain ≠ [] ∧ plain.length ≤ klen else none)
      (cryptoGetKey aes keyId keyVersion klen) w := by
  refine Safe.bind (safe_cryptoAvailable rfl) ?_
  rintro available w' ⟨rfl, rfl⟩
  cases w'.available with
  | false => exact ⟨rfl, rfl⟩
  | true =>
    refine Safe.bind (safe_storeGet (I := (· = w')) rfl _) ?_
    rintro stored w₁ ⟨hStored, rfl⟩
    have hStored : stored = nonEmpty (w₁.store.get (encodeWrappedKey keyId keyVersion)) := hStored
    rw [recorded, ← hStored]
    cases stored with
    | none => exact ⟨rfl, rfl⟩
    | some value =>
      refine Safe.bind (safe_tableKeyUnwrap value w₁) ?_
      rintro r w₂ ⟨rfl, rfl⟩
      exact ⟨rfl, rfl⟩

theorem safe_cryptoRotateTableKey (hAes : aes.Inverse) (h : Refines aes w book) (keyId : Nat) :
    Safe reliable (Custody aes book) (fun _ => Custody aes book) (cryptoRotateTableKey aes keyId) w := by
  refine Safe.bind (safe_cryptoAvailable h.custody) ?_
  rintro available w' ⟨-, rfl⟩
  cases available with
  | false => exact h.custody
  | true =>
    rw [if_pos rfl]
    split
    · exact h.custody
    · rename_i hRange
      have hId : keyId < 2 ^ 32 := by
        have hLe : ¬(keyId < 1 ∨ 255 < keyId) := hRange
        omega
      refine Safe.bind ((safe_masterGenerationResolve h).mono (fun _ => Refines.custody) fun _ _ hs => hs) ?_
      rintro generation w₁ ⟨hGen, h₁⟩
      split
      · exact h₁.custody
      · refine Safe.bind (safe_storeGet h₁.custody _) ?_
        rintro stored w₂ ⟨hStored, rfl⟩
        obtain ⟨hField, hNone⟩ | ⟨hField, -⟩ := h₁.latest_cases hId hStored
        · rw [hField]
          refine Safe.bind (safe_tableKeyMint hAes h₁ hId hNone) ?_
          rintro version w₃ ⟨book', hLater, h₃, -⟩
          exact ⟨book', hLater, h₃⟩
        · rw [hField]
          dsimp only
          split
          · exact h₁.custody
          · rename_i hRoom
            refine (safe_recordKey hAes h₁ hId hGen (Nat.lt_of_not_le hRoom)).imp ?_
            rintro ok w₃ ⟨book', hLater, h₃, -⟩
            exact ⟨book', hLater, h₃⟩

theorem safe_cryptoRotateMasterKey (hAes : aes.Inverse) (h : Refines aes w book) :
    Safe (handle failed) (Refines aes · book) (fun _ w' => Refines aes w' book) (cryptoRotateMasterKey aes) w := by
  refine (Refines.stable book).safe_rotateMaster (P := fun _ => True) hAes (fun _ hs => hs) h
    (fun _ => (safe_masterGenerationResolve h).imp fun _ _ hs => ⟨hs.2, fun _ => trivial⟩) (fun w generation hs _ => ?_)
    fun _ hs => hs
  have hSet := (hs.putMaster (be32Encode ((generation + 1) % 2 ^ 32))).setGeneration
    (Nat.mod_lt (generation + 1) (by decide : 0 < 2 ^ 32))
  exact ⟨hs.putMaster _, hSet, hSet⟩

end Custody

end TideSql.KeyCustody
