import TideSql.Core.CryptoKeyenc
import TideSql.Lib.Program
import TideSql.Lib.Store
import TideSql.Handler.RowRead

/-!
# Custody of the table keys

A master key of the keyring wraps the table keys; the wrapped keys, their latest versions and the master
generation in force are in a reserved family.
-/

namespace TideSql.KeyCustody
open CryptoKeyenc Lib Lib.Program Option List Function

def tdbCryptoKeyLen : Nat := 32
def tidesdbEncKeyLen : Nat := 32
def tidesdbMaxEncryptionKeyId : Nat := 255
def tidesdbMaxEncryptionKeyVersions : Nat := 4096

def keyVersionInvalid : Nat := 2 ^ 32 - 1

def nonEmpty (bytes : Option Bytes) : Option Bytes := bytes.filter (· ≠ [])

@[simp] theorem nonEmpty_eq_some_iff {bytes : Option Bytes} {b : Bytes} :
    nonEmpty bytes = some b ↔ bytes = some b ∧ b ≠ [] := by simp [nonEmpty]

/-- `my_aes_encrypt` and `my_aes_decrypt` under the cipher that wraps table keys; nothing or no bytes
is a failure. -/
structure WrapCipher where
  encrypt : (master src : Bytes) → Option Bytes
  decrypt : (master src : Bytes) → Option Bytes

/-- The reserved family, the keyring (by the generation in the name of a key), and what the module
holds in memory. -/
structure World where
  store : Store Bytes Bytes
  keyring : Nat → Option Bytes
  available : Bool
  masterGeneration : Nat

inductive Effect where
  | available
  | generation
  | setGeneration (generation : Nat)
  | storeGet (key : Bytes)
  | storePut (key value : Bytes)
  | keyringFetch (generation : Nat)
  | keyringGenerate (generation len : Nat)
  | randomBytes (len : Nat)

@[reducible] def Effect.Answer : Effect → Type
  | .available => Bool
  | .generation => Nat
  | .setGeneration _ => Unit
  | .storeGet _ => Option Bytes
  | .storePut _ _ => Bool
  | .keyringFetch _ => Option Bytes
  | .keyringGenerate _ _ => Bool
  | .randomBytes _ => Option Bytes

structure Reply where
  ok : Bool
  byte : Nat → UInt8

def Reply.bytes (reply : Reply) (len : Nat) : Bytes := (range len).map reply.byte

/-- A failed read and a key that is not there give the same answer; the keyring does not generate a key that it has.
-/
def handle (failed : Bytes → Bool) : (e : Effect) → Reply → World → e.Answer × World
  | .available, _, w => (w.available, w)
  | .generation, _, w => (w.masterGeneration, w)
  | .setGeneration generation, _, w => ((), { w with masterGeneration := generation })
  | .storeGet key, _, w => (if failed key then none else nonEmpty (w.store.get key), w)
  | .storePut key value, reply, w =>
    if reply.ok ∧ value ≠ [] then (true, { w with store := w.store.put key value }) else (false, w)
  | .keyringFetch generation, _, w => (nonEmpty (w.keyring generation), w)
  | .keyringGenerate generation len, reply, w =>
    if reply.ok ∧ w.keyring generation = none then
      (true, { w with keyring := update w.keyring generation (some (reply.bytes len)) })
    else (false, w)
  | .randomBytes len, reply, w => (if reply.ok then some (reply.bytes len) else none, w)

abbrev M := Prog Effect Effect.Answer

def cryptoAvailable : M Bool := perform Effect.available

def inForce : M Nat := perform Effect.generation

def setInForce (generation : Nat) : M Unit := perform (Effect.setGeneration generation)

def storeGet (key : Bytes) : M (Option Bytes) := perform (Effect.storeGet key)

def storePut (key value : Bytes) : M Bool := perform (Effect.storePut key value)

def keyringFetch (generation : Nat) : M (Option Bytes) := perform (Effect.keyringFetch generation)

def keyringGenerate (generation len : Nat) : M Bool := perform (Effect.keyringGenerate generation len)

def cryptoRandomBytes (len : Nat) : M (Option Bytes) := perform (Effect.randomBytes len)

def storedField (stored : Option Bytes) : Option Nat :=
  (stored.filter fun bytes => bytes.length = fieldLen).map be32Decode

def masterKeyGet (generation : Nat) (mint : Bool) : M (Option Bytes) := do
  match ← keyringFetch generation with
  | some key => return some key
  | none =>
    if mint then
      if ← keyringGenerate generation tdbCryptoKeyLen then keyringFetch generation
      else return none
    else return none

def masterGenerationResolve : M Nat := do
  let current ← inForce
  if current ≠ generationNone then return current
  else
    match storedField (← storeGet encodeMasterSeqKey) with
    | some generation =>
      setInForce generation
      return generation
    | none =>
      if ← storePut encodeMasterSeqKey (be32Encode generationFirst) then
        setInForce generationFirst
        return generationFirst
      else return generationNone

section Entry

variable (aes : WrapCipher)

def tableKeyUnwrap (stored : Bytes) : M (Option Bytes) :=
  match parseWrappedValue stored with
  | none => return none
  | some (generation, wrapped) => do
    match ← masterKeyGet generation false with
    | none => return none
    | some master => return nonEmpty (aes.decrypt master wrapped)

def tableKeyWrap (plain : Bytes) (generation : Nat) : M (Option Bytes) := do
  match ← masterKeyGet generation true with
  | none => return none
  | some master => return (aes.encrypt master plain).bind (frameWrappedValue generation)

/-- Wrap a fresh key and record it as the given version; the version pointer is written last. -/
def recordKey (keyId version generation : Nat) : M Bool := do
  match ← cryptoRandomBytes tdbCryptoKeyLen with
  | none => return false
  | some tableKey =>
    match ← tableKeyWrap aes tableKey generation with
    | none => return false
    | some wrapped =>
      if ← storePut (encodeWrappedKey keyId version) wrapped then
        storePut (encodeLatestKey keyId) (be32Encode version)
      else return false

def tableKeyMint (keyId : Nat) : M Nat := do
  let generation ← masterGenerationResolve
  if generation = generationNone then return keyVersionInvalid
  else if ← recordKey aes keyId generationFirst generation then return generationFirst
  else return keyVersionInvalid

def cryptoLatestKeyVersion (keyId : Nat) : M Nat := do
  if ← cryptoAvailable then
    match storedField (← storeGet (encodeLatestKey keyId)) with
    | some version => return version
    | none => tableKeyMint aes keyId
  else return keyVersionInvalid

def cryptoGetKey (keyId keyVersion klen : Nat) : M (Option Bytes) := do
  if ← cryptoAvailable then
    match ← storeGet (encodeWrappedKey keyId keyVersion) with
    | none => return none
    | some stored => return (← tableKeyUnwrap aes stored).filter fun plain => plain ≠ [] ∧ plain.length ≤ klen
  else return none

def cryptoRotateTableKey (keyId : Nat) : M Bool := do
  if ← cryptoAvailable then
    if keyId < 1 ∨ tidesdbMaxEncryptionKeyId < keyId then return false
    else
      let generation ← masterGenerationResolve
      if generation = generationNone then return false
      else
        match storedField (← storeGet (encodeLatestKey keyId)) with
        | none => return (← tableKeyMint aes keyId) ≠ keyVersionInvalid
        | some current =>
          if tidesdbMaxEncryptionKeyVersions ≤ current then return false
          else recordKey aes keyId (current + 1) generation
  else return false

def rewrapKey (next keyId version : Nat) : M Bool := do
  match ← storeGet (encodeWrappedKey keyId version) with
  | none => return true
  | some stored =>
    match ← tableKeyUnwrap aes stored with
    | none => return false
    | some plain =>
      match ← tableKeyWrap aes plain next with
      | none => return false
      | some rewrapped => storePut (encodeWrappedKey keyId version) rewrapped

def versionsUpTo (latest : Nat) : List Nat :=
  (range (min latest tidesdbMaxEncryptionKeyVersions)).map (· + generationFirst)

def rewrapKeyId (next keyId : Nat) : M Bool := do
  match storedField (← storeGet (encodeLatestKey keyId)) with
  | none => return true
  | some latest => walk (rewrapKey aes next keyId) (versionsUpTo latest)

def cryptoRotateMasterKey : M Bool := do
  if ← cryptoAvailable then
    let current ← masterGenerationResolve
    if current = generationNone then return false
    else
      let next := (current + 1) % 2 ^ 32
      match ← masterKeyGet next true with
      | none => return false
      | some _ =>
        if ← walk (rewrapKeyId aes next) ((range tidesdbMaxEncryptionKeyId).map (· + 1)) then
          if ← storePut encodeMasterSeqKey (be32Encode next) then
            setInForce next
            return true
          else return false
        else return false
  else return false

end Entry

section Calls

variable {failed : Bytes → Bool} {I : World → Prop} {w : World}

theorem safe_cryptoAvailable (hI : I w) :
    Safe (handle failed) I (fun r w' => r = w.available ∧ w' = w) cryptoAvailable w :=
  safe_perform fun _ => ⟨hI, rfl, rfl⟩

theorem safe_inForce (hI : I w) : Safe (handle failed) I (fun r w' => r = w.masterGeneration ∧ w' = w) inForce w :=
  safe_perform fun _ => ⟨hI, rfl, rfl⟩

theorem safe_setInForce {generation : Nat} (hSet : I { w with masterGeneration := generation }) :
    Safe (handle failed) I (fun _ w' => w' = { w with masterGeneration := generation }) (setInForce generation) w :=
  safe_perform fun _ => ⟨hSet, rfl⟩

theorem safe_storeGet (hI : I w) (key : Bytes) :
    Safe (handle failed) I (fun r w' => r = (if failed key then none else nonEmpty (w.store.get key)) ∧ w' = w)
      (storeGet key) w := safe_perform fun _ => ⟨hI, rfl, rfl⟩

theorem safe_storePut {key value : Bytes} (hI : I w) (hPut : value ≠ [] → I { w with store := w.store.put key value }) :
    Safe (handle failed) I
      (fun ok w' => (ok = false ∧ w' = w) ∨ (ok = true ∧ value ≠ [] ∧ w' = { w with store := w.store.put key value }))
      (storePut key value) w := by
  refine safe_perform fun reply => ?_
  rw [handle]
  split
  · rename_i hOk
    exact ⟨hPut hOk.2, .inr ⟨rfl, hOk.2, rfl⟩⟩
  · exact ⟨hI, .inl ⟨rfl, rfl⟩⟩

theorem safe_keyringFetch (hI : I w) (generation : Nat) :
    Safe (handle failed) I (fun r w' => r = nonEmpty (w.keyring generation) ∧ w' = w) (keyringFetch generation) w :=
  safe_perform fun _ => ⟨hI, rfl, rfl⟩

theorem safe_keyringGenerate {generation len : Nat} (hI : I w)
    (hNew : w.keyring generation = none → ∀ key, I { w with keyring := update w.keyring generation (some key) }) :
    Safe (handle failed) I
      (fun ok w' => (ok = false ∧ w' = w) ∨ (ok = true ∧ w.keyring generation = none ∧
        ∃ key, w' = { w with keyring := update w.keyring generation (some key) }))
      (keyringGenerate generation len) w := by
  refine safe_perform fun reply => ?_
  rw [handle]
  split
  · rename_i hOk
    exact ⟨hNew hOk.2 _, .inr ⟨rfl, hOk.2, _, rfl⟩⟩
  · exact ⟨hI, .inl ⟨rfl, rfl⟩⟩

theorem safe_cryptoRandomBytes (hI : I w) (len : Nat) :
    Safe (handle failed) I (fun r w' => (∀ bytes, r = some bytes → bytes.length = len) ∧ w' = w)
      (cryptoRandomBytes len) w := by
  refine safe_perform fun reply => ⟨hI, fun bytes hBytes => ?_, rfl⟩
  rw [handle] at hBytes
  split at hBytes
  · cases hBytes
    simp [Reply.bytes]
  · cases hBytes

end Calls

/-- Nothing but new keys of the keyring. -/
structure Beside (w w' : World) : Prop where
  store : w'.store = w.store
  masterGeneration : w'.masterGeneration = w.masterGeneration
  keyring {generation : Nat} {key : Bytes} : w.keyring generation = some key → w'.keyring generation = some key

theorem Beside.refl (w : World) : Beside w w := ⟨rfl, rfl, id⟩

section Unwrap

variable (aes : WrapCipher)

def unwraps (w : World) (stored : Bytes) : Option Bytes :=
  (parseWrappedValue stored).bind fun framed =>
    (nonEmpty (w.keyring framed.1)).bind fun master => nonEmpty (aes.decrypt master framed.2)

def recorded (w : World) (keyId version : Nat) : Option Bytes :=
  (nonEmpty (w.store.get (encodeWrappedKey keyId version))).bind (unwraps aes w)

def latestOf (w : World) (keyId : Nat) : Option Nat := storedField (w.store.get (encodeLatestKey keyId))

def masterOf (w : World) : Option Nat := storedField (w.store.get encodeMasterSeqKey)

theorem storedField_nonEmpty (stored : Option Bytes) : storedField (nonEmpty stored) = storedField stored := by
  cases stored with
  | none => rfl
  | some bytes =>
    obtain rfl | hNe := eq_or_ne bytes []
    · rfl
    · rw [nonEmpty_eq_some_iff.mpr ⟨rfl, hNe⟩]

theorem storedField_be32Encode {v : Nat} (hv : v < 2 ^ 32) : storedField (some (be32Encode v)) = some v := by
  rw [storedField, filter_some_pos (by simp), map_some, be32Decode_be32Encode, Nat.mod_eq_of_lt hv]

theorem storedField_lt {stored : Option Bytes} {v : Nat} (h : storedField stored = some v) : v < 2 ^ 32 := by
  obtain ⟨bytes, hBytes, rfl⟩ := map_eq_some_iff.mp h
  exact be32Decode_lt (by simpa using (filter_eq_some_iff.mp hBytes).2)

variable {aes} {w w' : World}

theorem unwraps_mono (hKeyring : ∀ {generation key}, w.keyring generation = some key → w'.keyring generation = some key)
    {stored key : Bytes} (h : unwraps aes w stored = some key) : unwraps aes w' stored = some key := by
  obtain ⟨framed, hFramed, h⟩ := bind_eq_some_iff.mp h
  obtain ⟨master, hMaster, hPlain⟩ := bind_eq_some_iff.mp h
  obtain ⟨hKey, hNe⟩ := nonEmpty_eq_some_iff.mp hMaster
  rw [unwraps, hFramed, bind_some, nonEmpty_eq_some_iff.mpr ⟨hKeyring hKey, hNe⟩, bind_some, hPlain]

theorem recorded_beside (hBeside : Beside w w') {keyId version : Nat} {key : Bytes}
    (h : recorded aes w keyId version = some key) : recorded aes w' keyId version = some key := by
  obtain ⟨stored, hStored, hUnwraps⟩ := bind_eq_some_iff.mp h
  rw [recorded, hBeside.store, hStored, bind_some]
  exact unwraps_mono hBeside.keyring hUnwraps

variable {keyId version : Nat} {value : Bytes}

@[simp] theorem recorded_putMaster (id v : Nat) :
    recorded aes { w with store := w.store.put encodeMasterSeqKey value } id v = recorded aes w id v := by
  rw [recorded, Store.get_put, if_neg (encodeWrappedKey_ne_masterSeqKey id v)]
  rfl

@[simp] theorem latestOf_putMaster (id : Nat) :
    latestOf { w with store := w.store.put encodeMasterSeqKey value } id = latestOf w id := by
  rw [latestOf, Store.get_put, if_neg (encodeLatestKey_ne_masterSeqKey id), ← latestOf]

theorem masterOf_putMaster {generation : Nat} (h : generation < 2 ^ 32) :
    masterOf { w with store := w.store.put encodeMasterSeqKey (be32Encode generation) } = some generation := by
  rw [masterOf, Store.get_put, if_pos rfl, storedField_be32Encode h]

@[simp] theorem latestOf_putWrapped (id : Nat) :
    latestOf { w with store := w.store.put (encodeWrappedKey keyId version) value } id = latestOf w id := by
  rw [latestOf, Store.get_put, if_neg (encodeLatestKey_ne_wrappedKey id keyId version), ← latestOf]

@[simp] theorem masterOf_putWrapped :
    masterOf { w with store := w.store.put (encodeWrappedKey keyId version) value } = masterOf w := by
  rw [masterOf, Store.get_put, if_neg (encodeWrappedKey_ne_masterSeqKey keyId version).symm, ← masterOf]

theorem recorded_putWrapped_self (hNe : value ≠ []) :
    recorded aes { w with store := w.store.put (encodeWrappedKey keyId version) value } keyId version =
      unwraps aes w value := by
  rw [recorded, Store.get_put, if_pos rfl, nonEmpty_eq_some_iff.mpr ⟨rfl, hNe⟩, bind_some]
  rfl

theorem recorded_putWrapped_of_ne {id v : Nat} (hId : keyId < 2 ^ 32) (hId' : id < 2 ^ 32) (hVersion : version < 2 ^ 32)
    (hVersion' : v < 2 ^ 32) (hNe : ¬(id = keyId ∧ v = version)) :
    recorded aes { w with store := w.store.put (encodeWrappedKey keyId version) value } id v = recorded aes w id v := by
  rw [recorded, Store.get_put, if_neg fun hEq => hNe (encodeWrappedKey_inj hId' hId hVersion' hVersion hEq)]
  rfl

@[simp] theorem recorded_putLatest (id v : Nat) :
    recorded aes { w with store := w.store.put (encodeLatestKey keyId) value } id v = recorded aes w id v := by
  rw [recorded, Store.get_put, if_neg (encodeLatestKey_ne_wrappedKey keyId id v).symm]
  rfl

@[simp] theorem masterOf_putLatest :
    masterOf { w with store := w.store.put (encodeLatestKey keyId) value } = masterOf w := by
  rw [masterOf, Store.get_put, if_neg (encodeLatestKey_ne_masterSeqKey keyId).symm, ← masterOf]

theorem latestOf_putLatest_self (h : version < 2 ^ 32) :
    latestOf { w with store := w.store.put (encodeLatestKey keyId) (be32Encode version) } keyId = some version := by
  rw [latestOf, Store.get_put, if_pos rfl, storedField_be32Encode h]

theorem latestOf_putLatest_of_ne {id : Nat} (hId : keyId < 2 ^ 32) (hId' : id < 2 ^ 32) (hNe : id ≠ keyId) :
    latestOf { w with store := w.store.put (encodeLatestKey keyId) value } id = latestOf w id := by
  rw [latestOf, Store.get_put, if_neg fun hEq => hNe (encodeLatestKey_inj hId' hId hEq), ← latestOf]

end Unwrap

section Wrap

variable {failed : Bytes → Bool} {aes : WrapCipher} {w : World}

theorem Beside.generated {generation : Nat} (hNone : w.keyring generation = none) (key : Bytes) :
    Beside w { w with keyring := update w.keyring generation (some key) } where
  store := rfl
  masterGeneration := rfl
  keyring {g k} hKey := by
    have hNe : g ≠ generation := fun hEq => by
      rw [hEq, hNone] at hKey
      cases hKey
    exact (update_of_ne hNe _ _).trans hKey

theorem safe_masterKeyGet (generation : Nat) (mint : Bool) (w : World) : Safe (handle failed) (Beside w)
      (fun r w' => Beside w w' ∧ ∀ master, r = some master → nonEmpty (w'.keyring generation) = some master)
      (masterKeyGet generation mint) w := by
  refine Safe.bind (safe_keyringFetch (Beside.refl w) generation) ?_
  rintro r w' ⟨rfl, rfl⟩
  cases hKey : nonEmpty (w'.keyring generation) with
  | some key => exact ⟨Beside.refl w', fun master hMaster => hKey.trans hMaster⟩
  | none =>
    cases mint with
    | false => exact ⟨Beside.refl w', nofun⟩
    | true =>
      refine Safe.bind (safe_keyringGenerate (Beside.refl w') Beside.generated) ?_
      rintro ok w₁ (⟨rfl, rfl⟩ | ⟨rfl, hNone, key, rfl⟩)
      · exact ⟨Beside.refl w₁, nofun⟩
      · refine (safe_keyringFetch (Beside.generated hNone key) generation).imp ?_
        rintro r w₂ ⟨rfl, rfl⟩
        exact ⟨Beside.generated hNone key, fun master hMaster => hMaster⟩

theorem safe_tableKeyUnwrap (stored : Bytes) (w : World) :
    Safe (handle failed) (· = w) (fun r w' => r = unwraps aes w stored ∧ w' = w) (tableKeyUnwrap aes stored) w := by
  rw [tableKeyUnwrap, unwraps]
  cases parseWrappedValue stored with
  | none => exact ⟨rfl, rfl⟩
  | some framed =>
    refine Safe.bind (Safe.bind (safe_keyringFetch (I := (· = w)) rfl framed.1) ?_) (Q := fun r w' =>
      r = nonEmpty (w.keyring framed.1) ∧ w' = w) ?_
    · rintro r w' ⟨rfl, rfl⟩
      cases nonEmpty (w'.keyring framed.1) with
      | none | some key => exact ⟨rfl, rfl⟩
    · rintro r w' ⟨rfl, rfl⟩
      cases hMaster : nonEmpty (w'.keyring framed.1) with
      | none | some master => exact ⟨by rw [bind_some, hMaster]; rfl, rfl⟩

def WrapCipher.Inverse (aes : WrapCipher) : Prop :=
  ∀ master plain wrapped, aes.encrypt master plain = some wrapped → aes.decrypt master wrapped = some plain

theorem safe_tableKeyWrap (hAes : aes.Inverse) {plain : Bytes} (hPlain : plain ≠ []) {generation : Nat}
    (hGen : generation < 2 ^ 32) (w : World) :
    Safe (handle failed) (Beside w)
      (fun r w' => Beside w w' ∧ ∀ value, r = some value → value ≠ [] ∧ unwraps aes w' value = some plain)
      (tableKeyWrap aes plain generation) w := by
  refine Safe.bind (safe_masterKeyGet generation true w) ?_
  rintro r w' ⟨hBeside, hMaster⟩
  cases r with
  | none => exact ⟨hBeside, nofun⟩
  | some master =>
    refine ⟨hBeside, fun value hValue => ?_⟩
    obtain ⟨wrapped, hWrapped, hFramed⟩ := bind_eq_some_iff.mp hValue
    refine ⟨frameWrappedValue_ne_nil hFramed, ?_⟩
    rw [unwraps, parseWrappedValue_frameWrappedValue hGen hFramed, bind_some, hMaster master rfl,
      bind_some, hAes _ _ _ hWrapped, nonEmpty_eq_some_iff]
    exact ⟨rfl, hPlain⟩

theorem safe_recordKey_of (hAes : aes.Inverse) {I J K : World → Prop} {keyId version generation : Nat}
    (hGen : generation < 2 ^ 32) (hJ : ∀ w, J w → I w) (hK : ∀ w, K w → I w)
    (hBeside : ∀ w w', J w → Beside w w' → J w')
    (hWrapped : ∀ w value, J w → value ≠ [] → J { w with store := w.store.put (encodeWrappedKey keyId version) value })
    (hLatest : ∀ w key, J w → key.length = tdbCryptoKeyLen → recorded aes w keyId version = some key →
      K { w with store := w.store.put (encodeLatestKey keyId) (be32Encode version) })
    (h : J w) :
    Safe (handle failed) I (fun ok w' => if ok then K w' else J w') (recordKey aes keyId version generation) w := by
  refine Safe.bind (safe_cryptoRandomBytes (hJ w h) _) ?_
  rintro r w' ⟨hLength, rfl⟩
  cases r with
  | none => exact h
  | some key =>
    have hSized := hLength key rfl
    have hNe : key ≠ [] := length_pos_iff.mp (hSized ▸ by decide)
    refine Safe.bind ((safe_tableKeyWrap hAes hNe hGen w').mono (fun w₁ hs => hJ w₁ (hBeside w' w₁ h hs))
      fun _ _ hs => hs) ?_
    rintro r w₁ ⟨hBeside₁, hValue⟩
    have h₁ := hBeside w' w₁ h hBeside₁
    cases r with
    | none => exact h₁
    | some value =>
      obtain ⟨hValueNe, hUnwraps⟩ := hValue value rfl
      have h₂ := hWrapped w₁ value h₁ hValueNe
      refine Safe.bind (safe_storePut (hJ w₁ h₁) fun _ => hJ _ h₂) ?_
      rintro ok w₂ (⟨rfl, rfl⟩ | ⟨rfl, -, rfl⟩)
      · exact h₁
      · have h₃ := hLatest _ key h₂ hSized ((recorded_putWrapped_self hValueNe).trans hUnwraps)
        refine (safe_storePut (hJ _ h₂) fun _ => hK _ h₃).imp ?_
        rintro ok w₃ (⟨rfl, rfl⟩ | ⟨rfl, -, rfl⟩)
        · exact h₂
        · exact h₃

structure Stable (aes : WrapCipher) (J : World → Prop) : Prop where
  beside {w w' : World} : J w → Beside w w' → J w'
  rewrap {w : World} {keyId version : Nat} {value plain : Bytes} : J w → keyId < 2 ^ 32 → version < 2 ^ 32 →
    value ≠ [] → recorded aes w keyId version = some plain → unwraps aes w value = some plain →
    J { w with store := w.store.put (encodeWrappedKey keyId version) value }

theorem Stable.safe_rewrapKey {J : World → Prop} (hJ : Stable aes J) (hAes : aes.Inverse) {next keyId version : Nat}
    (hId : keyId < 2 ^ 32) (hVersion : version < 2 ^ 32) (hNext : next < 2 ^ 32) (h : J w) :
    Safe (handle failed) J (fun _ => J) (rewrapKey aes next keyId version) w := by
  refine Safe.bind (safe_storeGet h _) ?_
  rintro stored w' ⟨hStored, rfl⟩
  cases stored with
  | none => exact h
  | some value =>
    have hValue : nonEmpty (w'.store.get (encodeWrappedKey keyId version)) = some value := by
      split at hStored
      · cases hStored
      · exact hStored.symm
    refine Safe.bind ((safe_tableKeyUnwrap value w').mono (fun _ hs => hs ▸ h) fun _ _ hs => hs) ?_
    rintro r w₁ ⟨hUnwraps, rfl⟩
    cases r with
    | none => exact h
    | some plain =>
      have hRecorded : recorded aes w₁ keyId version = some plain := by
        rw [recorded, hValue, bind_some, hUnwraps]
      have hNe : plain ≠ [] := by
        obtain ⟨_, _, hBind⟩ := bind_eq_some_iff.mp hUnwraps.symm
        obtain ⟨_, _, hPlain⟩ := bind_eq_some_iff.mp hBind
        exact (nonEmpty_eq_some_iff.mp hPlain).2
      refine Safe.bind ((safe_tableKeyWrap hAes hNe hNext w₁).mono (fun _ => hJ.beside h) fun _ _ hs => hs) ?_
      rintro r w₂ ⟨hBeside, hRewrapped⟩
      have h₂ := hJ.beside h hBeside
      cases r with
      | none => exact h₂
      | some rewrapped =>
        obtain ⟨hRewrappedNe, hAgain⟩ := hRewrapped rewrapped rfl
        have h₃ := hJ.rewrap h₂ hId hVersion hRewrappedNe (recorded_beside hBeside hRecorded) hAgain
        refine (safe_storePut h₂ fun _ => h₃).imp ?_
        rintro ok w₃ (⟨rfl, rfl⟩ | ⟨rfl, -, rfl⟩)
        · exact h₂
        · exact h₃

theorem lt_of_mem_versionsUpTo {latest version : Nat} (h : version ∈ versionsUpTo latest) : version < 2 ^ 32 := by
  obtain ⟨i, hi, rfl⟩ := mem_map.mp h
  have hLt : i < min latest 4096 := mem_range.mp hi
  have hFirst : generationFirst = 1 := rfl
  omega

theorem Stable.safe_rewrapAll {J : World → Prop} (hJ : Stable aes J) (hAes : aes.Inverse) {next : Nat}
    (hNext : next < 2 ^ 32) (h : J w) :
    Safe (handle failed) J (fun _ => J)
      (walk (rewrapKeyId aes next) ((range tidesdbMaxEncryptionKeyId).map (· + 1))) w := by
  refine safe_walk (fun keyId hMem w h => ?_) h
  have hId : keyId < 2 ^ 32 := by
    obtain ⟨i, hi, rfl⟩ := mem_map.mp hMem
    have hLt : i < 255 := mem_range.mp hi
    omega
  refine Safe.bind (safe_storeGet h _) ?_
  rintro stored w' ⟨-, rfl⟩
  split
  · exact h
  · exact safe_walk (fun version hMem w h => hJ.safe_rewrapKey hAes hId (lt_of_mem_versionsUpTo hMem) hNext h) h

theorem Stable.safe_rotateMaster {I J R : World → Prop} {P : Nat → Prop} (hJ : Stable aes J) (hAes : aes.Inverse)
    (hI : ∀ w, J w → I w) (h : J w)
    (hResolve : w.available = true → Safe (handle failed) I (fun generation w' => J w' ∧ (generation ≠ generationNone →
      P generation)) masterGenerationResolve w)
    (hPut : ∀ w generation, J w → P generation →
      I { w with store := w.store.put encodeMasterSeqKey (be32Encode ((generation + 1) % 2 ^ 32)) } ∧
      I { w with
        store := w.store.put encodeMasterSeqKey (be32Encode ((generation + 1) % 2 ^ 32))
        masterGeneration := (generation + 1) % 2 ^ 32 } ∧
      R { w with
        store := w.store.put encodeMasterSeqKey (be32Encode ((generation + 1) % 2 ^ 32))
        masterGeneration := (generation + 1) % 2 ^ 32 })
    (hR : ∀ w, J w → R w) : Safe (handle failed) I (fun _ => R) (cryptoRotateMasterKey aes) w := by
  refine Safe.bind (safe_cryptoAvailable (hI w h)) ?_
  rintro available w' ⟨hAvailable, rfl⟩
  cases available with
  | false => exact hR w' h
  | true =>
    refine Safe.bind (hResolve hAvailable.symm) ?_
    rintro current w₁ ⟨h₁, hCurrent⟩
    split
    · exact hR w₁ h₁
    · rename_i hSome
      have hNext : (current + 1) % 2 ^ 32 < 2 ^ 32 := Nat.mod_lt _ (by decide)
      refine Safe.bind ((safe_masterKeyGet _ true w₁).mono (fun w hs => hI w (hJ.beside h₁ hs)) fun _ _ hs => hs) ?_
      rintro r w₂ ⟨hBeside, -⟩
      have h₂ := hJ.beside h₁ hBeside
      cases r with
      | none => exact hR w₂ h₂
      | some master =>
        refine Safe.bind ((hJ.safe_rewrapAll hAes hNext h₂).mono hI fun _ _ hs => hs) fun ok w₃ h₃ => ?_
        cases ok with
        | false => exact hR w₃ h₃
        | true =>
          obtain ⟨hStored, hSet, hDone⟩ := hPut w₃ current h₃ (hCurrent hSome)
          refine Safe.bind (safe_storePut (hI w₃ h₃) fun _ => hStored) ?_
          rintro ok w₄ (⟨rfl, rfl⟩ | ⟨rfl, -, rfl⟩)
          · exact hR w₄ h₃
          · refine Safe.bind (safe_setInForce hSet) ?_
            rintro - w₅ rfl
            exact hDone

end Wrap

end TideSql.KeyCustody
