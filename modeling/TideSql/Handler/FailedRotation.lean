import TideSql.Handler.KeyCustody

/-!
# A rotation of the master key that fails

The rotation writes the re-wrapped keys one after the other and undoes none of them, and it may seed the
master generation before it gives up.
-/

namespace TideSql.FailedRotation
open CryptoKeyenc KeyCustody Lib Lib.Program Option Function

/-- The calls, each of which may fail. A cipher that fails has the effect of a master key that is not fetched. -/
def faulty : (e : Effect) → Reply → World → e.Answer × World
  | .storeGet key, reply, w => (if reply.ok then nonEmpty (w.store.get key) else none, w)
  | .keyringFetch generation, reply, w => (if reply.ok then nonEmpty (w.keyring generation) else none, w)
  | e, reply, w => handle (fun _ => false) e reply w

theorem faulty_storePut (key value : Bytes) (reply : Reply) (w : World) :
    faulty (.storePut key value) reply w = handle (fun _ => false) (.storePut key value) reply w := rfl

theorem faulty_keyringGenerate (generation len : Nat) (reply : Reply) (w : World) :
    faulty (.keyringGenerate generation len) reply w =
      handle (fun _ => false) (.keyringGenerate generation len) reply w := rfl

structure Untouched (w w' : World) : Prop where
  wrapped (keyId version : Nat) :
    w'.store.get (encodeWrappedKey keyId version) = w.store.get (encodeWrappedKey keyId version)
  latest (keyId : Nat) : w'.store.get (encodeLatestKey keyId) = w.store.get (encodeLatestKey keyId)
  master : w'.store.get encodeMasterSeqKey = w.store.get encodeMasterSeqKey

inductive Minted (generation : Nat) (keyring : Nat → Option Bytes) : (Nat → Option Bytes) → Bytes → Prop
  | held {master : Bytes} : keyring generation = some master → master ≠ [] → Minted generation keyring keyring master
  | fresh {master : Bytes} : keyring generation = none → master.length = tdbCryptoKeyLen →
    Minted generation keyring (update keyring generation (some master)) master

theorem Minted.key {generation : Nat} {keyring keyring' : Nat → Option Bytes} {master : Bytes}
    (h : Minted generation keyring keyring' master) : keyring' generation = some master ∧ master ≠ [] := by
  cases h with
  | held hKey hNe => exact ⟨hKey, hNe⟩
  | fresh _ hLength =>
    refine ⟨update_self .., ?_⟩
    rintro rfl
    cases hLength

section Condition

variable (aes : WrapCipher) (w : World)

def keyIds : List Nat := (List.range tidesdbMaxEncryptionKeyId).map (· + 1)

def currentOf : Nat := if w.masterGeneration ≠ generationNone then w.masterGeneration else generationFirst

def nextOf : Nat := (currentOf w + 1) % 2 ^ 32

def rewrapped (next keyId version : Nat) : Option Bytes :=
  (recorded aes w keyId version).bind fun plain =>
    (w.keyring next).bind fun master => (aes.encrypt master plain).bind (frameWrappedValue next)

def Rewrites (next : Nat) : Prop :=
  ∃ keyId ∈ keyIds, ∃ latest, latestOf w keyId = some latest ∧ ∃ version ∈ versionsUpTo latest,
    ∃ value, rewrapped aes w next keyId version = some value ∧ w.store.get (encodeWrappedKey keyId version) ≠ some value

/-- The generation is known, or recorded as the one it is seeded with, and whatever master key the keyring
comes up with no stored key changes under it. -/
def Traceless : Prop :=
  (w.masterGeneration = generationNone → w.store.get encodeMasterSeqKey = some (be32Encode generationFirst)) ∧
    ∀ keyring master, Minted (nextOf w) w.keyring keyring master →
      ¬Rewrites aes { w with keyring := keyring } (nextOf w)

end Condition

structure Same (w w' : World) : Prop where
  store (key : Bytes) : w'.store.get key = w.store.get key
  keyring : w'.keyring = w.keyring

namespace Same

variable {aes : WrapCipher} {w w₁ w₂ : World}

theorem refl (w : World) : Same w w := ⟨fun _ => rfl, rfl⟩

theorem recorded (h : Same w w₁) (keyId version : Nat) :
    recorded aes w₁ keyId version = recorded aes w keyId version := by
  have hUnwraps : unwraps aes w₁ = unwraps aes w := by
    funext stored
    rw [unwraps, unwraps, h.keyring]
  rw [KeyCustody.recorded, KeyCustody.recorded, h.store, hUnwraps]

theorem latestOf (h : Same w w₁) (keyId : Nat) : latestOf w₁ keyId = latestOf w keyId := by
  rw [KeyCustody.latestOf, KeyCustody.latestOf, h.store]

theorem put (h : Same w w₁) {key value : Bytes} (hValue : w.store.get key = some value) :
    Same w { w₁ with store := w₁.store.put key value } where
  store k := by
    rw [Store.get_put]
    split
    · rename_i hKey
      rw [hKey, hValue]
    · exact h.store k
  keyring := h.keyring

end Same

section Sufficient

variable {aes : WrapCipher} {w : World}

theorem safe_storeGet (key : Bytes) :
    Safe faulty (fun _ => True) (fun r w' => (r = none ∨ r = nonEmpty (w.store.get key)) ∧ w' = w) (storeGet key)
      w := by
  refine fun reply => ⟨trivial, ?_, rfl⟩
  rw [faulty]
  cases reply.ok with
  | false => exact .inl rfl
  | true => exact .inr rfl

theorem safe_keyringFetch (generation : Nat) :
    Safe faulty (fun _ => True) (fun r w' => (r = none ∨ r = nonEmpty (w.keyring generation)) ∧ w' = w)
      (keyringFetch generation) w := by
  refine fun reply => ⟨trivial, ?_, rfl⟩
  rw [faulty]
  cases reply.ok with
  | false => exact .inl rfl
  | true => exact .inr rfl

theorem safe_storePut (key value : Bytes) : Safe faulty (fun _ => True) (fun ok w' => (ok = false ∧ w' = w) ∨
      (ok = true ∧ w' = { w with store := w.store.put key value })) (storePut key value) w := by
  refine fun reply => ⟨trivial, ?_⟩
  rw [faulty_storePut, handle]
  split
  · exact .inr ⟨rfl, rfl⟩
  · exact .inl ⟨rfl, rfl⟩

theorem safe_keyringGenerate (generation len : Nat) :
    Safe faulty (fun _ => True) (fun ok w' => (ok = false ∧ w' = w) ∨ (ok = true ∧ w.keyring generation = none ∧
        ∃ key : Bytes, key.length = len ∧ w' = { w with keyring := update w.keyring generation (some key) }))
      (keyringGenerate generation len) w := by
  refine fun reply => ⟨trivial, ?_⟩
  rw [faulty_keyringGenerate, handle]
  split
  · rename_i hOk
    exact .inr ⟨rfl, hOk.2, _, by simp [Reply.bytes], rfl⟩
  · exact .inl ⟨rfl, rfl⟩

theorem safe_masterKeyGet (generation : Nat) (mint : Bool) :
    Safe faulty (fun _ => True) (fun r w' => (r = none ∧ w'.store = w.store) ∨
      ∃ keyring master, r = some master ∧ Minted generation w.keyring keyring master ∧
        w' = { w with keyring := keyring })
      (masterKeyGet generation mint) w := by
  refine Safe.bind (safe_keyringFetch generation) ?_
  rintro r w' ⟨hKey, rfl⟩
  cases r with
  | some key =>
    obtain ⟨hHeld, hNe⟩ := nonEmpty_eq_some_iff.mp (hKey.resolve_left (some_ne_none _)).symm
    exact .inr ⟨w'.keyring, key, rfl, .held hHeld hNe, rfl⟩
  | none =>
    cases mint with
    | false => exact .inl ⟨rfl, rfl⟩
    | true =>
      refine Safe.bind (safe_keyringGenerate generation tdbCryptoKeyLen) ?_
      rintro ok w₁ (⟨rfl, rfl⟩ | ⟨rfl, hNone, key, hLength, rfl⟩)
      · exact .inl ⟨rfl, rfl⟩
      · refine (safe_keyringFetch generation).imp ?_
        rintro r w₂ ⟨hFetched, rfl⟩
        have hMinted := Minted.fresh hNone hLength
        cases r with
        | none => exact .inl ⟨rfl, rfl⟩
        | some master =>
          have hMaster := (hFetched.resolve_left (some_ne_none _)).trans (nonEmpty_eq_some_iff.mpr hMinted.key)
          cases hMaster
          exact .inr ⟨_, key, rfl, hMinted, rfl⟩

theorem safe_masterKeyGet_held {generation : Nat} {master : Bytes} (hMaster : w.keyring generation = some master)
    (mint : Bool) :
    Safe faulty (fun _ => True) (fun r w' => (r = none ∨ r = nonEmpty (some master)) ∧ w' = w)
      (masterKeyGet generation mint) w := by
  refine Safe.bind (safe_keyringFetch generation) ?_
  rintro r w' ⟨hKey, rfl⟩
  rw [hMaster] at hKey
  cases r with
  | some key => exact ⟨hKey, rfl⟩
  | none =>
    cases mint with
    | false => exact ⟨.inl rfl, rfl⟩
    | true =>
      refine Safe.bind (safe_keyringGenerate generation tdbCryptoKeyLen) ?_
      rintro ok w₁ (⟨rfl, rfl⟩ | ⟨rfl, hNone, -⟩)
      · exact ⟨.inl rfl, rfl⟩
      · rw [hMaster] at hNone
        cases hNone

theorem safe_tableKeyUnwrap (stored : Bytes) :
    Safe faulty (fun _ => True) (fun r w' => (r = none ∨ r = unwraps aes w stored) ∧ w' = w) (tableKeyUnwrap aes stored)
      w := by
  rw [tableKeyUnwrap, unwraps]
  cases parseWrappedValue stored with
  | none => exact ⟨.inl rfl, rfl⟩
  | some framed =>
    refine Safe.bind (Safe.bind (safe_keyringFetch framed.1) ?_) (Q := fun r w' =>
      (r = none ∨ r = nonEmpty (w.keyring framed.1)) ∧ w' = w) ?_
    · rintro r w' ⟨hKey, rfl⟩
      cases r with
      | none => exact ⟨.inl rfl, rfl⟩
      | some key => exact ⟨hKey, rfl⟩
    · rintro r w' ⟨hKey, rfl⟩
      cases r with
      | none => exact ⟨.inl rfl, rfl⟩
      | some master =>
        rw [bind_some, ← hKey.resolve_left (some_ne_none _)]
        exact ⟨.inr rfl, rfl⟩

theorem safe_tableKeyWrap {next : Nat} {master : Bytes} (hMaster : w.keyring next = some master) (plain : Bytes) :
    Safe faulty (fun _ => True)
      (fun r w' => (r = none ∨ r = (aes.encrypt master plain).bind (frameWrappedValue next)) ∧ w' = w)
      (tableKeyWrap aes plain next) w := by
  refine Safe.bind (safe_masterKeyGet_held hMaster true) ?_
  rintro r w' ⟨hKey, rfl⟩
  cases r with
  | none => exact ⟨.inl rfl, rfl⟩
  | some key =>
    obtain ⟨hEq, -⟩ := nonEmpty_eq_some_iff.mp (hKey.resolve_left (some_ne_none _)).symm
    cases hEq
    exact ⟨.inr rfl, rfl⟩

variable {next : Nat} {master : Bytes}

section

variable (hNone : ¬Rewrites aes w next) (hMaster : w.keyring next = some master)
include hNone hMaster

theorem safe_rewrapKey {keyId latest version : Nat} (hId : keyId ∈ keyIds) (hLatest : latestOf w keyId = some latest)
    (hVersion : version ∈ versionsUpTo latest) {w₁ : World} (h : Same w w₁) :
    Safe faulty (fun _ => True) (fun _ => Same w) (rewrapKey aes next keyId version) w₁ := by
  have hMaster₁ : w₁.keyring next = some master := by rw [h.keyring, hMaster]
  refine Safe.bind (safe_storeGet _) ?_
  rintro stored w' ⟨hStored, rfl⟩
  cases stored with
  | none => exact h
  | some stored =>
    refine Safe.bind (safe_tableKeyUnwrap stored) ?_
    rintro r w₂ ⟨hPlain, rfl⟩
    cases r with
    | none => exact h
    | some plain =>
      refine Safe.bind (safe_tableKeyWrap hMaster₁ plain) ?_
      rintro r w₃ ⟨hValue, rfl⟩
      cases r with
      | none => exact h
      | some value =>
        have hRecorded : recorded aes w keyId version = some plain := by
          rw [← h.recorded, recorded, ← hStored.resolve_left (some_ne_none _), bind_some,
            ← hPlain.resolve_left (some_ne_none _)]
        have hRewrapped : rewrapped aes w next keyId version = some value := by
          rw [rewrapped, hRecorded, bind_some, hMaster, bind_some, ← hValue.resolve_left (some_ne_none _)]
        refine (safe_storePut _ _).imp ?_
        rintro ok w₄ (⟨rfl, rfl⟩ | ⟨rfl, rfl⟩)
        · exact h
        · apply h.put
          by_contra hNe
          exact hNone ⟨keyId, hId, latest, hLatest, version, hVersion, value, hRewrapped, hNe⟩

theorem safe_rewrapAll : Safe faulty (fun _ => True) (fun _ => Same w) (walk (rewrapKeyId aes next) keyIds) w := by
  refine safe_walk (fun keyId hId w₁ h => ?_) (.refl w)
  refine Safe.bind (safe_storeGet _) ?_
  rintro stored w' ⟨hStored, rfl⟩
  cases hLatest : storedField stored with
  | none => exact h
  | some latest =>
    have hLatestOf : latestOf w keyId = some latest := by
      rw [← h.latestOf, latestOf, ← storedField_nonEmpty]
      obtain rfl | rfl := hStored
      · cases hLatest
      · exact hLatest
    exact safe_walk (fun version hVersion w₂ h₂ => safe_rewrapKey hNone hMaster hId hLatestOf hVersion h₂) h

end

theorem safe_resolve
    (hSeed : w.masterGeneration = generationNone → w.store.get encodeMasterSeqKey = some (be32Encode generationFirst)) :
    Safe faulty (fun _ => True) (fun r w' => Same w w' ∧ (r ≠ generationNone → r = currentOf w)) masterGenerationResolve
      w := by
  have hInForce : Safe faulty (fun _ => True) (fun r w' => r = w.masterGeneration ∧ w' = w) inForce w :=
    fun reply => ⟨trivial, rfl, rfl⟩
  have hSet {w₁ : World} (h : Same w w₁) (generation : Nat) :
      Safe faulty (fun _ => True) (fun _ => Same w) (setInForce generation) w₁ :=
    fun reply => ⟨trivial, h.store, h.keyring⟩
  refine Safe.bind hInForce ?_
  rintro r w' ⟨rfl, rfl⟩
  rw [currentOf]
  split
  · exact ⟨.refl w', fun _ => rfl⟩
  · rename_i hUnknown
    have hStored := hSeed (not_not.mp hUnknown)
    refine Safe.bind (safe_storeGet _) ?_
    rintro stored w₁ ⟨hRead, rfl⟩
    rw [hStored] at hRead
    obtain rfl | rfl := hRead
    · refine Safe.bind (safe_storePut _ _) ?_
      rintro ok w₂ (⟨rfl, rfl⟩ | ⟨rfl, rfl⟩)
      · exact ⟨.refl w₂, fun h => absurd rfl h⟩
      · exact Safe.bind (hSet ((Same.refl w₁).put hStored) _) fun _ _ h => ⟨h, fun _ => rfl⟩
    · exact Safe.bind (hSet (.refl w₁) _) fun _ _ h => ⟨h, fun _ => rfl⟩

theorem Traceless.safe_rotate (h : w.available = true → Traceless aes w) :
    Safe faulty (fun _ => True) (fun ok w' => ok = false → ∀ key, w'.store.get key = w.store.get key)
      (cryptoRotateMasterKey aes) w := by
  refine Safe.bind (Q := fun r w' => r = w.available ∧ w' = w) (fun reply => ⟨trivial, rfl, rfl⟩) ?_
  rintro available w' ⟨hAvailable, rfl⟩
  cases available with
  | false => exact fun _ _ => rfl
  | true =>
    obtain ⟨hSeed, hRewrites⟩ := h hAvailable.symm
    refine Safe.bind (safe_resolve hSeed) ?_
    rintro current w₁ ⟨hSame, hCurrent⟩
    by_cases hResolved : current = generationNone
    · rw [if_pos hResolved]
      exact fun _ => hSame.store
    · rw [if_neg hResolved, hCurrent hResolved, ← nextOf]
      refine Safe.bind (safe_masterKeyGet (nextOf w') true) ?_
      rintro r w₂ (⟨rfl, hStore⟩ | ⟨keyring, master, rfl, hMinted, rfl⟩)
      · intro _ key
        rw [hStore, hSame.store]
      · rw [hSame.keyring] at hMinted
        have hNone : ¬Rewrites aes { w₁ with keyring := keyring } (nextOf w') := by
          rintro ⟨keyId, hId, latest, hLatest, version, hVersion, value, hValue, hNe⟩
          have hWith : Same { w' with keyring := keyring } { w₁ with keyring := keyring } := ⟨hSame.store, rfl⟩
          refine hRewrites keyring master hMinted ⟨keyId, hId, latest, ?_, version, hVersion, value, ?_, ?_⟩
          · rw [← hWith.latestOf, hLatest]
          · rw [← hValue, rewrapped, rewrapped, hWith.recorded]
          · rwa [← hWith.store]
        refine Safe.bind (safe_rewrapAll hNone hMinted.key.1) ?_
        intro ok w₃ hWalk
        have hKept : ∀ key, w₃.store.get key = w'.store.get key := fun key => (hWalk.store key).trans (hSame.store key)
        cases ok with
        | false => exact fun _ => hKept
        | true =>
          refine Safe.bind (safe_storePut _ _) ?_
          rintro ok w₄ (⟨rfl, rfl⟩ | ⟨rfl, -⟩)
          · exact fun _ => hKept
          · exact fun reply => ⟨trivial, fun hOk => by cases hOk⟩

end Sufficient

section Necessary

variable {aes : WrapCipher} {w : World} {next : Nat} {master : Bytes}

def granted : Reply := ⟨true, fun _ => 0⟩

def refused : Reply := ⟨false, fun _ => 0⟩

theorem can_storeGet (key : Bytes) :
    Can faulty (fun r w' => r = nonEmpty (w.store.get key) ∧ w' = w) (storeGet key) w := ⟨granted, rfl, rfl⟩

theorem can_storePut {key value : Bytes} (hNe : value ≠ []) :
    Can faulty (fun ok w' => ok = true ∧ w' = { w with store := w.store.put key value }) (storePut key value) w := by
  refine ⟨granted, ?_⟩
  rw [faulty_storePut, handle, if_pos ⟨rfl, hNe⟩]
  exact ⟨rfl, rfl⟩

theorem can_not_storePut (key value : Bytes) :
    Can faulty (fun ok w' => ok = false ∧ w' = w) (storePut key value) w := by
  refine ⟨refused, ?_⟩
  rw [faulty_storePut, handle, if_neg fun h => Bool.false_ne_true h.1]
  exact ⟨rfl, rfl⟩

theorem can_masterKeyGet_held {generation : Nat} (h : nonEmpty (w.keyring generation) = some master) (mint : Bool) :
    Can faulty (fun r w' => r = some master ∧ w' = w) (masterKeyGet generation mint) w := by
  refine Can.bind (Q := fun r w' => r = nonEmpty (w.keyring generation) ∧ w' = w) ⟨granted, rfl, rfl⟩ ?_
  rintro r w' ⟨rfl, rfl⟩
  rw [h]
  exact ⟨rfl, rfl⟩

theorem can_tableKeyUnwrap {stored plain : Bytes} (h : unwraps aes w stored = some plain) :
    Can faulty (fun r w' => r = some plain ∧ w' = w) (tableKeyUnwrap aes stored) w := by
  obtain ⟨framed, hFramed, h⟩ := bind_eq_some_iff.mp h
  obtain ⟨master, hMaster, hPlain⟩ := bind_eq_some_iff.mp h
  rw [tableKeyUnwrap, hFramed]
  refine Can.bind (can_masterKeyGet_held hMaster false) ?_
  rintro r w' ⟨rfl, rfl⟩
  exact ⟨hPlain, rfl⟩

theorem can_tableKeyWrap (hMaster : w.keyring next = some master) (hNe : master ≠ []) (plain : Bytes) :
    Can faulty (fun r w' => r = (aes.encrypt master plain).bind (frameWrappedValue next) ∧ w' = w)
      (tableKeyWrap aes plain next) w := by
  refine Can.bind (can_masterKeyGet_held (nonEmpty_eq_some_iff.mpr ⟨hMaster, hNe⟩) true) ?_
  rintro r w' ⟨rfl, rfl⟩
  exact ⟨rfl, rfl⟩

theorem can_skipKey (keyId version : Nat) (w : World) :
    Can faulty (fun ok w' => ok = true ∧ w' = w) (rewrapKey aes next keyId version) w := ⟨refused, rfl, rfl⟩

theorem can_skipKeyId (keyId : Nat) (w : World) :
    Can faulty (fun ok w' => ok = true ∧ w' = w) (rewrapKeyId aes next keyId) w := ⟨refused, rfl, rfl⟩

theorem can_rewrapKey (hMaster : w.keyring next = some master) (hNe : master ≠ []) {keyId version : Nat} {value : Bytes}
    (hValue : rewrapped aes w next keyId version = some value) :
    Can faulty (fun ok w' => ok = true ∧ w'.store.get (encodeWrappedKey keyId version) = some value)
      (rewrapKey aes next keyId version) w := by
  obtain ⟨plain, hPlain, h⟩ := bind_eq_some_iff.mp hValue
  obtain ⟨stored, hStored, hUnwraps⟩ := bind_eq_some_iff.mp hPlain
  rw [hMaster, bind_some] at h
  obtain ⟨wrapped, hWrapped, hFramed⟩ := bind_eq_some_iff.mp h
  refine Can.bind (can_storeGet _) ?_
  rintro r w' ⟨rfl, rfl⟩
  rw [hStored]
  refine Can.bind (can_tableKeyUnwrap hUnwraps) ?_
  rintro r w' ⟨rfl, rfl⟩
  refine Can.bind (can_tableKeyWrap hMaster hNe plain) ?_
  rintro r w' ⟨rfl, rfl⟩
  rw [h]
  refine (can_storePut (frameWrappedValue_ne_nil hFramed)).imp ?_
  rintro ok w' ⟨rfl, rfl⟩
  refine ⟨rfl, ?_⟩
  rw [Store.get_put, if_pos rfl]

theorem can_rewrite (hMaster : w.keyring next = some master) (hNe : master ≠ []) (h : Rewrites aes w next) :
    Can faulty (fun ok w' => ok = true ∧ ¬Untouched w w') (walk (rewrapKeyId aes next) keyIds) w := by
  obtain ⟨keyId, hId, latest, hLatest, version, hVersion, value, hValue, hOther⟩ := h
  refine can_walk_one can_skipKeyId hId ?_
  refine Can.bind (can_storeGet _) ?_
  rintro r w' ⟨rfl, rfl⟩
  rw [storedField_nonEmpty, ← latestOf, hLatest]
  refine can_walk_one (can_skipKey keyId) hVersion ((can_rewrapKey hMaster hNe hValue).imp ?_)
  rintro ok w₁ ⟨rfl, hStored⟩
  refine ⟨rfl, fun hSame => hOther ?_⟩
  rw [← hSame.wrapped, hStored]

theorem bytes_of_master (h : master.length = tdbCryptoKeyLen) :
    Reply.bytes ⟨true, fun i => master.getD i 0⟩ tdbCryptoKeyLen = master := by
  refine List.ext_getElem ?_ fun i h₁ h₂ => ?_
  · simp [Reply.bytes, h]
  · simp [Reply.bytes, h₂]

theorem can_mint {keyring : Nat → Option Bytes} (h : Minted next w.keyring keyring master) :
    Can faulty (fun r w' => r = some master ∧ w' = { w with keyring := keyring }) (masterKeyGet next true) w := by
  cases h with
  | held hKey hNe => exact can_masterKeyGet_held (nonEmpty_eq_some_iff.mpr ⟨hKey, hNe⟩) true
  | fresh hNone hLength =>
    have hKey := nonEmpty_eq_some_iff.mpr (Minted.fresh hNone hLength).key
    refine Can.bind (Q := fun r w' => r = none ∧ w' = w) ⟨refused, rfl, rfl⟩ ?_
    rintro r w' ⟨rfl, rfl⟩
    refine Can.bind (Q := fun ok w₁ => ok = true ∧ w₁ = { w' with keyring := update w'.keyring next (some master) })
      ⟨⟨true, fun i => master.getD i 0⟩, ?_⟩ ?_
    · rw [faulty_keyringGenerate, handle, if_pos ⟨rfl, hNone⟩, bytes_of_master hLength]
      exact ⟨rfl, rfl⟩
    · rintro ok w₁ ⟨rfl, rfl⟩
      exact ⟨granted, hKey, rfl⟩

theorem can_not_mint (generation : Nat) :
    Can faulty (fun r w' => r = none ∧ w' = w) (masterKeyGet generation true) w := ⟨refused, refused, rfl, rfl⟩

theorem can_seed (hUnknown : w.masterGeneration = generationNone) : Can faulty (fun r w' => r ≠ generationNone ∧
      w' = { w with
        store := w.store.put encodeMasterSeqKey (be32Encode generationFirst), masterGeneration := generationFirst })
      masterGenerationResolve w := by
  refine Can.bind (Q := fun r w' => r = w.masterGeneration ∧ w' = w) ⟨granted, rfl, rfl⟩ ?_
  rintro r w' ⟨rfl, rfl⟩
  rw [hUnknown, if_neg (not_not.mpr rfl)]
  refine Can.bind (Q := fun r w₁ => r = none ∧ w₁ = w') ⟨refused, rfl, rfl⟩ ?_
  rintro r w₁ ⟨rfl, rfl⟩
  refine Can.bind (can_storePut (List.cons_ne_nil _ _)) ?_
  rintro ok w₂ ⟨rfl, rfl⟩
  exact ⟨granted, by decide, rfl⟩

theorem can_resolve
    (hSeed : w.masterGeneration = generationNone → w.store.get encodeMasterSeqKey = some (be32Encode generationFirst)) :
    Can faulty (fun r w' => r = currentOf w ∧ w' = { w with masterGeneration := currentOf w }) masterGenerationResolve
      w := by
  refine Can.bind (Q := fun r w' => r = w.masterGeneration ∧ w' = w) ⟨granted, rfl, rfl⟩ ?_
  rintro r w' ⟨rfl, rfl⟩
  rw [currentOf]
  split
  · exact ⟨rfl, rfl⟩
  · rename_i hUnknown
    refine Can.bind (can_storeGet _) ?_
    rintro r w₁ ⟨rfl, rfl⟩
    rw [hSeed (not_not.mp hUnknown)]
    exact ⟨granted, rfl, rfl⟩

theorem can_fail (hAvailable : w.available = true) (h : ¬Traceless aes w) :
    Can faulty (fun ok w' => ok = false ∧ ¬Untouched w w') (cryptoRotateMasterKey aes) w := by
  refine Can.bind (Q := fun r w' => r = true ∧ w' = w) ⟨granted, hAvailable, rfl⟩ ?_
  rintro r w' ⟨rfl, rfl⟩
  rw [if_pos rfl]
  by_cases hSeed : w'.masterGeneration = generationNone →
    w'.store.get encodeMasterSeqKey = some (be32Encode generationFirst)
  · have hRewrites : ∃ keyring master, Minted (nextOf w') w'.keyring keyring master ∧
        Rewrites aes { w' with keyring := keyring } (nextOf w') := by
      by_contra hNone
      exact h ⟨hSeed, fun keyring master hMinted hRewrites => hNone ⟨keyring, master, hMinted, hRewrites⟩⟩
    obtain ⟨keyring, master, hMinted, hRewrites⟩ := hRewrites
    have hKnown : currentOf w' ≠ generationNone := by
      rw [currentOf]
      split
      · assumption
      · decide
    refine Can.bind (can_resolve hSeed) ?_
    rintro r w₁ ⟨rfl, rfl⟩
    rw [if_neg hKnown, ← nextOf]
    refine Can.bind (can_mint (w := { w' with masterGeneration := currentOf w' }) hMinted) ?_
    rintro r w₂ ⟨rfl, rfl⟩
    refine Can.bind (can_rewrite (w := { w' with keyring := keyring, masterGeneration := currentOf w' }) hMinted.key.1
      hMinted.key.2 hRewrites) ?_
    rintro ok w₃ ⟨rfl, hTouched⟩
    rw [if_pos rfl]
    refine Can.bind (can_not_storePut _ _) ?_
    rintro ok w₄ ⟨rfl, rfl⟩
    exact ⟨rfl, fun hSame => hTouched ⟨hSame.wrapped, hSame.latest, hSame.master⟩⟩
  · obtain ⟨hUnknown, hOther⟩ := Classical.not_imp.mp hSeed
    refine Can.bind (can_seed hUnknown) ?_
    rintro r w₁ ⟨hKnown, rfl⟩
    rw [if_neg hKnown]
    refine Can.bind (can_not_mint _) ?_
    rintro r w₂ ⟨rfl, rfl⟩
    refine ⟨rfl, fun hSame => hOther ?_⟩
    rw [← hSame.master, Store.get_put, if_pos rfl]

end Necessary

/-- A rotation that fails leaves the records as they were exactly when it has nothing to seed and no key whose bytes
it would change. -/
theorem failed_rotation_untouched_iff (aes : WrapCipher) (w : World) :
    (∀ replies w', exec faulty (cryptoRotateMasterKey aes) replies w = (some false, w') → Untouched w w') ↔
      (w.available = true → Traceless aes w) := by
  constructor
  · intro hUntouched hAvailable
    by_contra hTrace
    obtain ⟨replies, ok, hExec, rfl, hTouched⟩ := (can_fail hAvailable hTrace).exec
    exact hTouched (hUntouched replies _ (Prod.ext hExec rfl))
  · intro hTraceless replies w' hExec
    have hSafe := ((Traceless.safe_rotate hTraceless).exec trivial replies).2 false (by rw [hExec])
    rw [hExec] at hSafe
    have hSame := hSafe rfl
    exact ⟨fun keyId version => hSame _, fun keyId => hSame _, hSame _⟩

section Samples

def frontWrap : WrapCipher := ⟨fun master src => some (master ++ src), fun master src => some (src.drop master.length)⟩

def bothFirst : World where
  store := ((((Store.empty.put encodeMasterSeqKey (be32Encode 1)).put (encodeLatestKey 1) (be32Encode 2)).put
    (encodeWrappedKey 1 1) (be32Encode 1 ++ [9, 5])).put (encodeWrappedKey 1 2) (be32Encode 1 ++ [9, 6]))
  keyring generation := if generation = 1 then some [9] else some [8]
  available := true
  masterGeneration := 1

/-- The second write is refused: the call fails, with the first version wrapped under the next generation. -/
theorem first_version_rewrapped :
    ∃ replies w', exec faulty (cryptoRotateMasterKey frontWrap) replies bothFirst = (some false, w') ∧
      w'.store.get (encodeWrappedKey 1 1) = some (be32Encode 2 ++ [8, 5]) ∧
      w'.store.get (encodeWrappedKey 1 2) = some (be32Encode 1 ++ [9, 6]) ∧ ¬Untouched bothFirst w' := by
  refine ⟨List.replicate 11 granted ++ [refused], _, Prod.ext ?_ rfl, ?_, ?_, fun h => ?_⟩
  · decide +kernel
  · decide +kernel
  · decide +kernel
  · have hWrapped := h.wrapped 1 1
    revert hWrapped
    decide +kernel

end Samples

end TideSql.FailedRotation
