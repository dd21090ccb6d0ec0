import TideSql.Handler.KeyCustody

/-!
# Failed reads of the key store

A read that fails gives the same answer as a key that was never stored, and the answer to absence is to seed
the master generation, or to mint a first table key, over what is there.
-/

namespace TideSql.KeyReads
open CryptoKeyenc KeyCustody Lib Lib.Program List Option Nat

inductive Call where
  | latestKeyVersion (keyId : Nat)
  | rotateTableKey (keyId : Nat)
  | rotateMasterKey

def Call.prog (aes : WrapCipher) : Call → M Unit
  | .latestKeyVersion keyId => do
    let _ ← cryptoLatestKeyVersion aes keyId
  | .rotateTableKey keyId => do
    let _ ← cryptoRotateTableKey aes keyId
  | .rotateMasterKey => do
    let _ ← cryptoRotateMasterKey aes

def Call.after (aes : WrapCipher) (failed : Bytes → Bool) (replies : List Reply) (w : World) (call : Call) : World :=
  (exec (handle failed) (call.prog aes) replies w).2

/-- No table key is replaced by another one, and no recorded number is lowered. -/
structure Keeps (aes : WrapCipher) (w w' : World) : Prop where
  key {keyId version : Nat} {key : Bytes} : keyId < 2 ^ 32 → version < 2 ^ 32 →
    recorded aes w keyId version = some key → recorded aes w' keyId version = some key
  latest {keyId version : Nat} : keyId < 2 ^ 32 → latestOf w keyId = some version →
    ∃ version', latestOf w' keyId = some version' ∧ version ≤ version'
  master {generation : Nat} : masterOf w = some generation →
    ∃ generation', masterOf w' = some generation' ∧ generation ≤ generation'

namespace Keeps

variable {aes : WrapCipher} {w₀ w w' : World}

theorem refl (aes : WrapCipher) (w : World) : Keeps aes w w where
  key _ _ h := h
  latest _ h := ⟨_, h, le_refl _⟩
  master h := ⟨_, h, le_refl _⟩

section

variable (h : Keeps aes w₀ w)
include h

theorem of_same (hStore : w'.store = w.store)
    (hKeyring : ∀ {generation key}, w.keyring generation = some key → w'.keyring generation = some key) :
    Keeps aes w₀ w' where
  key hId hVersion hKey := by
    obtain ⟨stored, hStored, hUnwraps⟩ := Option.bind_eq_some_iff.mp (h.key hId hVersion hKey)
    rw [recorded, hStore, hStored, bind_some]
    exact unwraps_mono hKeyring hUnwraps
  latest {id version} hId hLatest := by
    rw [latestOf, hStore]
    exact h.latest hId hLatest
  master {generation} hMaster := by
    rw [show masterOf w' = masterOf w by rw [masterOf, hStore, ← masterOf]]
    exact h.master hMaster

theorem beside (hBeside : Beside w w') : Keeps aes w₀ w' :=
  h.of_same hBeside.store hBeside.keyring

theorem setGeneration (generation : Nat) : Keeps aes w₀ { w with masterGeneration := generation } :=
  h.of_same rfl id

theorem putMaster {generation : Nat} (hFits : generation < 2 ^ 32)
    (hRises : ∀ g, masterOf w₀ = some g → g ≤ generation) :
    Keeps aes w₀ { w with store := w.store.put encodeMasterSeqKey (be32Encode generation) } where
  key hId hVersion hKey := (recorded_putMaster _ _).trans (h.key hId hVersion hKey)
  latest hId hLatest := by
    rw [latestOf_putMaster]
    exact h.latest hId hLatest
  master hMaster := ⟨generation, masterOf_putMaster hFits, hRises _ hMaster⟩

theorem putWrapped {keyId version : Nat} {value : Bytes} (hId : keyId < 2 ^ 32) (hVersion : version < 2 ^ 32)
    (hNe : value ≠ []) (hSame : ∀ key, recorded aes w₀ keyId version = some key → unwraps aes w value = some key) :
    Keeps aes w₀ { w with store := w.store.put (encodeWrappedKey keyId version) value } where
  key {id v _} hId' hVersion' hKey := by
    by_cases hSelf : id = keyId ∧ v = version
    · obtain ⟨rfl, rfl⟩ := hSelf
      rw [recorded_putWrapped_self hNe]
      exact hSame _ hKey
    · rw [recorded_putWrapped_of_ne hId hId' hVersion hVersion' hSelf]
      exact h.key hId' hVersion' hKey
  latest hId' hLatest := by
    rw [latestOf_putWrapped]
    exact h.latest hId' hLatest
  master hMaster := by
    rw [masterOf_putWrapped]
    exact h.master hMaster

theorem putLatest {keyId version : Nat} (hId : keyId < 2 ^ 32) (hVersion : version < 2 ^ 32)
    (hRises : ∀ v, latestOf w₀ keyId = some v → v ≤ version) :
    Keeps aes w₀ { w with store := w.store.put (encodeLatestKey keyId) (be32Encode version) } where
  key hId' hVersion' hKey := (recorded_putLatest _ _).trans (h.key hId' hVersion' hKey)
  latest {id v} hId' hLatest := by
    obtain rfl | hNe := eq_or_ne id keyId
    · exact ⟨version, latestOf_putLatest_self hVersion, hRises v hLatest⟩
    · rw [latestOf_putLatest_of_ne hId hId' hNe]
      exact h.latest hId' hLatest
  master hMaster := by
    rw [masterOf_putLatest]
    exact h.master hMaster

end

end Keeps

section Condition

variable (aes : WrapCipher) (failed : Bytes → Bool) (w : World)

def masterRead : Option Nat := if failed encodeMasterSeqKey then none else masterOf w

def latestRead (keyId : Nat) : Option Nat := if failed (encodeLatestKey keyId) then none else latestOf w keyId

def resolved : Nat :=
  if w.masterGeneration ≠ generationNone then w.masterGeneration else (masterRead failed w).getD generationFirst

def SeedsSafely : Prop :=
  w.masterGeneration = generationNone → masterRead failed w = none → ∀ generation, masterOf w = some generation →
    generation ≤ generationFirst

def Recordable (keyId version : Nat) : Prop :=
  recorded aes w keyId version = none ∧ ∀ v, latestOf w keyId = some v → v ≤ version

def nextVersion (keyId : Nat) : Nat := (latestRead failed w keyId).elim generationFirst (· + 1)

def Call.Harmless : Call → Prop
  | .latestKeyVersion keyId => latestRead failed w keyId = none →
    SeedsSafely failed w ∧ (resolved failed w ≠ generationNone → Recordable aes w keyId generationFirst)
  | .rotateTableKey keyId => 1 ≤ keyId → keyId ≤ tidesdbMaxEncryptionKeyId →
    SeedsSafely failed w ∧ (resolved failed w ≠ generationNone →
      nextVersion failed w keyId ≤ tidesdbMaxEncryptionKeyVersions →
        Recordable aes w keyId (nextVersion failed w keyId))
  | .rotateMasterKey => SeedsSafely failed w

/-- The key id is an `unsigned int`, and the counter of the generations is not used up. -/
def Call.InRange : Call → Prop
  | .latestKeyVersion keyId => keyId < 2 ^ 32
  | .rotateTableKey _ => True
  | .rotateMasterKey => masterOf w ≠ some (2 ^ 32 - 1)

/-- What the module has in memory is what is recorded, once it has been read. -/
def Synced : Prop := w.masterGeneration = generationNone ∨ masterOf w = some w.masterGeneration

end Condition

section Harmless

variable {aes : WrapCipher} {failed : Bytes → Bool} {w₀ w : World}

theorem storedField_masterRead :
    storedField (if failed encodeMasterSeqKey then none else nonEmpty (w.store.get encodeMasterSeqKey)) =
      masterRead failed w := by
  rw [masterRead]
  split
  · rfl
  · rw [storedField_nonEmpty, ← masterOf]

theorem storedField_latestRead (keyId : Nat) :
    storedField (if failed (encodeLatestKey keyId) then none else nonEmpty (w.store.get (encodeLatestKey keyId))) =
      latestRead failed w keyId := by
  rw [latestRead]
  split
  · rfl
  · rw [storedField_nonEmpty, ← latestOf]

theorem masterOf_of_masterRead {generation : Nat} (h : masterRead failed w = some generation) :
    masterOf w = some generation := by
  rw [masterRead] at h
  split at h
  · cases h
  · exact h

theorem resolved_lt (hSync : Synced w) : resolved failed w < 2 ^ 32 := by
  rw [resolved]
  split
  · rename_i hSome
    exact storedField_lt (hSync.resolve_left hSome)
  · cases hRead : masterRead failed w with
    | none => exact (by decide : generationFirst < 2 ^ 32)
    | some generation => exact storedField_lt (masterOf_of_masterRead hRead)

def seeded (failed : Bytes → Bool) (w : World) : World :=
  if w.masterGeneration ≠ generationNone then w
  else
    match masterRead failed w with
    | some generation => { w with masterGeneration := generation }
    | none =>
      { w with
        store := w.store.put encodeMasterSeqKey (be32Encode generationFirst)
        masterGeneration := generationFirst }

@[simp] theorem masterGeneration_seeded : (seeded failed w).masterGeneration = resolved failed w := by
  rw [seeded, resolved]
  split
  · rfl
  · cases masterRead failed w with
    | none | some generation => rfl

theorem resolved_of_inForce (h : w.masterGeneration ≠ generationNone) : resolved failed w = w.masterGeneration :=
    if_pos h

theorem safe_resolve (h₀ : Keeps aes w₀ w)
    (h : w.masterGeneration = generationNone → masterRead failed w = none → ∀ generation,
      masterOf w₀ = some generation →
      generation ≤ generationFirst) :
    Safe (handle failed) (Keeps aes w₀)
      (fun generation w' => Keeps aes w₀ w' ∧
        (generation = generationNone ∨ (generation = resolved failed w ∧ w' = seeded failed w)))
      masterGenerationResolve w := by
  refine Safe.bind (safe_inForce h₀) ?_
  rintro current w' ⟨rfl, rfl⟩
  rw [resolved, seeded]
  split
  · exact ⟨h₀, .inr ⟨rfl, rfl⟩⟩
  · rename_i hNone
    refine Safe.bind (safe_storeGet h₀ _) ?_
    rintro stored w₁ ⟨hStored, rfl⟩
    rw [hStored, storedField_masterRead]
    cases hRead : masterRead failed w₁ with
    | some generation =>
      refine Safe.bind (safe_setInForce (h₀.setGeneration generation)) ?_
      rintro - w₂ rfl
      exact ⟨h₀.setGeneration generation, .inr ⟨rfl, rfl⟩⟩
    | none =>
      have hPut := h₀.putMaster (by decide : generationFirst < 2 ^ 32) (h (not_not.mp hNone) hRead)
      refine Safe.bind (safe_storePut h₀ fun _ => hPut) ?_
      rintro ok w₂ (⟨rfl, rfl⟩ | ⟨rfl, -, rfl⟩)
      · exact ⟨h₀, .inl rfl⟩
      · refine Safe.bind (safe_setInForce (hPut.setGeneration _)) ?_
        rintro - w₃ rfl
        exact ⟨hPut.setGeneration _, .inr ⟨rfl, rfl⟩⟩

theorem Keeps.stable (w₀ : World) : Stable aes (Keeps aes w₀) where
  beside h := h.beside
  rewrap h hId hVersion hNe hRecorded hUnwraps := h.putWrapped hId hVersion hNe fun key hKey => by
    have hKept := h.key hId hVersion hKey
    rw [hRecorded] at hKept
    rw [hUnwraps, hKept]

theorem safe_record (hAes : aes.Inverse) (h : Keeps aes w₀ w) {keyId version generation : Nat} (hId : keyId < 2 ^ 32)
    (hVersion : version < 2 ^ 32) (hGen : generation < 2 ^ 32) (hRecordable : Recordable aes w₀ keyId version) :
    Safe (handle failed) (Keeps aes w₀) (fun _ => Keeps aes w₀) (recordKey aes keyId version generation) w := by
  refine (safe_recordKey_of hAes (J := Keeps aes w₀) (K := Keeps aes w₀) hGen (fun _ hs => hs) (fun _ hs => hs)
    (fun _ _ => Keeps.beside) (fun _ _ hs hNe => hs.putWrapped hId hVersion hNe fun key hKey => ?_)
    (fun _ _ hs _ _ => hs.putLatest hId hVersion hRecordable.2) h).imp fun ok w' hs => ?_
  · rw [hRecordable.1] at hKey
    cases hKey
  · cases ok with
    | false | true => exact hs

theorem safe_mint (hAes : aes.Inverse) (h₀ : Keeps aes w₀ w) {keyId : Nat} (hId : keyId < 2 ^ 32)
    (hSeeds : w.masterGeneration = generationNone → masterRead failed w = none → ∀ generation,
      masterOf w₀ = some generation → generation ≤ generationFirst)
    (hLt : resolved failed w < 2 ^ 32)
    (hRecordable : resolved failed w ≠ generationNone → Recordable aes w₀ keyId generationFirst) :
    Safe (handle failed) (Keeps aes w₀) (fun _ => Keeps aes w₀) (tableKeyMint aes keyId) w := by
  refine Safe.bind (safe_resolve h₀ hSeeds) ?_
  rintro generation w' ⟨h, hCases⟩
  split
  · exact h
  · rename_i hSome
    obtain ⟨rfl, rfl⟩ := hCases.resolve_left hSome
    refine Safe.bind (safe_record hAes h hId (by decide) hLt (hRecordable hSome)) fun ok w₁ hs => ?_
    cases ok with
    | false | true => exact hs

theorem master_le_next (hSync : Synced w) (hRange : masterOf w ≠ some (2 ^ 32 - 1)) (hSeeds : SeedsSafely failed w) :
    ∀ generation, masterOf w = some generation → generation ≤ (resolved failed w + 1) % 2 ^ 32 := by
  intro generation hMaster
  have hLt : generation < 2 ^ 32 := storedField_lt hMaster
  have hNe : generation ≠ 2 ^ 32 - 1 := fun hEq => hRange (hEq ▸ hMaster)
  rw [resolved]
  split
  · rename_i hInForce
    rw [hSync.resolve_left hInForce] at hMaster
    cases hMaster
    omega
  · rename_i hNone
    cases hRead : masterRead failed w with
    | none =>
      have hFirst : generation ≤ 1 := hSeeds (not_not.mp hNone) hRead generation hMaster
      exact hFirst.trans (by decide)
    | some found =>
      rw [masterOf_of_masterRead hRead] at hMaster
      cases hMaster
      rw [getD_some]
      omega

theorem latestRead_seeded (keyId : Nat) : latestRead failed (seeded failed w) keyId = latestRead failed w keyId := by
  rw [seeded]
  split
  · rfl
  · cases masterRead failed w with
    | none =>
      rw [latestRead, latestRead]
      exact congrArg _ (latestOf_putMaster keyId)
    | some generation => rfl

section

variable (hAes : aes.Inverse) (hSync : Synced w)
include hAes hSync

theorem safe_latestKeyVersion {keyId : Nat} (hId : keyId < 2 ^ 32)
    (h : w.available = true → Call.Harmless aes failed w (.latestKeyVersion keyId)) :
    Safe (handle failed) (Keeps aes w) (fun _ => Keeps aes w) (cryptoLatestKeyVersion aes keyId) w := by
  have hSelf := Keeps.refl aes w
  refine Safe.bind (safe_cryptoAvailable hSelf) ?_
  rintro available w' ⟨hAvailable, rfl⟩
  cases available with
  | false => exact hSelf
  | true =>
    refine Safe.bind (safe_storeGet hSelf _) ?_
    rintro stored w₁ ⟨hStored, rfl⟩
    rw [hStored, storedField_latestRead]
    cases hRead : latestRead failed w₁ keyId with
    | some version => exact hSelf
    | none =>
      obtain ⟨hSeeds, hRecordable⟩ := h hAvailable.symm hRead
      exact safe_mint hAes hSelf hId hSeeds (resolved_lt hSync) hRecordable

theorem safe_rotateTableKey {keyId : Nat}
    (h : w.available = true → Call.Harmless aes failed w (.rotateTableKey keyId)) :
    Safe (handle failed) (Keeps aes w) (fun _ => Keeps aes w) (cryptoRotateTableKey aes keyId) w := by
  have hSelf := Keeps.refl aes w
  refine Safe.bind (safe_cryptoAvailable hSelf) ?_
  rintro available w' ⟨hAvailable, rfl⟩
  cases available with
  | false => exact hSelf
  | true =>
    rw [if_pos rfl]
    split
    · exact hSelf
    · rename_i hRange
      obtain ⟨hPos, hMax⟩ := not_or.mp hRange
      have hId : keyId < 2 ^ 32 := by
        have hLe : ¬255 < keyId := hMax
        omega
      obtain ⟨hSeeds, hRecordable⟩ := h hAvailable.symm (Nat.le_of_not_lt hPos) (Nat.le_of_not_lt hMax)
      refine Safe.bind (safe_resolve hSelf hSeeds) ?_
      rintro generation w₁ ⟨h₁, hCases⟩
      split
      · exact h₁
      · rename_i hSome
        obtain ⟨rfl, rfl⟩ := hCases.resolve_left hSome
        have hRecord := hRecordable hSome
        rw [nextVersion] at hRecord
        refine Safe.bind (safe_storeGet h₁ _) ?_
        rintro stored w₂ ⟨hStored, rfl⟩
        rw [hStored, storedField_latestRead, latestRead_seeded]
        cases hRead : latestRead failed w' keyId with
        | none =>
          rw [hRead] at hRecord
          have hInForce : (seeded failed w').masterGeneration ≠ generationNone := by
            rw [masterGeneration_seeded]
            exact hSome
          refine Safe.bind (safe_mint hAes h₁ hId (fun hNone => absurd hNone hInForce) ?_
            fun _ => hRecord (by decide)) fun _ _ hs => hs
          rw [resolved_of_inForce hInForce, masterGeneration_seeded]
          exact resolved_lt hSync
        | some current =>
          rw [hRead] at hRecord
          dsimp only
          split
          · exact h₁
          · rename_i hRoom
            have hLt : current < 4096 := Nat.lt_of_not_le hRoom
            exact safe_record hAes h₁ hId (lt_trans (succ_lt_succ hLt) (by decide)) (resolved_lt hSync)
              (hRecord hLt)

theorem safe_rotateMasterKey (hRange : masterOf w ≠ some (2 ^ 32 - 1)) (h : w.available = true → SeedsSafely failed w) :
    Safe (handle failed) (Keeps aes w) (fun _ => Keeps aes w) (cryptoRotateMasterKey aes) w := by
  have hSelf := Keeps.refl aes w
  refine (Keeps.stable w).safe_rotateMaster
    (P := fun generation => SeedsSafely failed w ∧ generation = resolved failed w)
    hAes (fun _ hs => hs) hSelf (fun hAvailable => ?_) ?_ fun _ hs => hs
  · refine (safe_resolve hSelf (h hAvailable)).imp fun generation w' hs => ⟨hs.1, fun hSome => ?_⟩
    exact ⟨h hAvailable, (hs.2.resolve_left hSome).1⟩
  · rintro w' generation hs ⟨hSeeds, rfl⟩
    have hPut := hs.putMaster (mod_lt (resolved failed w + 1) (by decide : 0 < 2 ^ 32))
      (master_le_next hSync hRange hSeeds)
    exact ⟨hPut, hPut.setGeneration _, hPut.setGeneration _⟩

end

end Harmless

def WrapsAll (aes : WrapCipher) : Prop :=
  ∀ master plain, plain ≠ [] → ∃ wrapped, aes.encrypt master plain = some wrapped ∧ wrapped ≠ []

section Harm

variable {aes : WrapCipher} {failed : Bytes → Bool} {w : World}

def granted (byte : UInt8) : Reply := ⟨true, fun _ => byte⟩

theorem can_storeGet (key : Bytes) :
    Can (handle failed) (fun r w' => r = (if failed key then none else nonEmpty (w.store.get key)) ∧ w' = w)
      (storeGet key) w := ⟨granted 0, rfl, rfl⟩

theorem can_storePut {key value : Bytes} (hNe : value ≠ []) :
    Can (handle failed) (fun ok w' => ok = true ∧ w' = { w with store := w.store.put key value }) (storePut key value)
      w := by
  refine ⟨granted 0, ?_⟩
  rw [handle, if_pos ⟨rfl, hNe⟩]
  exact ⟨rfl, rfl⟩

theorem can_resolve : Can (handle failed) (fun generation w' => generation = resolved failed w ∧ w' = seeded failed w)
      masterGenerationResolve w := by
  refine Can.bind (Q := fun r w' => r = w.masterGeneration ∧ w' = w) ⟨granted 0, rfl, rfl⟩ ?_
  rintro current w' ⟨rfl, rfl⟩
  rw [resolved, seeded]
  split
  · exact ⟨rfl, rfl⟩
  · refine Can.bind (can_storeGet _) ?_
    rintro stored w₁ ⟨hStored, rfl⟩
    rw [hStored, storedField_masterRead]
    cases masterRead failed w₁ with
    | some generation => exact ⟨granted 0, rfl, rfl⟩
    | none =>
      refine Can.bind (can_storePut (cons_ne_nil _ _)) ?_
      rintro ok w₂ ⟨rfl, rfl⟩
      exact ⟨granted 0, rfl, rfl⟩

theorem not_keeps_seeded (h : ¬SeedsSafely failed w) : ¬Keeps aes w (seeded failed w) := by
  intro hKeeps
  refine h fun hNone hRead generation hMaster => ?_
  obtain ⟨generation', hMaster', hLe⟩ := hKeeps.master hMaster
  rw [seeded, if_neg (not_not.mpr hNone), hRead] at hMaster'
  have hFirst : masterOf { w with store := w.store.put encodeMasterSeqKey (be32Encode generationFirst) } =
      some generationFirst := masterOf_putMaster (by decide)
  rw [some.inj (hMaster'.symm.trans hFirst)] at hLe
  exact hLe

theorem can_masterKeyGet {generation : Nat} (hKeyring : w.keyring generation ≠ some []) :
    Can (handle failed) (fun r w' => ∃ master, r = some master ∧ w'.store = w.store ∧
      nonEmpty (w'.keyring generation) = some master) (masterKeyGet generation true) w := by
  refine Can.bind (Q := fun r w' => r = nonEmpty (w.keyring generation) ∧ w' = w) ⟨granted 0, rfl, rfl⟩ ?_
  rintro r w' ⟨rfl, rfl⟩
  cases hKey : w'.keyring generation with
  | some key =>
    have hNe : key ≠ [] := fun hNil => hKeyring (hNil ▸ hKey)
    rw [nonEmpty_eq_some_iff.mpr ⟨rfl, hNe⟩]
    exact ⟨key, rfl, rfl, nonEmpty_eq_some_iff.mpr ⟨hKey, hNe⟩⟩
  | none =>
    refine Can.bind (Q := fun ok w₁ => ok = true ∧ w₁ =
      { w' with keyring := Function.update w'.keyring generation (some ((granted 0).bytes tdbCryptoKeyLen)) })
      ⟨granted 0, ?_⟩ ?_
    · rw [handle, if_pos ⟨rfl, hKey⟩]
      exact ⟨rfl, rfl⟩
    · rintro ok w₁ ⟨rfl, rfl⟩
      have hKey₁ :
        nonEmpty (Function.update w'.keyring generation (some ((granted 0).bytes tdbCryptoKeyLen)) generation) =
          some ((granted 0).bytes tdbCryptoKeyLen) := by
        rw [Function.update_self]
        rfl
      exact ⟨granted 0, _, hKey₁, rfl, hKey₁⟩

theorem can_recordKey (hAes : aes.Inverse) (hWraps : WrapsAll aes) {keyId version generation : Nat}
    (hKeyring : w.keyring generation ≠ some []) (hGen : generation < 2 ^ 32) (hVersion : version < 2 ^ 32)
    (byte : UInt8) :
    Can (handle failed) (fun _ w' => recorded aes w' keyId version = some ((granted byte).bytes tdbCryptoKeyLen) ∧
      latestOf w' keyId = some version) (recordKey aes keyId version generation) w := by
  have hPlain : (granted byte).bytes tdbCryptoKeyLen ≠ [] := cons_ne_nil _ _
  refine Can.bind (Q := fun r w' => r = some ((granted byte).bytes tdbCryptoKeyLen) ∧ w' = w)
    ⟨granted byte, rfl, rfl⟩ ?_
  rintro r w' ⟨rfl, rfl⟩
  refine Can.bind (Can.bind (can_masterKeyGet hKeyring) ?_ : Can (handle failed)
    (fun r w₁ => ∃ value, r = some value ∧ value ≠ [] ∧
      unwraps aes w₁ value = some ((granted byte).bytes tdbCryptoKeyLen)) (tableKeyWrap aes _ generation) w') ?_
  · rintro r w₁ ⟨master, rfl, -, hMaster⟩
    obtain ⟨wrapped, hWrapped, hNe⟩ := hWraps master _ hPlain
    have hFramed : frameWrappedValue generation wrapped = some (be32Encode generation ++ wrapped) := by
      rw [frameWrappedValue, if_neg (by simpa using hNe)]
    refine ⟨be32Encode generation ++ wrapped, ?_, frameWrappedValue_ne_nil hFramed, ?_⟩
    · rw [hWrapped, bind_some, hFramed]
    · rw [unwraps, parseWrappedValue_frameWrappedValue hGen hFramed, bind_some, hMaster, bind_some,
        hAes _ _ _ hWrapped, nonEmpty_eq_some_iff]
      exact ⟨rfl, hPlain⟩
  · rintro r w₁ ⟨value, rfl, hNe, hUnwraps⟩
    refine Can.bind (can_storePut hNe) ?_
    rintro ok w₂ ⟨rfl, rfl⟩
    refine (can_storePut (cons_ne_nil _ _)).imp ?_
    rintro ok w₃ ⟨rfl, rfl⟩
    refine ⟨?_, latestOf_putLatest_self hVersion⟩
    rw [recorded_putLatest]
    exact (recorded_putWrapped_self hNe).trans hUnwraps

theorem exists_other_key (key : Bytes) : ∃ byte, (granted byte).bytes tdbCryptoKeyLen ≠ key := by
  by_cases hZero : (granted 0).bytes tdbCryptoKeyLen = key
  · refine ⟨1, fun hOne => ?_⟩
    have hEq : (granted 1).bytes tdbCryptoKeyLen = (granted 0).bytes tdbCryptoKeyLen := hOne.trans hZero.symm
    exact absurd (List.cons.inj hEq).1 (by decide)
  · exact ⟨0, hZero⟩

theorem not_keeps_recorded {keyId version : Nat} (hId : keyId < 2 ^ 32) (hVersion : version < 2 ^ 32)
    (h : ¬Recordable aes w keyId version) :
    ∃ byte, ∀ w', recorded aes w' keyId version = some ((granted byte).bytes tdbCryptoKeyLen) →
      latestOf w' keyId = some version → ¬Keeps aes w w' := by
  cases hKey : recorded aes w keyId version with
  | some key =>
    obtain ⟨byte, hByte⟩ := exists_other_key key
    refine ⟨byte, fun w' hRecorded _ hKeeps => hByte ?_⟩
    rw [hKeeps.key hId hVersion hKey] at hRecorded
    exact (some.inj hRecorded).symm
  | none =>
    refine ⟨0, fun w' _ hLatest hKeeps => h ⟨hKey, fun v hv => ?_⟩⟩
    obtain ⟨v', hv', hLe⟩ := hKeeps.latest hId hv
    rw [hLatest] at hv'
    cases hv'
    exact hLe

theorem keyring_seeded : (seeded failed w).keyring = w.keyring := by
  rw [seeded]
  split
  · rfl
  · cases masterRead failed w with
    | none | some generation => rfl

section

variable (hAes : aes.Inverse) (hWraps : WrapsAll aes)
include hAes hWraps

theorem can_harm {w₁ : World} {keyId version generation : Nat} (hKeyring : w₁.keyring generation ≠ some [])
    (hGen : generation < 2 ^ 32) (hId : keyId < 2 ^ 32) (hVersion : version < 2 ^ 32)
    (h : ¬Recordable aes w keyId version) :
    Can (handle failed) (fun _ w' => ¬Keeps aes w w') (recordKey aes keyId version generation) w₁ := by
  obtain ⟨byte, hByte⟩ := not_keeps_recorded hId hVersion h
  refine (can_recordKey hAes hWraps hKeyring hGen hVersion byte).imp ?_
  rintro - w' ⟨hRecorded, hLatest⟩
  exact hByte w' hRecorded hLatest

theorem visits_mint {w₁ : World} {keyId : Nat} (hKeyring : ∀ generation, w₁.keyring generation ≠ some [])
    (hLt : resolved failed w₁ < 2 ^ 32) (hSome : resolved failed w₁ ≠ generationNone) (hId : keyId < 2 ^ 32)
    (h : ¬Recordable aes w keyId generationFirst) :
    Visits (handle failed) (fun w' => ¬Keeps aes w w') (tableKeyMint aes keyId) w₁ := by
  refine Can.visits_bind can_resolve ?_
  rintro generation w' ⟨rfl, rfl⟩
  rw [if_neg hSome]
  refine Can.visits_bind (can_harm hAes hWraps ?_ hLt hId (by decide) h) fun _ _ hs => visits_here hs
  rw [keyring_seeded]
  exact hKeyring _

theorem visits_latestKeyVersion (hSync : Synced w) (hKeyring : ∀ generation, w.keyring generation ≠ some [])
    {keyId : Nat} (hId : keyId < 2 ^ 32) (hAvailable : w.available = true)
    (h : ¬Call.Harmless aes failed w (.latestKeyVersion keyId)) :
    Visits (handle failed) (fun w' => ¬Keeps aes w w') (cryptoLatestKeyVersion aes keyId) w := by
  rw [Call.Harmless, Classical.not_imp] at h
  obtain ⟨hRead, hHarm⟩ := h
  refine Can.visits_bind (Q := fun r w' => r = w.available ∧ w' = w) ⟨granted 0, rfl, rfl⟩ ?_
  rintro available w' ⟨rfl, rfl⟩
  rw [hAvailable, if_pos rfl]
  refine Can.visits_bind (can_storeGet _) ?_
  rintro stored w₁ ⟨hStored, rfl⟩
  rw [hStored, storedField_latestRead, hRead]
  by_cases hSeeds : SeedsSafely failed w₁
  · obtain ⟨hSome, hRecordable⟩ := Classical.not_imp.mp fun hAll => hHarm ⟨hSeeds, hAll⟩
    exact visits_mint hAes hWraps hKeyring (resolved_lt hSync) hSome hId hRecordable
  · refine Can.visits_bind can_resolve ?_
    rintro generation w' ⟨-, rfl⟩
    exact visits_here (not_keeps_seeded hSeeds)

theorem visits_rotateTableKey (hSync : Synced w) (hKeyring : ∀ generation, w.keyring generation ≠ some [])
    {keyId : Nat} (hAvailable : w.available = true) (h : ¬Call.Harmless aes failed w (.rotateTableKey keyId)) :
    Visits (handle failed) (fun w' => ¬Keeps aes w w') (cryptoRotateTableKey aes keyId) w := by
  rw [Call.Harmless, Classical.not_imp, Classical.not_imp] at h
  obtain ⟨hPos, hMax, hHarm⟩ := h
  have hId : keyId < 2 ^ 32 := by
    have hLe : keyId ≤ 255 := hMax
    omega
  refine Can.visits_bind (Q := fun r w' => r = w.available ∧ w' = w) ⟨granted 0, rfl, rfl⟩ ?_
  rintro available w' ⟨rfl, rfl⟩
  rw [hAvailable, if_pos rfl, if_neg (not_or.mpr ⟨Nat.not_lt_of_le hPos, Nat.not_lt_of_le hMax⟩)]
  refine Can.visits_bind can_resolve ?_
  rintro generation w₁ ⟨rfl, rfl⟩
  by_cases hSeeds : SeedsSafely failed w'
  · obtain ⟨hSome, hRest⟩ := Classical.not_imp.mp fun hAll => hHarm ⟨hSeeds, hAll⟩
    obtain ⟨hFits, hRecordable⟩ := Classical.not_imp.mp hRest
    rw [nextVersion] at hFits hRecordable
    have hKeyring₁ : ∀ generation, (seeded failed w').keyring generation ≠ some [] := by
      rw [keyring_seeded]
      exact hKeyring
    rw [if_neg hSome]
    refine Can.visits_bind (can_storeGet _) ?_
    rintro stored w₂ ⟨hStored, rfl⟩
    rw [hStored, storedField_latestRead, latestRead_seeded]
    cases hRead : latestRead failed w' keyId with
    | none =>
      rw [hRead] at hRecordable
      have hInForce : (seeded failed w').masterGeneration ≠ generationNone := by
        rw [masterGeneration_seeded]
        exact hSome
      have hSame : resolved failed (seeded failed w') = resolved failed w' := by
        rw [resolved_of_inForce hInForce, masterGeneration_seeded]
      exact (visits_mint hAes hWraps hKeyring₁ (hSame ▸ resolved_lt hSync) (hSame ▸ hSome) hId hRecordable).bind
    | some current =>
      rw [hRead] at hFits hRecordable
      have hLt : current + 1 ≤ 4096 := hFits
      dsimp only
      rw [if_neg (Nat.not_le_of_lt hFits)]
      exact (can_harm hAes hWraps (hKeyring₁ _) (resolved_lt hSync) hId (Nat.lt_of_le_of_lt hLt (by decide))
        hRecordable).visits
  · exact visits_here (not_keeps_seeded hSeeds)

end

theorem visits_rotateMasterKey (hAvailable : w.available = true) (h : ¬SeedsSafely failed w) :
    Visits (handle failed) (fun w' => ¬Keeps aes w w') (cryptoRotateMasterKey aes) w := by
  refine Can.visits_bind (Q := fun r w' => r = w.available ∧ w' = w) ⟨granted 0, rfl, rfl⟩ ?_
  rintro available w' ⟨rfl, rfl⟩
  rw [hAvailable, if_pos rfl]
  refine Can.visits_bind can_resolve ?_
  rintro generation w₁ ⟨-, rfl⟩
  exact visits_here (not_keeps_seeded h)

end Harm

/-- A call keeps the key store, wherever it is cut short, exactly when no generation above the first is behind a
failed read, and no key or later version stands where a key is to be recorded. -/
theorem key_store_kept_iff {aes : WrapCipher} (hAes : aes.Inverse) (hWraps : WrapsAll aes) (failed : Bytes → Bool)
    {w : World} (hSync : Synced w) (hKeyring : ∀ generation, w.keyring generation ≠ some []) {call : Call}
    (hRange : call.InRange w) :
    (∀ replies, Keeps aes w (call.after aes failed replies w)) ↔ (w.available = true → call.Harmless aes failed w) := by
  constructor
  · intro hKeeps hAvailable
    by_contra hHarm
    have hVisits : Visits (handle failed) (fun w' => ¬Keeps aes w w') (call.prog aes) w := by
      cases call with
      | latestKeyVersion keyId =>
        exact (visits_latestKeyVersion hAes hWraps hSync hKeyring hRange hAvailable hHarm).bind
      | rotateTableKey keyId => exact (visits_rotateTableKey hAes hWraps hSync hKeyring hAvailable hHarm).bind
      | rotateMasterKey => exact (visits_rotateMasterKey hAvailable hHarm).bind
    obtain ⟨replies, hNot⟩ := hVisits
    exact hNot (hKeeps replies)
  · intro hHarmless replies
    have hSafe : Safe (handle failed) (Keeps aes w) (fun _ => Keeps aes w) (call.prog aes) w := by
      cases call with
      | latestKeyVersion keyId => exact (safe_latestKeyVersion hAes hSync hRange hHarmless).bind fun _ _ hs => hs
      | rotateTableKey keyId => exact (safe_rotateTableKey hAes hSync hHarmless).bind fun _ _ hs => hs
      | rotateMasterKey => exact (safe_rotateMasterKey hAes hSync hRange hHarmless).bind fun _ _ hs => hs
    exact (hSafe.exec (.refl aes w) replies).1

section Samples

def plainWrap : WrapCipher := ⟨fun master src => some (master ++ src), fun master src => some (src.drop master.length)⟩

theorem plainWrap_inverse : plainWrap.Inverse := by
  intro master plain wrapped h
  cases h
  exact congrArg some (drop_left ..)

theorem plainWrap_wrapsAll : WrapsAll plainWrap :=
  fun _ _ hNe => ⟨_, rfl, append_ne_nil_of_right_ne_nil _ hNe⟩

def twoVersions : World where
  store := ((((Store.empty.put encodeMasterSeqKey (be32Encode 2)).put (encodeLatestKey 1) (be32Encode 2)).put
    (encodeWrappedKey 1 1) (be32Encode 2 ++ [9, 5])).put (encodeWrappedKey 1 2) (be32Encode 2 ++ [9, 6]))
  keyring generation := if generation = 2 then some [9] else none
  available := true
  masterGeneration := 0

theorem synced_twoVersions : Synced twoVersions := .inl rfl

theorem keyring_twoVersions (generation : Nat) : twoVersions.keyring generation ≠ some [] := by
  rw [twoVersions]
  dsimp only
  split
  · exact nofun
  · exact nofun

theorem twoVersions_kept : Keeps plainWrap twoVersions
      (Call.after plainWrap (fun _ => false) (List.replicate 12 (granted 7)) twoVersions (.rotateTableKey 1)) := by
  have hRange : (Call.rotateTableKey 1).InRange twoVersions := trivial
  refine (key_store_kept_iff plainWrap_inverse plainWrap_wrapsAll
    (fun _ => false) synced_twoVersions keyring_twoVersions
    hRange).mpr (fun _ _ _ => ⟨fun _ hRead => absurd hRead (by decide), fun _ _ => ?_⟩) _
  refine ⟨by decide, fun v hv => ?_⟩
  have hLatest : latestOf twoVersions 1 = some 2 := by decide
  rw [hLatest] at hv
  cases hv
  decide

/-- The reads of the latest version and of the generation fail: the first version is minted again. -/
theorem first_key_replaced : ¬ ∀ (failed : Bytes → Bool) (replies : List Reply),
      Keeps plainWrap twoVersions (Call.after plainWrap failed replies twoVersions (.latestKeyVersion 1)) := by
  intro hAll
  have hKeeps := hAll (fun _ => true) (replicate 12 (granted 7))
  have hBefore : recorded plainWrap twoVersions 1 1 = some [5] := by decide
  have hAfter : recorded plainWrap (Call.after plainWrap (fun _ => true) (replicate 12 (granted 7)) twoVersions
    (.latestKeyVersion 1)) 1 1 ≠ some [5] := by decide +kernel
  exact hAfter (hKeeps.key (by decide) (by decide) hBefore)

end Samples

end TideSql.KeyReads
