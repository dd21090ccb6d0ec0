import TideSql.Lib.Bytes
import Mathlib.Data.List.Basic

/-!
# The layout of the key store

The reserved family holds the master generation in force, the wrapped table keys and the highest version of
each key id.
-/

namespace TideSql.CryptoKeyenc
open Lib.Bytes List

abbrev Bytes := List UInt8

inductive Ns where
  | masterSeq
  | wrapped
  | latest
  deriving DecidableEq, Repr

def Ns.byte : Ns → UInt8
  | .masterSeq => 0x00
  | .wrapped => 0x01
  | .latest => 0x02

def fieldLen : Nat := 4

def generationNone : Nat := 0
def generationFirst : Nat := 1

def be32Encode (v : Nat) : Bytes := toBE fieldLen v

def be32Decode (bytes : Bytes) : Nat := ofBE bytes

def encodeKey (n : Ns) (fields : List Nat) : Bytes := n.byte :: fields.flatMap be32Encode

def encodeMasterSeqKey : Bytes := encodeKey .masterSeq []

def encodeLatestKey (keyId : Nat) : Bytes := encodeKey .latest [keyId]

def encodeWrappedKey (keyId version : Nat) : Bytes := encodeKey .wrapped [keyId, version]

def frameWrappedValue (generation : Nat) (wrapped : Bytes) : Option Bytes :=
  if wrapped.isEmpty then none else some (be32Encode generation ++ wrapped)

def parseWrappedValue (stored : Bytes) : Option (Nat × Bytes) :=
  if stored.length ≤ fieldLen then none else some (be32Decode (stored.take fieldLen), stored.drop fieldLen)

@[simp] theorem length_be32Encode (v : Nat) : (be32Encode v).length = fieldLen := length_toBE fieldLen v

theorem be32Decode_be32Encode (v : Nat) : be32Decode (be32Encode v) = v % 2 ^ 32 := ofBE_toBE fieldLen v

theorem be32Decode_lt {bytes : Bytes} (h : bytes.length = fieldLen) : be32Decode bytes < 2 ^ 32 := by
  have hLt := ofBE_lt bytes
  rw [h] at hLt
  exact hLt

theorem be32Encode_inj {v v' : Nat} (hv : v < 2 ^ 32) (hv' : v' < 2 ^ 32) (h : be32Encode v = be32Encode v') :
    v = v' := by
  have hDecoded := congrArg be32Decode h
  rwa [be32Decode_be32Encode, be32Decode_be32Encode, Nat.mod_eq_of_lt hv, Nat.mod_eq_of_lt hv'] at hDecoded

theorem Ns.byte_injective : Function.Injective Ns.byte := by
  intro n n' h
  cases n <;> cases n' <;> first | rfl | exact absurd h (by decide)

theorem encodeKey_ne {n n' : Ns} (h : n ≠ n') (fields fields' : List Nat) :
    encodeKey n fields ≠ encodeKey n' fields' := fun hEq => h (Ns.byte_injective (List.cons.inj hEq).1)

theorem encodeKey_ne_masterSeqKey {n : Ns} (h : n ≠ .masterSeq) (fields : List Nat) :
    encodeKey n fields ≠ encodeMasterSeqKey := encodeKey_ne h fields []

theorem encodeLatestKey_ne_masterSeqKey (keyId : Nat) : encodeLatestKey keyId ≠ encodeMasterSeqKey :=
  encodeKey_ne_masterSeqKey (by decide) _

theorem encodeWrappedKey_ne_masterSeqKey (keyId version : Nat) : encodeWrappedKey keyId version ≠ encodeMasterSeqKey :=
  encodeKey_ne_masterSeqKey (by decide) _

theorem encodeLatestKey_ne_wrappedKey (keyId keyId' version : Nat) :
    encodeLatestKey keyId ≠ encodeWrappedKey keyId' version := encodeKey_ne (by decide) _ _

theorem encodeWrappedKey_inj {keyId keyId' version version' : Nat} (hId : keyId < 2 ^ 32) (hId' : keyId' < 2 ^ 32)
    (hVersion : version < 2 ^ 32) (hVersion' : version' < 2 ^ 32)
    (h : encodeWrappedKey keyId version = encodeWrappedKey keyId' version') : keyId = keyId' ∧ version = version' := by
  simp only [encodeWrappedKey, encodeKey, flatMap_cons, flatMap_nil, append_nil, List.cons.injEq, true_and] at h
  obtain ⟨hFirst, hSecond⟩ := append_inj h (by simp)
  exact ⟨be32Encode_inj hId hId' hFirst, be32Encode_inj hVersion hVersion' hSecond⟩

theorem encodeLatestKey_inj {keyId keyId' : Nat} (hId : keyId < 2 ^ 32) (hId' : keyId' < 2 ^ 32)
    (h : encodeLatestKey keyId = encodeLatestKey keyId') : keyId = keyId' := by
  simp only [encodeLatestKey, encodeKey, flatMap_cons, flatMap_nil, append_nil, List.cons.injEq, true_and] at h
  exact be32Encode_inj hId hId' h

/-- A framed value is read back with the generation it was wrapped under. -/
theorem parseWrappedValue_frameWrappedValue {generation : Nat} {wrapped framed : Bytes} (hGen : generation < 2 ^ 32)
    (h : frameWrappedValue generation wrapped = some framed) :
      parseWrappedValue framed = some (generation, wrapped) := by
  rw [frameWrappedValue] at h
  split at h
  · cases h
  · rename_i hSome
    cases h
    have hPos : 0 < wrapped.length := List.length_pos_iff.mpr fun hNil => hSome (hNil ▸ rfl)
    have hLen : (be32Encode generation).length = fieldLen := length_be32Encode generation
    rw [parseWrappedValue, if_neg (by rw [length_append, hLen]; omega), take_left' hLen, drop_left' hLen,
      be32Decode_be32Encode, Nat.mod_eq_of_lt hGen]

theorem frameWrappedValue_ne_nil {generation : Nat} {wrapped framed : Bytes}
    (h : frameWrappedValue generation wrapped = some framed) : framed ≠ [] := by
  rw [frameWrappedValue] at h
  split at h
  · cases h
  · cases h
    exact append_ne_nil_of_left_ne_nil (cons_ne_nil _ _) _

end TideSql.CryptoKeyenc
