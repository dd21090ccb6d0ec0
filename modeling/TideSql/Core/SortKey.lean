import Mathlib.Data.List.Basic

/-!
# Reading a value back from its sort key

`decode_part` reverses the sort key of one key part.
-/

namespace TideSql.SortKey
open List

abbrev Bytes := List UInt8

def intSignFlipMask : UInt8 := 0x80
def datePackLen : Nat := 3
def datetimeMaxPackLen : Nat := 8

inductive Kind where
  | undecodable
  | integer
  | year
  | date
  | datetime
  | charFixed
  deriving DecidableEq, Repr

structure FieldSortDesc where
  k : Kind := .undecodable
  isSigned : Bool := false
  packLength : Nat := 0
  padByte : UInt8 := 0x20
  deriving DecidableEq, Repr

def decodeInt (src : Bytes) (isSigned : Bool) : Option Bytes :=
  if src.length = 0 ∨ (4 < src.length ∧ src.length ≠ 8) then none
  else if isSigned then some (src.reverse.modify (src.length - 1) (· ^^^ intSignFlipMask))
  else some src.reverse

def decodePart (d : FieldSortDesc) (src : Bytes) : Option Bytes :=
  match d.k with
  | .integer => decodeInt src d.isSigned
  | .year => src.head?.map fun b => [b]
  | .date => if src.length ≠ datePackLen then none else some src.reverse
  | .datetime => if src.length = 0 ∨ datetimeMaxPackLen < src.length then none else some src.reverse
  | .charFixed => some (src.take d.packLength ++ replicate (d.packLength - src.length) d.padByte)
  | .undecodable => none

def intSortString (isSigned : Bool) (v : Bytes) : Bytes :=
  if isSigned then (v.modify (v.length - 1) (· ^^^ intSignFlipMask)).reverse else v.reverse

theorem flip_flip (v : Bytes) (i : Nat) :
    (v.modify i (· ^^^ intSignFlipMask)).modify i (· ^^^ intSignFlipMask) = v := by
  have hId : (fun b : UInt8 => b ^^^ intSignFlipMask) ∘ (fun b => b ^^^ intSignFlipMask) = id := by
    funext b
    rw [Function.comp_apply, UInt8.xor_assoc, UInt8.xor_self, UInt8.xor_zero, id]
  rw [modify_modify_eq, hId, modify_id]

theorem length_intSortString (isSigned : Bool) (v : Bytes) : (intSortString isSigned v).length = v.length := by
  cases isSigned <;> simp [intSortString]

/-- Decoding an integer undoes its sort string. -/
theorem decodeInt_intSortString {v : Bytes} (hWidth : v.length ∈ [1, 2, 3, 4, 8]) (isSigned : Bool) :
    decodeInt (intSortString isSigned v) isSigned = some v := by
  have hOk : ¬(v.length = 0 ∨ (4 < v.length ∧ v.length ≠ 8)) := by
    simp only [mem_cons, not_mem_nil, or_false] at hWidth
    omega
  rw [decodeInt, length_intSortString, if_neg hOk]
  cases isSigned with
  | false => rw [intSortString, if_neg Bool.false_ne_true, if_neg Bool.false_ne_true, reverse_reverse]
  | true => rw [intSortString, if_pos rfl, if_pos rfl, reverse_reverse, flip_flip]

end TideSql.SortKey
