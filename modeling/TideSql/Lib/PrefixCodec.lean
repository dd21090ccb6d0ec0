import TideSql.Lib.Bytes

/-!
# Codecs that know where a value ends

Reading takes one value off the front of the bytes and gives back the rest,
or fails when they are too short.
-/

namespace Lib

structure PrefixCodec (σ : Type*) where
  Valid : σ → Prop
  encode : σ → List UInt8
  decode : List UInt8 → Option (σ × List UInt8)
  decode_encode : ∀ v rest, Valid v → decode (encode v ++ rest) = some (v, rest)
  encode_ne_nil : ∀ v, Valid v → encode v ≠ []

namespace PrefixCodec

def fixed (n : Nat) (hn : 0 < n) : PrefixCodec (List UInt8) where
  Valid v := v.length = n
  encode v := v
  decode bytes := if bytes.length < n then none else some (bytes.take n, bytes.drop n)
  decode_encode v rest hv := by
    have hLong : ¬(v ++ rest).length < n := by
      rw [List.length_append]
      omega
    rw [if_neg hLong, List.take_left' hv, List.drop_left' hv]
  encode_ne_nil v hv hNil := by
    rw [hNil] at hv
    exact hn.ne hv

/-- Nothing is read from a proper beginning of an encoding. -/
def Strict {σ : Type*} (C : PrefixCodec σ) : Prop :=
  ∀ v bytes, C.Valid v → bytes <+: C.encode v → bytes ≠ C.encode v → C.decode bytes = none

theorem strict_fixed (n : Nat) (hn : 0 < n) : (fixed n hn).Strict := by
  intro v bytes hv hPrefix hNe
  refine if_pos (Nat.lt_of_le_of_ne (hv ▸ hPrefix.length_le) fun hLen => hNe ?_)
  exact hPrefix.eq_of_length (hLen.trans (Eq.symm hv))

end PrefixCodec

end Lib
