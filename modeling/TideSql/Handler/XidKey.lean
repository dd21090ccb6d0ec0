import TideSql.Lib.Bytes

/-!
# The stored form of an XID

`tdb_xid_key` and `tdb_xid_from_key`: format id (8 bytes), the two lengths (4 bytes each), then the two
identifiers back to back.
-/

namespace TideSql.XidKey
open Lib.Bytes List

def xidDataSize : Nat := 128
def tdbXidHdrLen : Nat := 16

/-- The server keeps both identifiers in one array of `XIDDATASIZE` bytes. -/
structure Xid where
  formatId : BitVec 64
  gtrid : List UInt8
  bqual : List UInt8
  fits : gtrid.length + bqual.length ≤ xidDataSize
  deriving DecidableEq

abbrev Key := List UInt8

def tdbXidKey (xid : Xid) : Key :=
  toBE 8 xid.formatId.toNat ++ toBE 4 xid.gtrid.length ++ toBE 4 xid.bqual.length ++ (xid.gtrid ++ xid.bqual)

def tdbXidFromKey (key : Key) : Option Xid :=
  if key.length < tdbXidHdrLen then none
  else
    let fmt := ofBE (key.take 8)
    let gl := ofBE ((key.drop 8).take 4)
    let bl := ofBE ((key.drop 12).take 4)
    if h : gl > xidDataSize ∨ bl > xidDataSize ∨ gl + bl > xidDataSize then none
    else if key.length ≠ tdbXidHdrLen + gl + bl then none
    else
      let data := key.drop tdbXidHdrLen
      some
        { formatId := BitVec.ofNat 64 fmt
          gtrid := data.take gl
          bqual := (data.drop gl).take bl
          fits := by
            have := List.length_take_le gl data
            have := List.length_take_le bl (data.drop gl)
            omega }

theorem key_parts (key : Key) :
    key = key.take 8 ++ (key.drop 8).take 4 ++ (key.drop 12).take 4 ++ key.drop tdbXidHdrLen := by
  have h₈ : (key.drop 8).take 4 ++ key.drop 12 = key.drop 8 := by
    rw [show key.drop 12 = (key.drop 8).drop 4 by rw [drop_drop], take_append_drop]
  have h₁₂ : (key.drop 12).take 4 ++ key.drop tdbXidHdrLen = key.drop 12 := by
    rw [show key.drop tdbXidHdrLen = (key.drop 12).drop 4 by rw [drop_drop]; rfl, take_append_drop]
  rw [append_assoc, h₁₂, append_assoc, h₈, take_append_drop]

theorem header_slices {a b c d : List UInt8} (ha : a.length = 8) (hb : b.length = 4) (hc : c.length = 4) :
    (a ++ b ++ c ++ d).take 8 = a ∧ ((a ++ b ++ c ++ d).drop 8).take 4 = b ∧
      ((a ++ b ++ c ++ d).drop 12).take 4 = c ∧ (a ++ b ++ c ++ d).drop tdbXidHdrLen = d := by
  have h₁₂ : (a ++ b).length = 12 := by simp [ha, hb]
  have h₁₆ : (a ++ b ++ c).length = tdbXidHdrLen := by simp [ha, hb, hc, tdbXidHdrLen]
  refine ⟨?_, ?_, ?_, ?_⟩
  · rw [append_assoc, append_assoc, take_left' ha]
  · rw [append_assoc, append_assoc, drop_left' ha, take_left' hb]
  · rw [append_assoc (a ++ b), drop_left' h₁₂, take_left' hc]
  · rw [drop_left' h₁₆]

theorem tdbXidFromKey_tdbXidKey (xid : Xid) : tdbXidFromKey (tdbXidKey xid) = some xid := by
  obtain ⟨fmt, gtrid, bqual, hFits⟩ := xid
  have hSum : gtrid.length + bqual.length ≤ 128 := hFits
  have hFmt : fmt.toNat % 256 ^ 8 = fmt.toNat := Nat.mod_eq_of_lt (by have := fmt.isLt; omega)
  have hGl : gtrid.length % 256 ^ 4 = gtrid.length := Nat.mod_eq_of_lt (by omega)
  have hBl : bqual.length % 256 ^ 4 = bqual.length := Nat.mod_eq_of_lt (by omega)
  obtain ⟨h₀, h₁, h₂, h₃⟩ := header_slices (d := gtrid ++ bqual) (length_toBE 8 fmt.toNat)
    (length_toBE 4 gtrid.length) (length_toBE 4 bqual.length)
  have hLen : (tdbXidKey ⟨fmt, gtrid, bqual, hFits⟩).length = tdbXidHdrLen + gtrid.length + bqual.length := by
    simp [tdbXidKey, tdbXidHdrLen]
    omega
  rw [tdbXidFromKey, if_neg (by omega)]
  simp only [tdbXidKey, h₀, h₁, h₂, h₃, ofBE_toBE, hFmt, hGl, hBl] at hLen ⊢
  rw [dif_neg (by rw [xidDataSize]; omega), if_neg (not_not.mpr hLen)]
  simp

theorem toBE_ofBE_of_length {bytes : List UInt8} {w : Nat} (h : bytes.length = w) : toBE w (ofBE bytes) = bytes := by
  rw [← h, toBE_ofBE]

theorem tdbXidKey_of_tdbXidFromKey {key : Key} {xid : Xid} (h : tdbXidFromKey key = some xid) :
    tdbXidKey xid = key := by
  rw [tdbXidFromKey] at h
  dsimp only at h
  split at h
  · cases h
  · rename_i hHdr
    split at h
    · cases h
    · split at h
      · cases h
      · rename_i hBounds hLen
        cases h
        rw [not_not] at hLen
        have hHdr' : 16 ≤ key.length := Nat.le_of_not_lt hHdr
        have hFmt : (key.take 8).length = 8 := by simp; omega
        have hGl : ((key.drop 8).take 4).length = 4 := by simp; omega
        have hBl : ((key.drop 12).take 4).length = 4 := by simp; omega
        have hData : (key.drop tdbXidHdrLen).length = ofBE ((key.drop 8).take 4) + ofBE ((key.drop 12).take 4) := by
          rw [length_drop]
          omega
        have hNum : (BitVec.ofNat 64 (ofBE (key.take 8))).toNat = ofBE (key.take 8) := by
          have hLt := ofBE_lt (key.take 8)
          rw [hFmt] at hLt
          rw [BitVec.toNat_ofNat, Nat.mod_eq_of_lt (by omega)]
        have hGtrid : ((key.drop tdbXidHdrLen).take (ofBE ((key.drop 8).take 4))).length =
            ofBE ((key.drop 8).take 4) := by
          rw [length_take, hData]
          omega
        have hBqual : ((key.drop tdbXidHdrLen).drop (ofBE ((key.drop 8).take 4))).length =
            ofBE ((key.drop 12).take 4) := by
          rw [length_drop, hData]
          omega
        simp only [tdbXidKey]
        rw [hNum, hGtrid, take_of_length_le hBqual.le, hBqual, toBE_ofBE_of_length hFmt,
          toBE_ofBE_of_length hGl, toBE_ofBE_of_length hBl, take_append_drop]
        exact (key_parts key).symm

theorem tdbXidKey_injective : Function.Injective tdbXidKey := by
  intro x y h
  have hx := tdbXidFromKey_tdbXidKey x
  rw [h, tdbXidFromKey_tdbXidKey] at hx
  exact (Option.some.inj hx).symm

end TideSql.XidKey
