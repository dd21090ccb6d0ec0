import Mathlib.Data.Nat.Basic
import Mathlib.Tactic.Ring

/-!
# Fixed-width numbers as bytes

Most significant byte first (`BE`) or last (`LE`). A number that does not fit
its width is cut to it, as a machine conversion does.
-/

namespace Lib.Bytes
open List Nat

def toBE : Nat → Nat → List UInt8
  | 0, _ => []
  | w + 1, v => UInt8.ofNat (v / 256 ^ w) :: toBE w v

def ofBE (bytes : List UInt8) : Nat := bytes.foldl (fun v b => v * 256 + b.toNat) 0

@[simp] theorem length_toBE (w v : Nat) : (toBE w v).length = w := by
  induction w with
  | zero => rfl
  | succ w ih => simp [toBE, ih]

theorem foldl_be (bytes : List UInt8) (v : Nat) :
    bytes.foldl (fun v b => v * 256 + b.toNat) v = v * 256 ^ bytes.length + ofBE bytes := by
  induction bytes generalizing v with
  | nil => simp [ofBE]
  | cons b bytes ih =>
    rw [ofBE, foldl_cons, foldl_cons, ih, ih (0 * 256 + b.toNat), length_cons]
    ring

theorem ofBE_cons (b : UInt8) (bytes : List UInt8) : ofBE (b :: bytes) = b.toNat * 256 ^ bytes.length + ofBE bytes := by
  rw [ofBE, foldl_cons, foldl_be, zero_mul, zero_add]

theorem ofBE_toBE (w v : Nat) : ofBE (toBE w v) = v % 256 ^ w := by
  induction w with
  | zero => simp [toBE, ofBE, mod_one]
  | succ w ih =>
    have hByte : (UInt8.ofNat (v / 256 ^ w)).toNat = v / 256 ^ w % 256 := by
      simp [UInt8.toNat_ofNat']
    rw [toBE, ofBE_cons, length_toBE, ih, hByte, pow_succ, mod_mul]
    ring

theorem ofBE_lt (bytes : List UInt8) : ofBE bytes < 256 ^ bytes.length := by
  induction bytes with
  | nil => simp [ofBE]
  | cons b bytes ih =>
    have hb : b.toNat < 256 := b.toNat_lt
    rw [ofBE_cons, length_cons, pow_succ]
    calc b.toNat * 256 ^ bytes.length + ofBE bytes
        < b.toNat * 256 ^ bytes.length + 256 ^ bytes.length := Nat.add_lt_add_left ih _
      _ = (b.toNat + 1) * 256 ^ bytes.length := by ring
      _ ≤ 256 * 256 ^ bytes.length := mul_le_mul_right _ hb
      _ = 256 ^ bytes.length * 256 := mul_comm _ _

theorem toBE_congr (w v v' : Nat) (h : v % 256 ^ w = v' % 256 ^ w) : toBE w v = toBE w v' := by
  induction w with
  | zero => rfl
  | succ w ih =>
    have hLow : v % 256 ^ w = v' % 256 ^ w := by
      rw [← mod_mul_right_mod v _ 256, ← mod_mul_right_mod v' _ 256, ← pow_succ, h]
    have hHigh : v / 256 ^ w % 256 = v' / 256 ^ w % 256 := by
      rw [← mod_mul_right_div_self, ← mod_mul_right_div_self, ← pow_succ, h]
    have hByte : UInt8.ofNat (v / 256 ^ w) = UInt8.ofNat (v' / 256 ^ w) := by
      apply UInt8.toNat_inj.mp
      simpa [UInt8.toNat_ofNat'] using hHigh
    rw [toBE, toBE, hByte, ih hLow]

theorem toBE_ofBE (bytes : List UInt8) : toBE bytes.length (ofBE bytes) = bytes := by
  induction bytes with
  | nil => rfl
  | cons b bytes ih =>
    have hLow := ofBE_lt bytes
    have hHigh : (b.toNat * 256 ^ bytes.length + ofBE bytes) / 256 ^ bytes.length = b.toNat := by
      rw [Nat.mul_comm, Nat.mul_add_div (Nat.pow_pos (by decide)), Nat.div_eq_of_lt hLow, Nat.add_zero]
    have hRest : toBE bytes.length (b.toNat * 256 ^ bytes.length + ofBE bytes) = bytes := by
      rw [toBE_congr _ _ (ofBE bytes) (mul_add_mod_self_right _ _ _), ih]
    rw [length_cons, toBE, ofBE_cons, hHigh, hRest, UInt8.ofNat_toNat]

def toLE (w v : Nat) : List UInt8 := (toBE w v).reverse

def ofLE (bytes : List UInt8) : Nat := ofBE bytes.reverse

@[simp] theorem length_toLE (w v : Nat) : (toLE w v).length = w := by simp [toLE]

theorem ofLE_toLE (w v : Nat) : ofLE (toLE w v) = v % 256 ^ w := by rw [ofLE, toLE, reverse_reverse, ofBE_toBE]

def putStr (s : List UInt8) : List UInt8 := toBE 4 s.length ++ s

def getStr (cap : Nat) (p : List UInt8) : Option (List UInt8 × List UInt8) :=
  if p.length < 4 then none
  else
    let n := ofBE (p.take 4)
    if n > cap ∨ (p.drop 4).length < n then none else some ((p.drop 4).take n, (p.drop 4).drop n)

theorem getStr_eq_some_iff {cap : Nat} (hCap : cap < 2 ^ 32) {p s rest : List UInt8} :
    getStr cap p = some (s, rest) ↔ s.length ≤ cap ∧ p = putStr s ++ rest := by
  rw [getStr]
  constructor
  · intro h
    split at h
    · cases h
    · rename_i hHead
      dsimp only at h
      split at h
      · cases h
      · rename_i hFits
        cases h
        have hLen : ((p.drop 4).take (ofBE (p.take 4))).length = ofBE (p.take 4) := by
          rw [length_take]
          omega
        have hFour : (p.take 4).length = 4 := by
          rw [length_take]
          omega
        have hNum : toBE 4 (ofBE (p.take 4)) = p.take 4 := by
          nth_rewrite 1 [← hFour]
          exact toBE_ofBE _
        rw [putStr, hLen, hNum, append_assoc, take_append_drop, take_append_drop]
        exact ⟨by omega, rfl⟩
  · rintro ⟨hLen, rfl⟩
    have hNum : ofBE (toBE 4 s.length) = s.length := by rw [ofBE_toBE, Nat.mod_eq_of_lt (by omega)]
    rw [putStr, append_assoc, if_neg (by simp)]
    simp only [take_left' (length_toBE ..), drop_left' (length_toBE ..), hNum]
    rw [if_neg (by rw [length_append]; omega), take_left' rfl, drop_left' rfl]

end Lib.Bytes
