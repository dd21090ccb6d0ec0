import Mathlib
import TideSql.Lib.Bytes

/-!
# The order of byte strings

Byte strings are compared as `memcmp` does, a prefix before its extensions.
The extensions of one string follow each other without a gap.
-/

namespace Lib.ByteOrder
open List Nat

instance byteOrder : LinearOrder UInt8 where
  le_refl := UInt8.le_refl
  le_trans _ _ _ := UInt8.le_trans
  lt_iff_le_not_ge a b := by
    rw [UInt8.not_le, iff_and_self]
    exact UInt8.le_of_lt
  le_antisymm _ _ := UInt8.le_antisymm
  le_total := UInt8.le_total
  toDecidableLE := inferInstance
  toDecidableEq := inferInstance
  toDecidableLT := inferInstance

variable {α : Type*} [LinearOrder α] {k x y : List α}

theorem prefix_le (h : k <+: x) : k ≤ x := not_lt.mp (IsPrefix.le h)

theorem append_lt_of_not_prefixed (hLe : k ≤ x) (hNot : ¬k <+: x) (t : List α) : k ++ t < x := by
  rw [← not_lt] at hLe
  induction k generalizing x with
  | nil => exact absurd nil_prefix hNot
  | cons a k ih =>
    cases x with
    | nil => exact absurd (nil_lt_cons a k) hLe
    | cons b x =>
      rw [cons_lt_cons_iff, not_or, not_and, not_lt] at hLe
      rw [cons_append, cons_lt_cons_iff]
      obtain hLt | rfl := lt_or_eq_of_le hLe.1
      · exact .inl hLt
      · exact .inr ⟨rfl, ih (hLe.2 rfl) fun hPre => hNot (List.cons_prefix_cons.mpr ⟨rfl, hPre⟩)⟩

theorem not_prefix_of_lt (hLe : k ≤ x) (hNot : ¬k <+: x) (hLt : x < y) : ¬k <+: y := by
  rintro ⟨t, rfl⟩
  exact lt_asymm hLt (append_lt_of_not_prefixed hLe hNot t)

theorem append_lt_append (hLen : x.length = y.length) (h : x < y) (s t : List α) : x ++ s < y ++ t := by
  induction x generalizing y with
  | nil =>
    rw [eq_nil_of_length_eq_zero hLen.symm] at h
    exact absurd h (lt_irrefl _)
  | cons a x ih =>
    cases y with
    | nil => cases hLen
    | cons b y =>
      rw [cons_append, cons_append, cons_lt_cons_iff]
      obtain hHead | ⟨rfl, hTail⟩ := List.cons_lt_cons_iff.mp h
      · exact .inl hHead
      · exact .inr ⟨rfl, ih (succ.inj hLen) hTail⟩

theorem le_of_append_le_append (hLen : x.length = y.length) {s t : List α} (h : x ++ s ≤ y ++ t) : x ≤ y :=
  not_lt.mp fun hLt => not_le.mpr (append_lt_append hLen.symm hLt t s) h

theorem append_le_append (k : List α) (h : x ≤ y) : k ++ x ≤ k ++ y := by
  rw [← not_lt] at h ⊢
  induction k with
  | nil => exact h
  | cons a k ih =>
    rw [cons_append, cons_append, cons_lt_cons_iff]
    simpa using ih

-- Mathlib's lemmas on `cmp` are about the decision of the linear order
attribute [local instance (2000)] LinearOrder.toDecidableLT

theorem cmp_append (hLen : x.length = y.length) (s t : List α) :
    cmp (x ++ s) (y ++ t) = (cmp x y).then (cmp s t) := by
  obtain hLt | rfl | hGt := lt_trichotomy x y
  · rw [hLt.cmp_eq_lt, LT.lt.cmp_eq_lt (append_lt_append hLen hLt s t)]
    rfl
  · have hMono (a b : List α) (hLt : a < b) : x ++ a < x ++ b :=
      lt_of_le_of_ne (append_le_append x hLt.le) fun hEq => hLt.ne (append_cancel_left hEq)
    rw [cmp_self_eq_eq, Ordering.then]
    obtain hLt | rfl | hGt := lt_trichotomy s t
    · rw [hLt.cmp_eq_lt, LT.lt.cmp_eq_lt (hMono s t hLt)]
    · rw [cmp_self_eq_eq, cmp_self_eq_eq]
    · rw [hGt.cmp_eq_gt, LT.lt.cmp_eq_gt (hMono t s hGt)]
  · rw [hGt.cmp_eq_gt, LT.lt.cmp_eq_gt (append_lt_append hLen.symm hGt t s)]
    rfl

theorem le_replicate_max (a : List UInt8) : a ≤ List.replicate a.length 0xFF := by
  induction a with
  | nil => exact le_rfl
  | cons b a ih =>
    have hByte : b ≤ 0xFF := UInt8.le_iff_toNat_le.mpr (le_of_lt_succ b.toNat_lt)
    rw [← not_lt] at ih ⊢
    rw [length_cons, replicate_succ, cons_lt_cons_iff]
    rintro (hLt | ⟨-, hRest⟩)
    · exact not_lt.mpr hByte hLt
    · exact ih hRest

theorem ofBE_le_ofBE {a b : List UInt8} (hLen : a.length = b.length) (h : a ≤ b) : Bytes.ofBE a ≤ Bytes.ofBE b := by
  induction a generalizing b with
  | nil =>
    rw [eq_nil_of_length_eq_zero hLen.symm]
  | cons x a ih =>
    cases b with
    | nil => cases hLen
    | cons y b =>
      have hTail : a.length = b.length := succ.inj hLen
      rw [Bytes.ofBE_cons, Bytes.ofBE_cons, hTail]
      obtain hLt | hEq := lt_or_eq_of_le h
      · obtain hHead | ⟨rfl, hRest⟩ := List.cons_lt_cons_iff.mp hLt
        · have hByte : x.toNat + 1 ≤ y.toNat := UInt8.lt_iff_toNat_lt.mp hHead
          have hLow := Bytes.ofBE_lt a
          rw [hTail] at hLow
          have hStep := mul_le_mul_right (256 ^ b.length) hByte
          rw [add_mul, one_mul] at hStep
          omega
        · exact Nat.add_le_add_left (ih hTail hRest.le) _
      · cases hEq
        exact le_refl _

theorem ofBE_le_ofBE_iff {a b : List UInt8} (hLen : a.length = b.length) : Bytes.ofBE a ≤ Bytes.ofBE b ↔ a ≤ b := by
  refine ⟨fun h => ?_, ofBE_le_ofBE hLen⟩
  obtain hLe | hGe := le_total a b
  · exact hLe
  · have hEq : Bytes.ofBE a = Bytes.ofBE b := le_antisymm h (ofBE_le_ofBE hLen.symm hGe)
    rw [← Bytes.toBE_ofBE a, ← Bytes.toBE_ofBE b, hEq, hLen]

theorem ofBE_not (a : List UInt8) : Bytes.ofBE (a.map fun b => ~~~b) + Bytes.ofBE a + 1 = 256 ^ a.length := by
  induction a with
  | nil => rfl
  | cons x a ih =>
    have hByte : (~~~x).toNat = 255 - x.toNat := by simp [UInt8.toNat_not]
    have hLt : x.toNat < 256 := x.toNat_lt
    rw [map_cons, Bytes.ofBE_cons, Bytes.ofBE_cons, length_map, length_cons, hByte, pow_succ, ← ih, Nat.sub_mul]
    have hLe : x.toNat * (Bytes.ofBE (a.map fun b => ~~~b) + Bytes.ofBE a + 1) ≤
        255 * (Bytes.ofBE (a.map fun b => ~~~b) + Bytes.ofBE a + 1) := mul_le_mul_right _ (by omega)
    omega

theorem not_le_not_iff {a b : List UInt8} (hLen : a.length = b.length) :
    (a.map fun c => ~~~c) ≤ (b.map fun c => ~~~c) ↔ b ≤ a := by
  have hLen' : (a.map fun c => ~~~c).length = (b.map fun c => ~~~c).length := by
    rw [length_map, length_map, hLen]
  have ha := ofBE_not a
  have hb := ofBE_not b
  rw [hLen] at ha
  rw [← ofBE_le_ofBE_iff hLen', ← ofBE_le_ofBE_iff hLen.symm]
  omega

theorem cmp_not {a b : List UInt8} (hLen : a.length = b.length) :
    cmp (a.map fun c => ~~~c) (b.map fun c => ~~~c) = cmp b a := by
  have hLt (a b : List UInt8) (hLen : a.length = b.length) (h : a < b) :
      (b.map fun c => ~~~c) < (a.map fun c => ~~~c) :=
    lt_of_not_ge fun hGe => not_le.mpr h ((not_le_not_iff hLen).mp hGe)
  obtain h | rfl | h := lt_trichotomy a b
  · rw [h.cmp_eq_gt, LT.lt.cmp_eq_gt (hLt a b hLen h)]
  · rw [cmp_self_eq_eq, cmp_self_eq_eq]
  · rw [h.cmp_eq_lt, LT.lt.cmp_eq_lt (hLt b a hLen.symm h)]

end Lib.ByteOrder
