import TideSql.Core.SortKey
import TideSql.Lib.ByteOrder

/-!
# VARBINARY key parts

A VARBINARY part holds the bytes of the value, filled up with zeros, and behind them its length; a value that
is too long for this goes on into the place of the length.
-/

namespace TideSql.VarbinaryKey
open SortKey Lib Lib.ByteOrder List Nat

attribute [local instance (2000)] LinearOrder.toDecidableLT

structure Part where
  declared : Nat
  length : Nat
  length_le : length ≤ declared
  declared_lt : declared < 256 ^ 2

namespace Part

variable (p : Part)

def lenBytes : Nat := if p.declared < 256 then 1 else 2

def dataSpace : Nat := p.length - p.lenBytes

/-- `old` is the content of the part's place in the buffer. With fewer bytes than the length needs, `data_space` wraps
around. -/
def write (old v : Bytes) : Option Bytes :=
  if p.length < p.lenBytes then none
  else
    let copyLen := min v.length p.dataSpace
    let data := v.take copyLen ++ replicate (p.dataSpace - copyLen) 0
    if v.length > p.dataSpace then
      let overflow := min (v.length - p.dataSpace) p.lenBytes
      some (data ++ (v.drop p.dataSpace).take overflow ++ old.drop (p.dataSpace + overflow))
    else some (data ++ Bytes.toBE p.lenBytes v.length)

def Writes (v e : Bytes) : Prop := ∀ old : Bytes, old.length = p.length → p.write old v = some e

/-- The part has room for the length, and the value does not end within the place of the length. -/
def Fits (v : Bytes) : Prop := p.lenBytes ≤ p.length ∧ (v.length ≤ p.dataSpace ∨ p.length ≤ v.length)

def padded (v : Bytes) : Bytes := v ++ replicate (p.dataSpace - v.length) 0

/-- A short value and a long one that begins like it: the length is below what the long one has there. -/
def Apart (v w : Bytes) : Prop :=
  v.length ≤ p.dataSpace → p.length ≤ w.length → w.take p.dataSpace = p.padded v →
    Bytes.toBE p.lenBytes v.length < (w.take p.length).drop p.dataSpace

def indexed (v : Bytes) : Bytes := v.take p.length

end Part

section Order

theorem cmp_append_self {s t : Bytes} (x : Bytes) : cmp (x ++ s) (x ++ t) = cmp s t := by
  rw [cmp_append rfl, cmp_self_eq_eq]
  rfl

theorem cmp_zeros (t : Bytes) : cmp (replicate t.length 0) t ≠ .gt := by
  intro hGt
  have hLt : t < replicate t.length 0 := by
    obtain h | h | h := lt_trichotomy (replicate t.length 0) t
    · rw [h.cmp_eq_lt] at hGt
      cases hGt
    · rw [← h, length_replicate, cmp_self_eq_eq] at hGt
      cases hGt
    · exact h
  have hLen : t.length = (replicate t.length (0 : UInt8)).length := length_replicate.symm
  have hLe := (ofBE_le_ofBE_iff hLen.symm).not.mpr (not_le.mpr hLt)
  have hZero (n : Nat) : Bytes.ofBE (replicate n 0) = 0 := by
    induction n with
    | zero => rfl
    | succ n ih => rw [replicate_succ, Bytes.ofBE_cons, ih]; simp
  rw [hZero] at hLe
  exact hLe (zero_le _)

theorem cmp_split {v w : Bytes} (h : v.length ≤ w.length) :
    cmp v w = (cmp v (w.take v.length)).then (cmp [] (w.drop v.length)) := by
  have hLen : v.length = (w.take v.length).length := (length_take_of_le h).symm
  have hAppend := cmp_append hLen [] (w.drop v.length)
  rwa [append_nil, take_append_drop] at hAppend

theorem cmp_nil {t : Bytes} (h : t ≠ []) : cmp [] t = .lt := by
  obtain ⟨b, t, rfl⟩ := exists_cons_of_ne_nil h
  exact LT.lt.cmp_eq_lt (nil_lt_cons b t)

end Order

section Written

variable {p : Part} {v w : Bytes}

theorem Part.lenBytes_pos (p : Part) : 0 < p.lenBytes := by
  rw [Part.lenBytes]
  split <;> decide

theorem Part.length_lt (p : Part) : p.length < 256 ^ p.lenBytes := by
  have hLe := p.length_le
  have hLt := p.declared_lt
  rw [Part.lenBytes]
  split <;> omega

theorem write_short (hRoom : p.lenBytes ≤ p.length) (hv : v.length ≤ p.dataSpace) (old : Bytes) :
    p.write old v = some (p.padded v ++ Bytes.toBE p.lenBytes v.length) := by
  rw [Part.write, if_neg (not_lt.mpr hRoom), min_eq_left hv, if_neg (not_lt.mpr hv), take_length]
  rfl

theorem take_append_take_drop (v : Bytes) (m n : Nat) : v.take m ++ (v.drop m).take n = v.take (m + n) :=
  take_add.symm

section

variable (hRoom : p.lenBytes ≤ p.length)
include hRoom

theorem write_long (hv : p.dataSpace < v.length) {old : Bytes} (hOld : old.length = p.length) :
    p.write old v = some (v.take p.length ++ old.drop v.length) := by
  have hSpace : p.dataSpace + p.lenBytes = p.length := Nat.sub_add_cancel hRoom
  rw [Part.write, if_neg (not_lt.mpr hRoom), min_eq_right hv.le, if_pos hv]
  dsimp only
  rw [Nat.sub_self, replicate_zero, append_nil, take_append_take_drop]
  obtain hShort | hFull := lt_or_ge v.length p.length
  · rw [Nat.min_eq_left (by omega), Nat.add_sub_cancel' hv.le, take_length, take_of_length_le hShort.le]
  · rw [min_eq_right (by omega), hSpace, drop_eq_nil_of_le hOld.le,
      drop_eq_nil_of_le (hOld.le.trans hFull)]

theorem writes_short (hv : v.length ≤ p.dataSpace) :
    p.Writes v (p.padded v ++ Bytes.toBE p.lenBytes v.length) := fun old _ => write_short hRoom hv old

theorem writes_full (hv : p.length ≤ v.length) : p.Writes v (p.indexed v) := by
  intro old hOld
  have hPos := p.lenBytes_pos
  rw [write_long hRoom (by rw [Part.dataSpace]; omega) hOld, drop_eq_nil_of_le (hOld.le.trans hv), append_nil]
  rfl

end

theorem writes_iff : (∃ e, p.Writes v e) ↔ p.Fits v := by
  constructor
  · rintro ⟨e, he⟩
    by_cases hRoom : p.lenBytes ≤ p.length
    · refine ⟨hRoom, ?_⟩
      by_contra hNot
      push Not at hNot
      -- a byte of the part keeps what it was
      have hZero := he _ (length_replicate (a := (0 : UInt8)))
      have hOne := he _ (length_replicate (a := (1 : UInt8)))
      rw [write_long hRoom hNot.1 length_replicate] at hZero hOne
      have hEq := append_cancel_left (Option.some.inj (hZero.trans hOne.symm))
      rw [drop_replicate, drop_replicate] at hEq
      have hPos : p.length - v.length ≠ 0 := by omega
      exact absurd (replicate_right_injective hPos hEq) (by decide)
    · have hNone := he _ (length_replicate (a := (0 : UInt8)))
      rw [Part.write, if_pos (not_le.mp hRoom)] at hNone
      cases hNone
  · rintro ⟨hRoom, hShort | hFull⟩
    · exact ⟨_, writes_short hRoom hShort⟩
    · exact ⟨_, writes_full hRoom hFull⟩

theorem Part.Writes.unique {e e' : Bytes} (h : p.Writes v e) (h' : p.Writes v e') : e = e' := by
  have hOld : (replicate p.length (0 : UInt8)).length = p.length := length_replicate
  exact Option.some.inj ((h _ hOld).symm.trans (h' _ hOld))

theorem length_padded (hv : v.length ≤ p.dataSpace) : (p.padded v).length = p.dataSpace := by
  rw [Part.padded, length_append, length_replicate]
  omega

end Written

section Compare

variable {p : Part} {v w : Bytes}

theorem cmp_toBE_lt {a b : Nat} (hab : a < b) (hb : b < 256 ^ p.lenBytes) :
    cmp (Bytes.toBE p.lenBytes a) (Bytes.toBE p.lenBytes b) = .lt := by
  have hLen : (Bytes.toBE p.lenBytes b).length = (Bytes.toBE p.lenBytes a).length := by
    rw [Bytes.length_toBE, Bytes.length_toBE]
  refine LT.lt.cmp_eq_lt (lt_of_not_ge fun hGe => ?_)
  have hLe := ofBE_le_ofBE hLen hGe
  rw [Bytes.ofBE_toBE, Bytes.ofBE_toBE, mod_eq_of_lt hb, mod_eq_of_lt (hab.trans hb)] at hLe
  omega

theorem cmp_short_short (hLe : v.length ≤ w.length) (hw : w.length ≤ p.dataSpace)
    (hTop : p.dataSpace < 256 ^ p.lenBytes) :
    cmp (p.padded v ++ Bytes.toBE p.lenBytes v.length) (p.padded w ++ Bytes.toBE p.lenBytes w.length) =
      cmp v w := by
  have hLen : v.length = (w.take v.length).length := (length_take_of_le hLe).symm
  have hFill : replicate (p.dataSpace - v.length) (0 : UInt8) =
      replicate (w.drop v.length).length 0 ++ replicate (p.dataSpace - w.length) 0 := by
    rw [← replicate_add, length_drop]
    congr 1
    omega
  have hv : p.padded v ++ Bytes.toBE p.lenBytes v.length = v ++ (replicate (w.drop v.length).length 0 ++
      (replicate (p.dataSpace - w.length) 0 ++ Bytes.toBE p.lenBytes v.length)) := by
    rw [Part.padded, hFill]
    simp only [append_assoc]
  have hw' : p.padded w ++ Bytes.toBE p.lenBytes w.length = w.take v.length ++ (w.drop v.length ++
      (replicate (p.dataSpace - w.length) 0 ++ Bytes.toBE p.lenBytes w.length)) := by
    rw [Part.padded, ← append_assoc (w.take v.length), take_append_drop, append_assoc]
  rw [hv, hw', cmp_append hLen, cmp_append length_replicate, cmp_append_self, cmp_split hLe]
  congr 1
  obtain hSame | hMore := eq_or_lt_of_le hLe
  · rw [hSame, drop_length, cmp_self_eq_eq, cmp_self_eq_eq]
    rfl
  · have hNe : w.drop v.length ≠ [] := by
      rw [Ne, drop_eq_nil_iff]
      omega
    rw [cmp_nil hNe, cmp_toBE_lt hMore (by omega)]
    have hZeros := cmp_zeros (w.drop v.length)
    cases hOrder : cmp (replicate (w.drop v.length).length 0) (w.drop v.length) with
    | lt | eq => rfl
    | gt => exact absurd hOrder hZeros

theorem cmp_padded {u : Bytes} (hv : v.length ≤ p.dataSpace) (hu : p.dataSpace < u.length)
    (hNe : p.padded v ≠ u.take p.dataSpace) : cmp (p.padded v) (u.take p.dataSpace) = cmp v u := by
  have hLen : v.length = (u.take v.length).length := (length_take_of_le (by omega)).symm
  have hTake : u.take p.dataSpace = u.take v.length ++ (u.drop v.length).take (p.dataSpace - v.length) := by
    rw [take_append_take_drop, Nat.add_sub_cancel' hv]
  have hRest : ((u.drop v.length).take (p.dataSpace - v.length)).length = p.dataSpace - v.length := by
    rw [length_take, length_drop]
    omega
  have hDrop : u.drop v.length ≠ [] := by
    rw [Ne, drop_eq_nil_iff]
    omega
  rw [cmp_split (by omega : v.length ≤ u.length), cmp_nil hDrop, Part.padded, hTake, cmp_append hLen]
  cases hHead : cmp v (u.take v.length) with
  | lt | gt => rfl
  | eq =>
    have hZeros := cmp_zeros ((u.drop v.length).take (p.dataSpace - v.length))
    rw [hRest] at hZeros
    cases hOrder : cmp (replicate (p.dataSpace - v.length) 0)
        ((u.drop v.length).take (p.dataSpace - v.length)) with
    | lt => rfl
    | gt => exact absurd hOrder hZeros
    | eq =>
      refine absurd ?_ hNe
      rw [Part.padded, hTake, (cmp_eq_eq_iff _ _).mp hOrder, ← (cmp_eq_eq_iff _ _).mp hHead]

theorem cmp_short_full (hRoom : p.lenBytes ≤ p.length) (hv : v.length ≤ p.dataSpace) (hw : p.length ≤ w.length) :
    cmp (p.padded v ++ Bytes.toBE p.lenBytes v.length) (p.indexed w) = cmp v (p.indexed w) ↔ p.Apart v w := by
  have hPos := p.lenBytes_pos
  have hSpace : p.dataSpace + p.lenBytes = p.length := Nat.sub_add_cancel hRoom
  have hu : (p.indexed w).length = p.length := length_take_of_le hw
  have hTake : (p.indexed w).take p.dataSpace = w.take p.dataSpace := by
    rw [Part.indexed, take_take, min_eq_left (by omega)]
  have hLen : (p.padded v).length = ((p.indexed w).take p.dataSpace).length := by
    rw [length_padded hv, length_take_of_le (by omega)]
  have hSplit := cmp_append hLen (Bytes.toBE p.lenBytes v.length) ((p.indexed w).drop p.dataSpace)
  rw [take_append_drop] at hSplit
  rw [hSplit]
  by_cases hSame : p.padded v = (p.indexed w).take p.dataSpace
  · have hPrefix : v <+: p.padded v := prefix_append ..
    rw [hSame] at hPrefix
    have hLt : v < p.indexed w := by
      refine lt_of_le_of_ne (prefix_le (hPrefix.trans ( take_prefix ..))) fun hEq => ?_
      rw [← hEq] at hu
      omega
    rw [hLt.cmp_eq_lt, hSame, cmp_self_eq_eq, Ordering.then, cmp_eq_lt_iff]
    exact ⟨fun h _ _ _ => h, fun h => h hv hw (hTake.symm.trans hSame.symm)⟩
  · rw [cmp_padded hv (by omega) hSame]
    refine iff_of_true ?_ fun _ _ hEq => absurd (hTake.trans hEq).symm hSame
    cases hOrder : cmp v (p.indexed w) with
    | lt | gt => rfl
    | eq =>
      have hEq := congrArg length ((cmp_eq_eq_iff _ _).mp hOrder)
      omega

def Right (p : Part) (v w : Bytes) : Prop :=
  ∃ e e', p.Writes v e ∧ p.Writes w e' ∧ e.length = p.length ∧ e'.length = p.length ∧
    (e = e' ↔ p.indexed v = p.indexed w) ∧ cmp e e' = cmp (p.indexed v) (p.indexed w)

theorem eq_iff_of_order {a b c d : Bytes} (h : cmp a b = cmp c d) : a = b ↔ c = d := by
  rw [← cmp_eq_eq_iff, h, cmp_eq_eq_iff]

section

variable (hRoom : p.lenBytes ≤ p.length)
include hRoom

theorem indexed_short (hv : v.length ≤ p.dataSpace) : p.indexed v = v := by
  rw [Part.indexed]
  refine take_of_length_le (hv.trans ?_)
  rw [Part.dataSpace]
  omega

theorem apart_of_full (hv : p.length ≤ v.length) : p.Apart v w := by
  intro hShort
  have hPos := p.lenBytes_pos
  rw [Part.dataSpace] at hShort
  omega

theorem apart_of_short (hw : w.length ≤ p.dataSpace) : p.Apart v w := by
  intro _ hFull
  have hPos := p.lenBytes_pos
  rw [Part.dataSpace] at hw
  omega

theorem length_short (hv : v.length ≤ p.dataSpace) :
    (p.padded v ++ Bytes.toBE p.lenBytes v.length).length = p.length := by
  rw [length_append, length_padded hv, Bytes.length_toBE]
  exact Nat.sub_add_cancel hRoom

end

theorem length_indexed (hv : p.length ≤ v.length) : (p.indexed v).length = p.length := length_take_of_le hv

theorem right_iff_order {e e' : Bytes} (he : p.Writes v e) (he' : p.Writes w e') (hLen : e.length = p.length)
    (hLen' : e'.length = p.length) : Right p v w ↔ cmp e e' = cmp (p.indexed v) (p.indexed w) := by
  constructor
  · rintro ⟨f, f', hf, hf', -, -, -, hOrder⟩
    rwa [he.unique hf, he'.unique hf']
  · exact fun hOrder => ⟨e, e', he, he', hLen, hLen', eq_iff_of_order hOrder, hOrder⟩

theorem dataSpace_lt (p : Part) : p.dataSpace < 256 ^ p.lenBytes :=
  lt_of_le_of_lt (sub_le ..) p.length_lt

section

variable (hRoom : p.lenBytes ≤ p.length) (hv : v.length ≤ p.dataSpace)
include hRoom hv

theorem right_short_short (hw : w.length ≤ p.dataSpace) : Right p v w := by
  rw [right_iff_order (writes_short hRoom hv) (writes_short hRoom hw) (length_short hRoom hv) (length_short hRoom hw),
    indexed_short hRoom hv, indexed_short hRoom hw]
  obtain hLe | hGe := le_total v.length w.length
  · exact cmp_short_short hLe hw (dataSpace_lt p)
  · rw [← cmp_swap, cmp_short_short hGe hv (dataSpace_lt p), cmp_swap]

theorem right_short_full (hw : p.length ≤ w.length) : Right p v w ↔ p.Apart v w := by
  rw [right_iff_order (writes_short hRoom hv) (writes_full hRoom hw) (length_short hRoom hv) (length_indexed hw),
    indexed_short hRoom hv]
  exact cmp_short_full hRoom hv hw

end

theorem Right.symm (h : Right p v w) : Right p w v := by
  obtain ⟨e, e', he, he', hLen, hLen', hEq, hOrder⟩ := h
  refine ⟨e', e, he', he, hLen', hLen, ⟨fun h => (hEq.mp h.symm).symm, fun h => (hEq.mpr h.symm).symm⟩, ?_⟩
  rw [← cmp_swap, hOrder, cmp_swap]

/-- A part is right for two values exactly when both are written whole and the length does not take the place of bytes
that compare otherwise. -/
theorem varbinary_part_right_iff (p : Part) (v w : Bytes) :
    Right p v w ↔ p.Fits v ∧ p.Fits w ∧ p.Apart v w ∧ p.Apart w v := by
  constructor
  · intro h
    obtain ⟨e, e', he, he', -⟩ := id h
    have hv := writes_iff.mp ⟨e, he⟩
    have hw := writes_iff.mp ⟨e', he'⟩
    obtain ⟨hRoom, hv' | hv'⟩ := id hv
    · obtain ⟨-, hw' | hw'⟩ := id hw
      · exact ⟨hv, hw, apart_of_short hRoom hw', apart_of_short hRoom hv'⟩
      · exact ⟨hv, hw, (right_short_full hRoom hv' hw').mp h, apart_of_full hRoom hw'⟩
    · obtain ⟨-, hw' | hw'⟩ := id hw
      · exact ⟨hv, hw, apart_of_full hRoom hv', (right_short_full hRoom hw' hv').mp h.symm⟩
      · exact ⟨hv, hw, apart_of_full hRoom hv', apart_of_full hRoom hw'⟩
  · rintro ⟨⟨hRoom, hv | hv⟩, ⟨-, hw | hw⟩, hApart, hApart'⟩
    · exact right_short_short hRoom hv hw
    · exact (right_short_full hRoom hv hw).mpr hApart
    · exact ((right_short_full hRoom hw hv).mpr hApart').symm
    · rw [right_iff_order (writes_full hRoom hv) (writes_full hRoom hw) (length_indexed hv) (length_indexed hw)]

end Compare

section Sample

theorem three_lt : 3 < 256 ^ 2 := by decide

def threeBytes : Part := ⟨3, 3, le_rfl, three_lt⟩

/-- The length of two bytes reads like a third byte, and is above a smaller one. -/
theorem length_read_as_byte :
    threeBytes.Writes [0x61, 0x62] [0x61, 0x62, 2] ∧ threeBytes.Writes [0x61, 0x62, 2] [0x61, 0x62, 2] ∧
      threeBytes.Writes [0x61, 0x62, 1] [0x61, 0x62, 1] ∧ ([0x61, 0x62] : Bytes) < [0x61, 0x62, 1] ∧
      ([0x61, 0x62, 1] : Bytes) < [0x61, 0x62, 2] :=
  ⟨writes_short (by decide) (by decide), writes_full (by decide) (by decide), writes_full (by decide) (by decide),
    by decide, by decide⟩

end Sample

end TideSql.VarbinaryKey
