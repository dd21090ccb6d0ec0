import TideSql.Handler.InsertRuns

/-!
# The counters of a table that is opened

`recover_counters` reads one key, the last of the table or of an index that begins with the AUTO_INCREMENT
column.
-/

namespace TideSql.CounterRecovery
open KeyCodec SortKey IndexRead AutoIncrement Dml GeneratedKeys Lib Lib.ByteOrder Lib.Bytes List Option Nat

def keyNsMeta : UInt8 := 0

section Integers

def intValue (isSigned : Bool) (v : Bytes) : Int :=
  if isSigned = true ∧ 256 ^ v.length ≤ 2 * ofLE v then (ofLE v : Int) - 256 ^ v.length else ofLE v

def bias (isSigned : Bool) (n : Nat) : Int := if isSigned then 256 ^ n / 2 else 0

theorem toNat_signFlip (b : UInt8) :
    (b ^^^ intSignFlipMask).toNat = if b.toNat < 128 then b.toNat + 128 else b.toNat - 128 := by
  obtain ⟨b⟩ := b
  revert b
  decide

theorem ofBE_intSortString (isSigned : Bool) {v : Bytes} (hv : v ≠ []) :
    (ofBE (intSortString isSigned v) : Int) = intValue isSigned v + bias isSigned v.length := by
  cases isSigned with
  | false =>
    rw [intSortString, if_neg Bool.false_ne_true, intValue, if_neg (fun h => Bool.false_ne_true h.1), bias,
      if_neg Bool.false_ne_true, Int.add_zero, ofLE]
  | true =>
    obtain ⟨w, b, rfl⟩ := eq_nil_or_concat' v |>.resolve_left hv
    have hFlip : intSortString true (w ++ [b]) = (b ^^^ intSignFlipMask) :: w.reverse := by
      rw [intSortString, if_pos rfl, length_append, length_singleton, Nat.add_sub_cancel,
        modify_eq_take_cons_drop (by simp)]
      simp
    have hLE : ofLE (w ++ [b]) = b.toNat * 256 ^ w.length + ofBE w.reverse := by
      rw [ofLE, reverse_append, reverse_singleton, singleton_append, ofBE_cons, length_reverse]
    have hRest : ofBE w.reverse < 256 ^ w.length := by
      have hLt := ofBE_lt w.reverse
      rwa [length_reverse] at hLt
    have hPow : (256 : Int) ^ (w.length + 1) / 2 = 128 * 256 ^ w.length := by
      rw [pow_succ]
      omega
    rw [hFlip, ofBE_cons, length_reverse, toNat_signFlip, intValue, hLE, bias, if_pos rfl, length_append,
      length_singleton, hPow, pow_succ, pow_succ]
    push_cast
    split
    · rename_i hLow
      have hSmall := mul_le_mul_right (256 ^ w.length) (le_of_lt_succ hLow)
      rw [if_neg (by omega)]
      ring
    · rename_i hHigh
      have hLarge := Nat.mul_le_mul_right (256 ^ w.length) (Nat.le_of_not_lt hHigh)
      rw [if_pos ⟨rfl, by omega⟩, Nat.cast_sub (Nat.le_of_not_lt hHigh)]
      push_cast
      ring

theorem decodeInt_eq {src : Bytes} (hWidth : src.length ∈ [1, 2, 3, 4, 8]) (isSigned : Bool) :
    ∃ v, decodeInt src isSigned = some v ∧ v.length = src.length ∧
      (ofBE src : Int) = intValue isSigned v + bias isSigned src.length := by
  have hOk : ¬(src.length = 0 ∨ (4 < src.length ∧ src.length ≠ 8)) := by
    simp only [mem_cons, not_mem_nil, or_false] at hWidth
    omega
  have hSplit : ∃ v, decodeInt src isSigned = some v ∧ v.length = src.length ∧ intSortString isSigned v = src := by
    rw [decodeInt, if_neg hOk]
    cases isSigned with
    | false =>
      refine ⟨_, rfl, length_reverse, ?_⟩
      rw [intSortString, if_neg Bool.false_ne_true, reverse_reverse]
    | true =>
      refine ⟨_, rfl, by rw [length_modify, length_reverse], ?_⟩
      rw [intSortString, if_pos rfl, length_modify, length_reverse, SortKey.flip_flip, reverse_reverse]
  obtain ⟨v, hDecode, hLen, hSort⟩ := hSplit
  have hNonempty : v ≠ [] := by
    rintro rfl
    exact hOk (.inl hLen.symm)
  exact ⟨v, hDecode, hLen, by rw [← hLen, ← ofBE_intSortString isSigned hNonempty, hSort]⟩

theorem intValue_bounds (isSigned : Bool) {v : Bytes} (hv : v ≠ []) : -bias isSigned v.length ≤ intValue isSigned v ∧
    intValue isSigned v < 256 ^ v.length - bias isSigned v.length := by
  have hSort := ofBE_intSortString isSigned hv
  have hLt := ofBE_lt (intSortString isSigned v)
  rw [length_intSortString] at hLt
  have hCast : (ofBE (intSortString isSigned v) : Int) < 256 ^ v.length := by exact_mod_cast hLt
  omega

end Integers

section Statement

variable {ι β : Type}

def PartOf (K : Keyed ι β) (p : KeyPart ι) : Prop :=
  (∃ parts, K.table.pkParts = some parts ∧ p ∈ parts) ∨
    ∃ unique parts, .regular unique parts ∈ K.table.indexes ∧ p ∈ parts

/-- An AUTO_INCREMENT column has no NULL, and no key takes only a part of it. -/
structure ServerInteger (K : Keyed ι β) (a : AutoColumn ι) : Prop where
  integer : a.field.sortDesc = { k := .integer, isSigned := !a.field.isUnsigned }
  width : a.field.packLength ∈ [1, 2, 3, 4, 8]
  notNull : a.field.nullable = false
  valInt : ∀ b, b.length = a.field.packLength → a.valInt b = intValue (!a.field.isUnsigned) b
  write : ∀ b, b.length = a.field.packLength →
    K.table.sorts.write a.field a.field.packLength b = intSortString (!a.field.isUnsigned) b
  part : ∀ p, PartOf K p → p.col = a.field.col → p.field = a.field ∧ p.length = a.field.packLength

/-- The content of a table: rows under their own keys, keys of the engine's own before them, and the entries of the
rows in every ordinary index. -/
structure Stored (K : Keyed ι β) (s : Store Key (Val ι)) : Prop where
  rows : ∀ key v, s.get (.data, key) = some v →
    (∃ pk r, key = keyNsData :: pk ∧ v = .row r ∧ pk = pkFromRecord K.table pk r) ∨ ∃ rest, key = keyNsMeta :: rest
  hidden : K.table.pkParts = none → ∀ pk, s.get (dataKey pk) ≠ none → pk.length = hiddenPkSize
  filled : ∀ a, K.auto = some a → ∀ pk r, s.get (dataKey pk) = some (.row r) →
    ∃ b, r a.field.col = some b ∧ b.length = a.field.packLength
  index : ∀ i unique parts, K.table.indexes[i]? = some (.regular unique parts) → SecIdxExact K.table i parts s

def numbers (s : Store Key (Val ι)) (a : AutoColumn ι) : Set Int :=
  {v | ∃ pk r, s.get (dataKey pk) = some (.row r) ∧ a.number r = v}

def startFloor (start : Option UInt64) : Nat := (start.getD 1).toNat - 1

inductive Leading where
  | unread
  | primary (desc : Bool)
  | secondary (desc : Bool)

variable [DecidableEq ι]

def secondaryLeading (K : Keyed ι β) (a : AutoColumn ι) : Leading :=
  match (autoIncKey K a).bind fun i => K.table.indexes[i]? with
  | some (.regular _ (p :: _)) => .secondary p.desc
  | _ => .unread

def leading (K : Keyed ι β) (a : AutoColumn ι) : Leading :=
  match K.table.pkParts with
  | none => .unread
  | some [] => secondaryLeading K a
  | some (p :: _) => if p.col = a.field.col then .primary p.desc else secondaryLeading K a

omit [DecidableEq ι] in
/-- The next value is above every stored number, and a negative one does not take it past the start value and all that
is stored. -/
structure PastNumbers (H : Set Int) (floor next : Nat) : Prop where
  greater : ∀ v ∈ H, 0 ≤ v → v < next
  noJump : (∃ v ∈ H, v < 0) → next ≤ floor + 1 ∨ ∃ w ∈ H, (next : Int) ≤ w + 1

structure PastStored (K : Keyed ι β) (s : Store Key (Val ι)) (start : Option UInt64) (share : Share) : Prop where
  numbers : ∀ a, K.auto = some a → ∀ nb v,
    PastNumbers (numbers s a) (startFloor start) (getAutoIncrement share nb v).1.firstValue.toNat
  rowIds : K.table.pkParts = none → ∀ pk, s.get (dataKey pk) ≠ none → ofBE pk < share.nextRowId.toNat

/-- What the stored numbers have to be, by where the counter is read from. -/
def NumbersFit (f : KeyCodec.Field ι) (H : Set Int) (floor : Nat) : Leading → Prop
  | .unread => ∀ v ∈ H, v ≤ floor
  | .primary false | .secondary false =>
    ∀ v, IsGreatest H v → v ≠ 2 ^ 64 - 1 ∧ (-1 ≤ v ∨ 2 ^ 64 + v ≤ floor)
  | .primary true =>
    -- the least number is read
    ∀ v, IsLeast H v → v ≠ 2 ^ 64 - 1 ∧ (-1 ≤ v ∨ 2 ^ 64 + v ≤ floor) ∧ ∀ w ∈ H, w ≤ v ∨ v ≠ -1 ∧ w ≤ floor
  | .secondary true =>
    -- the complement of the least number is read
    ∀ v, IsLeast H v →
      if f.isUnsigned then ¬(f.packLength = 8 ∧ v = 0) ∧ ∀ w ∈ H, w + v < 256 ^ f.packLength ∨ w ≤ floor
      else v ≠ 0 ∧ (v < 0 → (∀ w ∈ H, w + v < 0 ∨ w ≤ floor) ∧ (-v ≤ floor + 1 ∨ ∃ w ∈ H, -v ≤ w + 1))

structure Recoverable (K : Keyed ι β) (s : Store Key (Val ι)) (start : Option UInt64) : Prop where
  numbers : ∀ a, K.auto = some a → NumbersFit a.field (CounterRecovery.numbers s a) (startFloor start) (leading K a)
  rowIds : K.table.pkParts = none → ∀ pk, s.get (dataKey pk) ≠ none → ofBE pk ≠ 2 ^ 64 - 1

end Statement

section Arithmetic

variable {H : Set Int} {floor : Nat} {x : Int}

def nextAfter (counter : Nat) : Nat := (counter + 1) % 2 ^ 64

section

variable (hFloor : floor < 2 ^ 64 - 1)
include hFloor

theorem pastNumbers_unread : PastNumbers H floor (nextAfter (max 0 floor)) ↔ ∀ v ∈ H, v ≤ floor := by
  have hNext : nextAfter (max 0 floor) = floor + 1 := by
    rw [nextAfter]
    omega
  rw [hNext]
  constructor
  · intro h v hv
    have hGreater := h.greater v hv
    omega
  · intro h
    refine ⟨fun v hv _ => ?_, fun _ => .inl (le_refl _)⟩
    have hLe := h v hv
    omega

theorem pastNumbers_greatest (hBounds : ∀ v ∈ H, -2 ^ 63 ≤ v ∧ v < 2 ^ 64) (hx : IsGreatest H x) :
    PastNumbers H floor (nextAfter (max (x % 2 ^ 64).toNat floor)) ↔
      x ≠ 2 ^ 64 - 1 ∧ (-1 ≤ x ∨ 2 ^ 64 + x ≤ floor) := by
  obtain ⟨hIn, hMax⟩ := hx
  have hBound := hBounds x hIn
  rw [nextAfter]
  constructor
  · intro h
    have hGreater := h.greater x hIn
    refine ⟨by omega, ?_⟩
    by_contra hNot
    obtain hFew | ⟨w, hw, hFew⟩ := h.noJump ⟨x, hIn, by omega⟩
    · omega
    · have hLe := hMax hw
      omega
  · rintro ⟨hLast, hOr⟩
    refine ⟨fun v hv hNonneg => ?_, fun _ => ?_⟩
    · have hLe := hMax hv
      omega
    · by_cases hAbove : floor < x
      · exact .inr ⟨x, hIn, by omega⟩
      · exact .inl (by omega)

theorem pastNumbers_least (hBounds : (∀ v ∈ H, 0 ≤ v ∧ v < 2 ^ 64) ∨ ∀ v ∈ H, -2 ^ 63 ≤ v ∧ v < 2 ^ 63)
    (hx : IsLeast H x) : PastNumbers H floor (nextAfter (max (x % 2 ^ 64).toNat floor)) ↔
      x ≠ 2 ^ 64 - 1 ∧ (-1 ≤ x ∨ 2 ^ 64 + x ≤ floor) ∧ ∀ w ∈ H, w ≤ x ∨ x ≠ -1 ∧ w ≤ floor := by
  obtain ⟨hIn, hMin⟩ := hx
  have hEach : ∀ w ∈ H, (0 ≤ x ∧ 0 ≤ w ∧ w < 2 ^ 64) ∨ -2 ^ 63 ≤ w ∧ w < 2 ^ 63 := by
    intro w hw
    obtain hNat | hInt := hBounds
    · exact .inl ⟨(hNat x hIn).1, hNat w hw⟩
    · exact .inr (hInt w hw)
  have hBound := hEach x hIn
  rw [nextAfter]
  constructor
  · intro h
    have hGreater := h.greater x hIn
    have hOr : -1 ≤ x ∨ 2 ^ 64 + x ≤ floor := by
      by_contra hNot
      obtain hFew | ⟨w, hw, hFew⟩ := h.noJump ⟨x, hIn, by omega⟩
      · omega
      · have hw := hEach w hw
        omega
    refine ⟨by omega, hOr, fun w hw => ?_⟩
    have hAbove := h.greater w hw
    have hw := hEach w hw
    omega
  · rintro ⟨hLast, hOr, hAll⟩
    refine ⟨fun v hv hNonneg => ?_, ?_⟩
    · have hCase := hAll v hv
      have hv := hEach v hv
      omega
    · rintro ⟨v, hv, hNegative⟩
      have hLe := hMin hv
      exact .inl (by omega)

theorem pastNumbers_unsigned {size : Int} (hSize : size ≤ 2 ^ 64) (hBounds : ∀ v ∈ H, 0 ≤ v ∧ v < size)
    (hx : IsLeast H x) : PastNumbers H floor (nextAfter (max ((size - 1 - x) % 2 ^ 64).toNat floor)) ↔
      ¬(size = 2 ^ 64 ∧ x = 0) ∧ ∀ w ∈ H, w + x < size ∨ w ≤ floor := by
  obtain ⟨hIn, hMin⟩ := hx
  have hBound := hBounds x hIn
  rw [nextAfter]
  constructor
  · intro h
    have hGreater := h.greater x hIn
    refine ⟨by omega, fun w hw => ?_⟩
    have hAbove := h.greater w hw
    have hw := hBounds w hw
    omega
  · rintro ⟨hLast, hAll⟩
    refine ⟨fun v hv hNonneg => ?_, ?_⟩
    · have hCase := hAll v hv
      have hv := hBounds v hv
      omega
    · rintro ⟨v, hv, hNegative⟩
      have hv := hBounds v hv
      omega

theorem pastNumbers_signed (hBounds : ∀ v ∈ H, -2 ^ 63 ≤ v ∧ v < 2 ^ 63) (hx : IsLeast H x) :
    PastNumbers H floor (nextAfter (max ((-1 - x) % 2 ^ 64).toNat floor)) ↔
      x ≠ 0 ∧ (x < 0 → (∀ w ∈ H, w + x < 0 ∨ w ≤ floor) ∧ (-x ≤ floor + 1 ∨ ∃ w ∈ H, -x ≤ w + 1)) := by
  obtain ⟨hIn, hMin⟩ := hx
  have hBound := hBounds x hIn
  rw [nextAfter]
  constructor
  · intro h
    have hGreater := h.greater x hIn
    refine ⟨by omega, fun hNegative => ⟨fun w hw => ?_, ?_⟩⟩
    · have hAbove := h.greater w hw
      omega
    · obtain hFew | ⟨w, hw, hFew⟩ := h.noJump ⟨x, hIn, hNegative⟩
      · exact .inl (by omega)
      · exact .inr ⟨w, hw, by omega⟩
  · rintro ⟨hZero, hBelow⟩
    refine ⟨fun v hv hNonneg => ?_, ?_⟩
    · have hCase : x < 0 → v + x < 0 ∨ v ≤ floor := fun hNegative => (hBelow hNegative).1 v hv
      have hv := hBounds v hv
      clear hBelow
      omega
    · rintro ⟨v, hv, hNegative⟩
      have hLe := hMin hv
      obtain hFew | ⟨w, hw, hFew⟩ := (hBelow (by omega)).2
      · exact .inl (by omega)
      · by_cases hAbove : floor < -x
        · exact .inr ⟨w, hw, by omega⟩
        · exact .inl (by omega)

end

end Arithmetic

section Keys

variable {ι β : Type} {K : Keyed ι β} {a : AutoColumn ι} {s : Store Key (Val ι)} {p : KeyPart ι}

def Extreme (desc : Bool) (H : Set Int) (x : Int) : Prop := if desc then IsLeast H x else IsGreatest H x

theorem size_of_width {n : Nat} (h : n ∈ [1, 2, 3, 4, 8]) :
    (256 : Int) ^ n ≤ 2 ^ 64 ∧ 2 * ((256 : Int) ^ n / 2) = 256 ^ n ∧ ((256 : Int) ^ n = 2 ^ 64 ↔ n = 8) := by
  fin_cases h <;> decide

theorem ne_nil_of_width {b : Bytes} (h : b.length ∈ [1, 2, 3, 4, 8]) : b ≠ [] := by
  rintro rfl
  revert h
  decide

theorem ofBE_comparablePart (hInt : ServerInteger K a) (hPart : p.field = a.field ∧ p.length = a.field.packLength)
    {r : Row ι} {b : Bytes} (hb : r a.field.col = some b) (hLen : b.length = a.field.packLength) :
    (ofBE (comparablePart K.table.sorts p r) : Int) =
      if p.desc then 256 ^ a.field.packLength - 1 - (a.number r + bias (!a.field.isUnsigned) a.field.packLength)
      else a.number r + bias (!a.field.isUnsigned) a.field.packLength := by
  obtain ⟨hField, hLength⟩ := hPart
  have hNonempty := ne_nil_of_width (hLen ▸ hInt.width)
  have hSpan : comparableSpan K.table.sorts p r = intSortString (!a.field.isUnsigned) b := by
    rw [comparableSpan, hField, hInt.notNull, if_neg Bool.false_ne_true, hLength, KeyPart.col, hField, hb,
      getD_some, hInt.write b hLen]
  have hNumber : a.number r = intValue (!a.field.isUnsigned) b := by
    rw [AutoColumn.number, hb, getD_some, hInt.valInt b hLen]
  have hBytes := ofBE_intSortString (!a.field.isUnsigned) hNonempty
  rw [hLen] at hBytes
  rw [comparablePart, hSpan, hNumber]
  split
  · have hNot := ofBE_not (intSortString (!a.field.isUnsigned) b)
    rw [length_intSortString, hLen] at hNot
    have hCast : (256 : Int) ^ a.field.packLength = ((256 ^ a.field.packLength : Nat) : Int) := by push_cast; rfl
    rw [hCast, ← hNot, ← hBytes, invertKeyPart]
    push_cast
    ring
  · exact hBytes

variable {r r' : Row ι}

section

variable (hInt : ServerInteger K a) (hPart : p.field = a.field ∧ p.length = a.field.packLength)
include hInt hPart

theorem decodePart_secIdxKey (parts : List (KeyPart ι)) (pk : Bytes) {b : Bytes} (hb : r a.field.col = some b)
    (hLen : b.length = a.field.packLength) : a.field.packLength ≤ (secIdxKey K.table (p :: parts) pk r).length ∧
      ∃ v, decodePart a.field.sortDesc ((secIdxKey K.table (p :: parts) pk r).take a.field.packLength) = some v ∧
        a.valInt v = if p.desc then
          256 ^ a.field.packLength - 1 - 2 * bias (!a.field.isUnsigned) a.field.packLength - a.number r
          else a.number r := by
  have hWidth : (comparablePart K.table.sorts p r).length = a.field.packLength := by
    rw [length_comparablePart, hPart.1, hPart.2, hInt.notNull, if_neg Bool.false_ne_true, zero_add]
  have hKey : secIdxKey K.table (p :: parts) pk r =
      comparablePart K.table.sorts p r ++ (makeComparableKey K.table.sorts parts r ++ pkFromRecord K.table pk r) := by
    rw [secIdxKey, makeComparableKey_cons_append]
  rw [hKey, take_left' hWidth, hInt.integer, decodePart]
  obtain ⟨v, hDecode, hvLen, hv⟩ := decodeInt_eq (hWidth ▸ hInt.width) (!a.field.isUnsigned)
  refine ⟨by rw [length_append, hWidth]; omega, v, hDecode, ?_⟩
  have hOf := ofBE_comparablePart hInt hPart hb hLen
  rw [hWidth] at hv hvLen
  rw [hInt.valInt v hvLen]
  split at hOf
  · rename_i hDesc
    rw [if_pos hDesc]
    omega
  · rename_i hAsc
    rw [if_neg hAsc]
    omega

theorem number_le_of_key_le
    (hr : ∃ b, r a.field.col = some b ∧ b.length = a.field.packLength)
    (hr' : ∃ b, r' a.field.col = some b ∧ b.length = a.field.packLength) {parts : List (KeyPart ι)} {t t' : Bytes}
    (hLe : makeComparableKey K.table.sorts (p :: parts) r ++ t ≤
      makeComparableKey K.table.sorts (p :: parts) r' ++ t') :
    if p.desc then a.number r' ≤ a.number r else a.number r ≤ a.number r' := by
  rw [makeComparableKey_cons_append, makeComparableKey_cons_append] at hLe
  have hLen : (comparablePart K.table.sorts p r).length = (comparablePart K.table.sorts p r').length := by
    rw [length_comparablePart, length_comparablePart]
  have hBytes := (ofBE_le_ofBE_iff hLen).mpr (le_of_append_le_append hLen hLe)
  obtain ⟨b, hb, hbLen⟩ := hr
  obtain ⟨b', hb', hbLen'⟩ := hr'
  have hOf := ofBE_comparablePart hInt hPart hb hbLen
  have hOf' := ofBE_comparablePart hInt hPart hb' hbLen'
  split
  · rename_i hDesc
    rw [if_pos hDesc] at hOf hOf'
    omega
  · rename_i hAsc
    rw [if_neg hAsc] at hOf hOf'
    omega

end

theorem number_mem {pk : Bytes} (hGet : s.get (dataKey pk) = some (.row r)) : a.number r ∈ numbers s a :=
  ⟨pk, r, hGet, rfl⟩

theorem extreme_of_last {pk : Bytes} (hGet : s.get (dataKey pk) = some (.row r))
    (hLast : ∀ pk' r', s.get (dataKey pk') = some (.row r') →
      if p.desc then a.number r ≤ a.number r' else a.number r' ≤ a.number r) :
    Extreme p.desc (numbers s a) (a.number r) := by
  rw [Extreme]
  split
  · rename_i hDesc
    simp only [hDesc, if_true] at hLast
    refine ⟨number_mem hGet, ?_⟩
    rintro _ ⟨pk', r', hGet', rfl⟩
    exact hLast pk' r' hGet'
  · rename_i hAsc
    simp only [hAsc, Bool.false_eq_true, if_false] at hLast
    refine ⟨number_mem hGet, ?_⟩
    rintro _ ⟨pk', r', hGet', rfl⟩
    exact hLast pk' r' hGet'

theorem bounds_of_stored (hAuto : K.auto = some a) (hInt : ServerInteger K a) (hStored : Stored K s) {v : Int}
    (hv : v ∈ numbers s a) : -bias (!a.field.isUnsigned) a.field.packLength ≤ v ∧
      v < 256 ^ a.field.packLength - bias (!a.field.isUnsigned) a.field.packLength := by
  obtain ⟨pk, r, hGet, rfl⟩ := hv
  obtain ⟨b, hb, hLen⟩ := hStored.filled a hAuto pk r hGet
  have hNonempty := ne_nil_of_width (hLen ▸ hInt.width)
  have hBounds := intValue_bounds (!a.field.isUnsigned) hNonempty
  rw [hLen] at hBounds
  rwa [AutoColumn.number, hb, getD_some, hInt.valInt b hLen]

theorem lastKey_row (hStored : Stored K s) {pk : Bytes} (hSome : s.get (dataKey pk) ≠ none) :
    ∃ pk r, lastKey (dataKeys s) = some (keyNsData :: pk) ∧ s.get (dataKey pk) = some (.row r) ∧
      ∀ pk', s.get (dataKey pk') ≠ none → pk' ≤ pk := by
  obtain ⟨last, hLast⟩ := lastKey_of_mem (mem_dataKeys.mpr hSome)
  obtain ⟨hMem, hMax⟩ := le_lastKey hLast
  obtain ⟨v, hv⟩ := ne_none_iff_exists'.mp (mem_dataKeys.mp hMem)
  obtain ⟨pkLast, r, rfl, rfl, -⟩ | ⟨rest, rfl⟩ := hStored.rows last v hv
  · exact ⟨pkLast, r, hLast, hv, fun pk' hSome' => le_of_dataKey_le (hMax _ (mem_dataKeys.mpr hSome'))⟩
  · have hLt : keyNsMeta :: rest < keyNsData :: pk := cons_lt_cons_iff.mpr (.inl (by decide))
    exact absurd (hMax _ (mem_dataKeys.mpr hSome)) (not_le.mpr hLt)

theorem own_of_row (hStored : Stored K s) {pk : Bytes} (hGet : s.get (dataKey pk) = some (.row r)) :
    pk = pkFromRecord K.table pk r := by
  obtain ⟨pk', r', hKey, hRow, hOwn⟩ | ⟨rest, hKey⟩ := hStored.rows _ _ hGet
  · cases hKey
    cases hRow
    exact hOwn
  · exact absurd (cons.inj hKey).1 (by decide)

theorem secIdxKey_mem (hStored : Stored K s) {i : Nat} {unique : Bool} {parts : List (KeyPart ι)}
    (hAt : K.table.indexes[i]? = some (.regular unique parts)) {pk : Bytes}
    (hGet : s.get (dataKey pk) = some (.row r)) : secIdxKey K.table parts pk r ∈ familyKeys s i := by
  refine mem_names_of_family.mpr ((hStored.index i unique _ hAt _).mpr ⟨pk, ⟨r, hGet, rfl⟩, ?_⟩)
  rintro pk' ⟨r', hGet', hSame⟩
  rw [secIdxKey, secIdxKey] at hSame
  have hSuffix := (append_inj hSame (by rw [length_makeComparableKey, length_makeComparableKey])).2
  rw [own_of_row hStored hGet, own_of_row hStored hGet', hSuffix]

end Keys

section Recover

variable {ι β : Type} [DecidableEq ι] {K : Keyed ι β} {a : AutoColumn ι} {s : Store Key (Val ι)}

theorem seedCounters_empty (hNone : ∀ pk, s.get (dataKey pk) = none) : seedCounters K s ⟨0, 0⟩ = ⟨0, 0⟩ := by
  rw [seedCounters]
  split
  · rfl
  · rename_i key hLast
    have hSome := mem_dataKeys.mp (le_lastKey hLast).1
    rw [if_neg]
    intro hData
    cases key with
    | nil => cases hData
    | cons x pk =>
      have hHead : x = keyNsData := by simpa [isDataKey] using hData
      exact hSome (hHead ▸ hNone pk)

theorem floor_lt (start : Option UInt64) : startFloor start < 2 ^ 64 - 1 := by
  have hLt := (start.getD 1).toNat_lt
  rw [startFloor]
  omega

theorem toNat_applyAutoIncStartMeta (start : Option UInt64) (share : Share) :
    (applyAutoIncStartMeta start share).autoIncVal.toNat = max share.autoIncVal.toNat (startFloor start) := by
  cases start with
  | none => exact (max_eq_left (zero_le _)).symm
  | some start =>
    rw [applyAutoIncStartMeta, startFloor, getD_some]
    by_cases hOne : start > 1
    · have hPos : 1 < start.toNat := UInt64.lt_iff_toNat_lt.mp hOne
      have hSub : (start - 1).toNat = start.toNat - 1 :=
        UInt64.toNat_sub_of_le _ _ (UInt64.le_iff_toNat_le.mpr (le_of_lt hPos))
      split
      · rename_i hAbove
        have hLt := UInt64.lt_iff_toNat_lt.mp hAbove.2
        dsimp only
        omega
      · rename_i hNot
        have hGe := UInt64.le_iff_toNat_le.mp (UInt64.not_lt.mp fun hLt => hNot ⟨hOne, hLt⟩)
        omega
    · have hLe : start.toNat ≤ 1 := UInt64.le_iff_toNat_le.mp (UInt64.not_lt.mp hOne)
      rw [if_neg fun h => hOne h.1]
      omega

inductive Seeded (f : KeyCodec.Field ι) (H : Set Int) : Leading → UInt64 → Prop
  | unread : Seeded f H .unread 0
  | empty (l : Leading) : H = ∅ → Seeded f H l 0
  | primary (desc : Bool) (x : Int) : Extreme desc H x → Seeded f H (.primary desc) (ulonglong x)
  | secondary (desc : Bool) (x : Int) : Extreme desc H x → Seeded f H (.secondary desc)
      (ulonglong (if desc then 256 ^ f.packLength - 1 - 2 * bias (!f.isUnsigned) f.packLength - x else x))

omit [DecidableEq ι] in
theorem pastNumbers_iff (hInt : ServerInteger K a) {H : Set Int} {floor : Nat} (hFloor : floor < 2 ^ 64 - 1)
    (hBounds : ∀ v ∈ H, -bias (!a.field.isUnsigned) a.field.packLength ≤ v ∧
      v < 256 ^ a.field.packLength - bias (!a.field.isUnsigned) a.field.packLength)
    {l : Leading} {counter : UInt64} (h : Seeded a.field H l counter) :
    PastNumbers H floor (nextAfter (max counter.toNat floor)) ↔ NumbersFit a.field H floor l := by
  obtain ⟨hSize, hHalf, hEight⟩ := size_of_width hInt.width
  have hCast : ∀ z : Int, (ulonglong z).toNat = (z % 2 ^ 64).toNat := fun z => by
    have hNat := toNat_ulonglong z
    omega
  have hSigns : (a.field.isUnsigned = true ∧ ∀ v ∈ H, 0 ≤ v ∧ v < 256 ^ a.field.packLength) ∨
      a.field.isUnsigned = false ∧ ∀ v ∈ H, -2 ^ 63 ≤ v ∧ v < 2 ^ 63 := by
    cases hSign : a.field.isUnsigned with
    | true =>
      refine .inl ⟨rfl, fun v hv => ?_⟩
      have hv := hBounds v hv
      rw [hSign, bias, if_neg (by decide)] at hv
      omega
    | false =>
      refine .inr ⟨rfl, fun v hv => ?_⟩
      have hv := hBounds v hv
      rw [hSign, bias, if_pos (by decide)] at hv
      omega
  have hWide : (∀ v ∈ H, 0 ≤ v ∧ v < 2 ^ 64) ∨ ∀ v ∈ H, -2 ^ 63 ≤ v ∧ v < 2 ^ 63 :=
    hSigns.imp (fun hNat v hv => ⟨(hNat.2 v hv).1, lt_of_lt_of_le (hNat.2 v hv).2 hSize⟩) fun hNeg => hNeg.2
  have hEach : ∀ v ∈ H, -2 ^ 63 ≤ v ∧ v < 2 ^ 64 := by
    intro v hv
    obtain hNat | hNeg := hWide
    · have hv := hNat v hv
      omega
    · have hv := hNeg v hv
      omega
  cases h with
  | unread => exact pastNumbers_unread hFloor
  | empty l hEmpty =>
    subst hEmpty
    refine ⟨fun _ => ?_, fun _ => ⟨fun v hv => hv.elim, fun ⟨v, hv, _⟩ => hv.elim⟩⟩
    cases l with
    | unread => exact fun v hv => hv.elim
    | primary desc | secondary desc => cases desc <;> exact fun v hv => hv.1.elim
  | primary desc x hx =>
    rw [hCast]
    cases desc with
    | false =>
      rw [pastNumbers_greatest hFloor hEach hx]
      exact ⟨fun hFit v hv => hv.unique hx ▸ hFit, fun hFit => hFit x hx⟩
    | true =>
      rw [pastNumbers_least hFloor hWide hx]
      exact ⟨fun hFit v hv => hv.unique hx ▸ hFit, fun hFit => hFit x hx⟩
  | secondary desc x hx =>
    rw [hCast]
    cases desc with
    | false =>
      rw [if_neg Bool.false_ne_true, pastNumbers_greatest hFloor hEach hx]
      exact ⟨fun hFit v hv => hv.unique hx ▸ hFit, fun hFit => hFit x hx⟩
    | true =>
      have hOnly : NumbersFit a.field H floor (.secondary true) ↔
          if a.field.isUnsigned then ¬(a.field.packLength = 8 ∧ x = 0) ∧
            ∀ w ∈ H, w + x < 256 ^ a.field.packLength ∨ w ≤ floor
          else x ≠ 0 ∧ (x < 0 → (∀ w ∈ H, w + x < 0 ∨ w ≤ floor) ∧ (-x ≤ floor + 1 ∨ ∃ w ∈ H, -x ≤ w + 1)) :=
        ⟨fun hFit => hFit x hx, fun hFit v hv => hv.unique hx ▸ hFit⟩
      rw [hOnly, if_pos rfl]
      obtain ⟨hSign, hNat⟩ | ⟨hSign, hNeg⟩ := hSigns
      · rw [hSign, bias, if_neg (by decide), if_pos rfl, Int.mul_zero, Int.sub_zero,
          pastNumbers_unsigned hFloor hSize hNat hx, hEight]
      · have hComplement : 256 ^ a.field.packLength - 1 - 256 ^ a.field.packLength - x = -1 - x := by omega
        rw [hSign, bias, if_pos (by decide), hHalf, if_neg Bool.false_ne_true, hComplement,
          pastNumbers_signed hFloor hNeg hx]

theorem autoIncVal_seedCounters_of_not (hAuto : K.auto = some a) (hStored : Stored K s)
    (hNot : autoIncIsPkLeftmost K a = false) : (seedCounters K s ⟨0, 0⟩).autoIncVal = 0 := by
  by_cases hNone : ∀ pk, s.get (dataKey pk) = none
  · rw [seedCounters_empty hNone]
  · obtain ⟨pk, hSome⟩ := not_forall.mp hNone
    obtain ⟨pkLast, r, hLast, hGet, -⟩ := lastKey_row hStored hSome
    rw [autoIncVal_seedCounters hLast hGet hAuto, hNot, if_neg Bool.false_ne_true]

theorem seeded_primary (hAuto : K.auto = some a) (hInt : ServerInteger K a) (hStored : Stored K s) {p : KeyPart ι}
    {parts : List (KeyPart ι)} (hPk : K.table.pkParts = some (p :: parts)) (hCol : p.col = a.field.col) :
    Seeded a.field (numbers s a) (.primary p.desc) (seedCounters K s ⟨0, 0⟩).autoIncVal := by
  have hPart := hInt.part p (.inl ⟨_, hPk, mem_cons_self⟩) hCol
  have hLeft : autoIncIsPkLeftmost K a = true := by
    rw [autoIncIsPkLeftmost, hPk]
    exact decide_eq_true hCol
  by_cases hNone : ∀ pk, s.get (dataKey pk) = none
  · rw [seedCounters_empty hNone]
    refine .empty _ (Set.eq_empty_of_forall_notMem ?_)
    rintro _ ⟨pk, r, hGet, -⟩
    rw [hNone pk] at hGet
    cases hGet
  · obtain ⟨pk, hSome⟩ := not_forall.mp hNone
    obtain ⟨pkLast, r, hLast, hGet, hMax⟩ := lastKey_row hStored hSome
    rw [autoIncVal_seedCounters hLast hGet hAuto, hLeft, if_pos rfl]
    have hOwn : ∀ pk r, s.get (dataKey pk) = some (.row r) → pk = makeComparableKey K.table.sorts (p :: parts) r := by
      intro pk r hGet
      have hOwn := own_of_row hStored hGet
      rwa [pkFromRecord, hPk] at hOwn
    refine .primary p.desc _ (extreme_of_last hGet fun pk' r' hGet' => ?_)
    have hLe := hMax pk' (ne_none_iff_exists'.mpr ⟨_, hGet'⟩)
    rw [hOwn pk' r' hGet', hOwn pkLast r hGet] at hLe
    rw [← append_nil (makeComparableKey _ _ r'), ← append_nil (makeComparableKey _ _ r)] at hLe
    exact number_le_of_key_le hInt hPart (hStored.filled a hAuto pk' r' hGet')
      (hStored.filled a hAuto pkLast r hGet) hLe

theorem autoIncKey_spec {i : Nat} (h : autoIncKey K a = some i) :
    ∃ unique p parts, K.table.indexes[i]? = some (.regular unique (p :: parts)) ∧ p.col = a.field.col := by
  obtain ⟨hi, hAt, -⟩ := findIdx?_eq_some_iff_getElem.mp h
  split at hAt
  · rename_i unique p parts hShape
    exact ⟨unique, p, parts, by rw [getElem?_eq_getElem hi, hShape], of_decide_eq_true hAt⟩
  · cases hAt

section

variable (hAuto : K.auto = some a) (hInt : ServerInteger K a) (hStored : Stored K s)
include hAuto hInt hStored

theorem seeded_secondary {share : Share} (hPk : K.table.pkParts.isNone = false)
    (hLeft : autoIncIsPkLeftmost K a = false) (hZero : share.autoIncVal = 0) :
    Seeded a.field (numbers s a) (secondaryLeading K a) (recoverAutoIncSecondary K s a share).autoIncVal := by
  have hGo : (K.table.pkParts.isNone || share.autoIncVal ≠ 0 || autoIncIsPkLeftmost K a) ≠ true := by
    rw [hPk, hLeft, hZero]
    decide
  rw [recoverAutoIncSecondary, if_neg hGo, secondaryLeading]
  cases hIdx : autoIncKey K a with
  | none =>
    rw [bind_none, bind_none, hZero]
    exact .unread
  | some i =>
    obtain ⟨unique, p, parts, hAt, hCol⟩ := autoIncKey_spec hIdx
    have hPart := hInt.part p (.inr ⟨unique, _, mem_of_getElem? hAt, mem_cons_self⟩) hCol
    rw [bind_some, bind_some, hAt]
    dsimp only
    cases hLast : lastKey (familyKeys s i) with
    | none =>
      dsimp only
      rw [hZero]
      refine .empty _ (Set.eq_empty_of_forall_notMem ?_)
      rintro _ ⟨pk, r, hGet, -⟩
      obtain ⟨key, hSome⟩ := lastKey_of_mem (secIdxKey_mem hStored hAt hGet)
      rw [hLast] at hSome
      cases hSome
    | some key =>
      obtain ⟨hMem, hMax⟩ := le_lastKey hLast
      obtain ⟨pk, ⟨r, hGet, rfl⟩, -⟩ := (hStored.index i unique _ hAt key).mp (mem_names_of_family.mp hMem)
      obtain ⟨b, hb, hLen⟩ := hStored.filled a hAuto pk r hGet
      obtain ⟨hLong, v, hDecode, hv⟩ := decodePart_secIdxKey hInt hPart parts pk hb hLen
      dsimp only
      rw [if_pos hLong, hDecode]
      dsimp only
      rw [hv]
      refine .secondary p.desc _ (extreme_of_last hGet fun pk' r' hGet' => ?_)
      exact number_le_of_key_le hInt hPart (hStored.filled a hAuto pk' r' hGet') ⟨b, hb, hLen⟩
        (hMax _ (secIdxKey_mem hStored hAt hGet'))

theorem seeded_recover {share : Share} (hShare : share.autoIncVal = (seedCounters K s ⟨0, 0⟩).autoIncVal) :
    Seeded a.field (numbers s a) (leading K a) (recoverAutoIncSecondary K s a share).autoIncVal := by
  have hLeftOf : ∀ b, autoIncIsPkLeftmost K a = b → b = false → share.autoIncVal = 0 := by
    rintro b rfl hLeft
    rw [hShare, autoIncVal_seedCounters_of_not hAuto hStored hLeft]
  cases hPk : K.table.pkParts with
  | none =>
    have hLeft : autoIncIsPkLeftmost K a = false := by rw [autoIncIsPkLeftmost, hPk]
    rw [leading, hPk, recoverAutoIncSecondary, hPk, isNone_none, Bool.true_or, Bool.true_or, if_pos rfl,
      hLeftOf _ rfl hLeft]
    exact .unread
  | some parts =>
    cases parts with
    | nil =>
      have hLeft : autoIncIsPkLeftmost K a = false := by rw [autoIncIsPkLeftmost, hPk]
      rw [leading, hPk]
      exact seeded_secondary hAuto hInt hStored (by rw [hPk]; rfl) hLeft (hLeftOf _ rfl hLeft)
    | cons p parts =>
      have hLeft : autoIncIsPkLeftmost K a = decide (p.col = a.field.col) := by rw [autoIncIsPkLeftmost, hPk]
      rw [leading, hPk]
      dsimp only
      by_cases hCol : p.col = a.field.col
      · rw [if_pos hCol, recoverAutoIncSecondary, hLeft, decide_eq_true hCol, Bool.or_true, if_pos rfl, hShare]
        exact seeded_primary hAuto hInt hStored hPk hCol
      · rw [decide_eq_false hCol] at hLeft
        rw [if_neg hCol]
        exact seeded_secondary hAuto hInt hStored (by rw [hPk]; rfl) hLeft (hLeftOf _ rfl hLeft)

end

def seededShare (K : Keyed ι β) (s : Store Key (Val ι)) : Share :=
  if K.table.pkParts.isNone ∧ (seedCounters K s ⟨0, 0⟩).nextRowId = 0 then
    { seedCounters K s ⟨0, 0⟩ with nextRowId := hiddenPkFirstRowId }
  else seedCounters K s ⟨0, 0⟩

theorem autoIncVal_seededShare (K : Keyed ι β) (s : Store Key (Val ι)) :
    (seededShare K s).autoIncVal = (seedCounters K s ⟨0, 0⟩).autoIncVal := by
  rw [seededShare]
  split <;> rfl

theorem toNat_nextRowId_seededShare (s : Store Key (Val ι)) (hHidden : K.table.pkParts = none) :
    (seededShare K s).nextRowId.toNat =
      if (seedCounters K s ⟨0, 0⟩).nextRowId.toNat = 0 then 1 else (seedCounters K s ⟨0, 0⟩).nextRowId.toNat := by
  rw [seededShare, hHidden, isNone_none]
  by_cases hZero : (seedCounters K s ⟨0, 0⟩).nextRowId = 0
  · rw [if_pos ⟨rfl, hZero⟩, if_pos (by rw [hZero]; rfl)]
    rfl
  · have hPos : (seedCounters K s ⟨0, 0⟩).nextRowId.toNat ≠ 0 := fun h => hZero (UInt64.toNat_inj.mp h)
    rw [if_neg fun h => hZero h.2, if_neg hPos]

theorem recoverCounters_eq (hAuto : K.auto = some a) (start : Option UInt64) :
    recoverCounters K s start = applyAutoIncStartMeta start (recoverAutoIncSecondary K s a (seededShare K s)) := by
  rw [recoverCounters, hAuto]
  rfl

theorem nextRowId_recoverCounters (K : Keyed ι β) (s : Store Key (Val ι)) (start : Option UInt64) :
    (recoverCounters K s start).nextRowId = (seededShare K s).nextRowId := by
  cases hAuto : K.auto with
  | none =>
    rw [recoverCounters, hAuto]
    rfl
  | some a =>
    rw [recoverCounters_eq hAuto, (le_applyAutoIncStartMeta start _).2, nextRowId_recoverAutoIncSecondary]

theorem toNat_firstValue (share : Share) (nb : UInt64) (v : Variables) :
    (getAutoIncrement share nb v).1.firstValue.toNat = nextAfter share.autoIncVal.toNat := by
  rw [getAutoIncrement, UInt64.toNat_add, UInt64.toNat_one, nextAfter]

theorem rowIds_iff (hStored : Stored K s) (hHidden : K.table.pkParts = none) :
    (∀ pk, s.get (dataKey pk) ≠ none → ofBE pk < (seededShare K s).nextRowId.toNat) ↔
      ∀ pk, s.get (dataKey pk) ≠ none → ofBE pk ≠ 2 ^ 64 - 1 := by
  by_cases hNone : ∀ pk, s.get (dataKey pk) = none
  · exact ⟨fun _ pk hSome => absurd (hNone pk) hSome, fun _ pk hSome => absurd (hNone pk) hSome⟩
  · obtain ⟨pk, hSome⟩ := not_forall.mp hNone
    obtain ⟨last, r, hLast, hGet, hMax⟩ := lastKey_row hStored hSome
    have hLen : ∀ pk, s.get (dataKey pk) ≠ none → pk.length = hiddenPkSize := hStored.hidden hHidden
    have hLastSome : s.get (dataKey last) ≠ none := ne_none_iff_exists'.mpr ⟨_, hGet⟩
    have hLt : ofBE last < 2 ^ 64 := by
      have hLt := ofBE_lt last
      rwa [hLen last hLastSome] at hLt
    have hLe : ∀ pk, s.get (dataKey pk) ≠ none → ofBE pk ≤ ofBE last := fun pk hSome =>
      ofBE_le_ofBE ((hLen pk hSome).trans (hLen last hLastSome).symm) (hMax pk hSome)
    have hToNat := toNat_nextRowId_seedCounters hLast hGet hHidden (hLen last hLastSome)
    have hNext : (seededShare K s).nextRowId.toNat = if ofBE last = 2 ^ 64 - 1 then 1 else ofBE last + 1 := by
      rw [toNat_nextRowId_seededShare s hHidden, hToNat]
      split <;> split <;> omega
    rw [hNext]
    constructor
    · intro h pk hSome hTop
      have hBelow := h last hLastSome
      have hLe := hLe pk hSome
      split at hBelow <;> omega
    · intro h pk hSome
      have hLe := hLe pk hSome
      rw [if_neg (h last hLastSome)]
      omega

/-- The next value and the next row id are past what is stored exactly when the number read back is the one the
counter needs. -/
theorem recovered_past_stored_iff (hInt : ∀ a, K.auto = some a → ServerInteger K a) (hStored : Stored K s)
    (start : Option UInt64) : PastStored K s start (recoverCounters K s start) ↔ Recoverable K s start := by
  have hNumbers : ∀ a, K.auto = some a → ∀ nb v, (PastNumbers (numbers s a) (startFloor start)
          (getAutoIncrement (recoverCounters K s start) nb v).1.firstValue.toNat ↔
        NumbersFit a.field (numbers s a) (startFloor start) (leading K a)) := by
    intro a hAuto nb v
    rw [toNat_firstValue, recoverCounters_eq hAuto, toNat_applyAutoIncStartMeta]
    exact pastNumbers_iff (hInt a hAuto) (floor_lt start) (fun v => bounds_of_stored hAuto (hInt a hAuto) hStored)
      (seeded_recover hAuto (hInt a hAuto) hStored (autoIncVal_seededShare K s))
  constructor
  · intro h
    refine ⟨fun a hAuto => (hNumbers a hAuto 0 ⟨1, 1, one_pos⟩).mp (h.numbers a hAuto _ _), fun hHidden => ?_⟩
    have hIds := h.rowIds hHidden
    rw [nextRowId_recoverCounters] at hIds
    exact (rowIds_iff hStored hHidden).mp hIds
  · intro h
    refine ⟨fun a hAuto nb v => (hNumbers a hAuto nb v).mpr (h.numbers a hAuto), fun hHidden => ?_⟩
    rw [nextRowId_recoverCounters]
    exact (rowIds_iff hStored hHidden).mpr (h.rowIds hHidden)

end Recover

section Samples

def signedPart (desc : Bool) : KeyPart Column := ⟨⟨.n, false, .tiny, false, .other, 1⟩, 1, desc⟩

def signedAuto : AutoColumn Column where
  field := (signedPart false).field
  valInt := intValue true

def counted (desc : Bool) : Keyed Column Unit where
  table := { places with
    sorts := ⟨fun f n v => (intSortString (!f.isUnsigned) v ++ replicate n 0).take n, fun f n v => by simp⟩
    pkParts := some [signedPart desc]
    indexes := [] }
  auto := some signedAuto

def countedKey (desc : Bool) (n : UInt8) : Bytes :=
  makeComparableKey (counted desc).table.sorts [signedPart desc] (place 0 n)

def countedRows (desc : Bool) (ns : List UInt8) : Store Key (Val Column) :=
  Store.empty.putAll (ns.map fun n => (dataKey (countedKey desc n), .row (place 0 n)))

theorem get_countedRows {desc : Bool} {ns : List UInt8} {key : Bytes} {v : Val Column}
    (h : (countedRows desc ns).get (.data, key) = some v) :
    ∃ n ∈ ns, key = keyNsData :: countedKey desc n ∧ v = .row (place 0 n) := by
  obtain ⟨v', hMem, hNew⟩ | ⟨-, hOld⟩ := Store.get_putAll_cases Store.empty
    (ns.map fun n => (dataKey (countedKey desc n), Val.row (place 0 n))) (.data, key)
  · obtain rfl : v' = v := some_inj.mp (hNew.symm.trans h)
    obtain ⟨n, hn, hEq⟩ := mem_map.mp hMem
    cases hEq
    exact ⟨n, hn, rfl, rfl⟩
  · cases hOld.symm.trans h

theorem serverInteger_counted (desc : Bool) : ∀ a, (counted desc).auto = some a → ServerInteger (counted desc) a := by
  intro a hAuto
  cases hAuto
  have hOne : ∀ b : Bytes, b.length = 1 → (intSortString true b ++ replicate 1 0).take 1 = intSortString true b :=
    fun b hb => take_left' (by rw [length_intSortString, hb])
  refine ⟨rfl, by decide, rfl, fun b _ => rfl, hOne, ?_⟩
  rintro p (⟨parts, hParts, hMem⟩ | ⟨unique, parts, hMem, -⟩) -
  · cases hParts
    cases mem_singleton.mp hMem
    exact ⟨rfl, rfl⟩
  · cases hMem

theorem stored_counted (desc : Bool) (ns : List UInt8) : Stored (counted desc) (countedRows desc ns) := by
  refine ⟨fun key v hGet => ?_, fun hHidden => (by cases hHidden), fun a hAuto pk r hGet => ?_,
    fun i unique parts hAt => ?_⟩
  · obtain ⟨n, -, rfl, rfl⟩ := get_countedRows hGet
    exact .inl ⟨_, _, rfl, rfl, rfl⟩
  · cases hAuto
    obtain ⟨n, -, -, hRow⟩ := get_countedRows hGet
    cases hRow
    exact ⟨[n], rfl, rfl⟩
  · cases hAt

theorem recovered_past_ascending : PastStored (counted false) (countedRows false [3, 0xFE]) none
    (recoverCounters (counted false) (countedRows false [3, 0xFE]) none) := by
  refine (recovered_past_stored_iff (serverInteger_counted false) (stored_counted false _) none).mpr
    ⟨fun a hAuto => ?_, fun hHidden => (by cases hHidden)⟩
  cases hAuto
  intro v hv
  have hThree : (3 : Int) ∈ numbers (countedRows false [3, 0xFE]) signedAuto :=
    ⟨countedKey false 3, place 0 3, rfl, rfl⟩
  have hLe := hv.2 hThree
  have hLt := (bounds_of_stored rfl (serverInteger_counted false _ rfl) (stored_counted false _) hv.1).2
  have hTop : (256 : Int) ^ signedAuto.field.packLength -
      bias (!signedAuto.field.isUnsigned) signedAuto.field.packLength = 128 := rfl
  rw [hTop] at hLt
  exact ⟨by omega, .inl (by omega)⟩

/-- The rows 1 and 2 under a descending key: the next value is 2. -/
theorem descending_value_repeated : (∀ a, (counted true).auto = some a → ServerInteger (counted true) a) ∧
    Stored (counted true) (countedRows true [1, 2]) ∧
    ¬PastStored (counted true) (countedRows true [1, 2]) none
      (recoverCounters (counted true) (countedRows true [1, 2]) none) := by
  refine ⟨serverInteger_counted true, stored_counted true _, fun h => ?_⟩
  have hTwo : (2 : Int) ∈ numbers (countedRows true [1, 2]) signedAuto := ⟨countedKey true 2, place 0 2, rfl, rfl⟩
  have hLt := (h.numbers signedAuto rfl 1 single).greater 2 hTwo (by decide)
  revert hLt
  decide

end Samples

end TideSql.CounterRecovery
