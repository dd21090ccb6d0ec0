import TideSql.Handler.PkPosition

/-!
# The bounds of a range scan

`rir_encode_bounds` turns the ends of a range into two byte strings, and the library is free to leave out what
lies outside of them.
-/

namespace TideSql.RangeBounds
open KeyCodec SortKey IndexRead PkPosition Lib.ByteOrder List Nat

variable {ι : Type}

structure KeyRange (ι : Type) where
  parts : Nat
  key : Row ι
  inclusive : Bool

structure Index (ι : Type) where
  sorts : SortStrings ι
  isPk : Bool
  parts : List (KeyPart ι)
  pkKeyLen : Nat

def keyInfLoByte : UInt8 := 0
def keyNamespaceLen : Nat := 1

/-- `DATA_KEY_BUF_LEN`, by the server's limit on the length of a key. -/
def dataKeyBufLen (maxKeyLength : Nat) : Nat := keyNamespaceLen + maxKeyLength + 1

namespace Index

variable (I : Index ι)

def idxCompKeyLen : Nat := comparableKeyLength I.parts

def endBytes (e : KeyRange ι) : Bytes := keyCopyToComparable I.sorts I.parts e.parts e.key

def buildKey (comp : Bytes) : Bytes := if I.isPk then keyNsData :: comp else comp

def lowest : Bytes := [if I.isPk then keyNsData else keyInfLoByte]

def highest (maxKeyLength : Nat) : Bytes :=
  replicate (min (if I.isPk then keyNamespaceLen + I.pkKeyLen else I.idxCompKeyLen + I.pkKeyLen)
    (dataKeyBufLen maxKeyLength)) keyInfHiByte

def rirEncodeBounds (maxKeyLength : Nat) (minKey maxKey : Option (KeyRange ι)) : Bytes × Bytes :=
  (match minKey with
    | some e => I.buildKey (I.endBytes e)
    | none => I.lowest,
   match maxKey with
    | some e => I.buildKey (I.endBytes e)
    | none => I.highest maxKeyLength)

def storedKey (r : Row ι) (pk : Bytes) : Bytes :=
  if I.isPk then keyNsData :: makeComparableKey I.sorts I.parts r else makeComparableKey I.sorts I.parts r ++ pk

def rowBytes (e : KeyRange ι) (r : Row ι) : Bytes := keyCopyToComparable I.sorts I.parts e.parts r

def FromStart (r : Row ι) : Option (KeyRange ι) → Prop
  | none => True
  | some e => if e.inclusive then I.endBytes e ≤ I.rowBytes e r else I.endBytes e < I.rowBytes e r

def ToEnd (r : Row ι) : Option (KeyRange ι) → Prop
  | none => True
  | some e => if e.inclusive then I.rowBytes e r ≤ I.endBytes e else I.rowBytes e r < I.endBytes e

def Names (e : KeyRange ι) : Prop := comparableKeyLength (I.parts.drop (if e.parts = 0 then 1 else e.parts)) = 0

def Reached (maxKeyLength : Nat) (r : Row ι) (pk : Bytes) : Option (KeyRange ι) → Prop
  | none =>
    I.isPk = true ∨ I.idxCompKeyLen + I.pkKeyLen ≤ dataKeyBufLen maxKeyLength ∨
      ¬replicate (dataKeyBufLen maxKeyLength) keyInfHiByte <+: I.storedKey r pk
  | some e => e.inclusive = true → I.rowBytes e r = I.endBytes e → I.isPk = true ∧ I.Names e

end Index

section Bounds

variable {I : Index ι}

theorem cons_le_cons_iff {b : UInt8} {x y : Bytes} : b :: x ≤ b :: y ↔ x ≤ y := by
  rw [← not_lt, ← not_lt, cons_lt_cons_iff]
  simp

theorem storedKey_eq (e : KeyRange ι) (r : Row ι) (pk : Bytes) : I.storedKey r pk = I.buildKey (I.rowBytes e r) ++
      (makeComparableKey I.sorts (I.parts.drop (if e.parts = 0 then 1 else e.parts)) r ++
        if I.isPk then [] else pk) := by
  rw [Index.storedKey, Index.buildKey, Index.rowBytes, keyCopyToComparable,
    makeComparableKey_take I.parts (if e.parts = 0 then 1 else e.parts) r]
  cases I.isPk with
  | false | true => simp

theorem length_rowBytes (e : KeyRange ι) (r : Row ι) : (I.rowBytes e r).length = (I.endBytes e).length :=
  length_keyCopyToComparable ..

theorem buildKey_le_iff (a b : Bytes) : I.buildKey a ≤ I.buildKey b ↔ a ≤ b := by
  rw [Index.buildKey, Index.buildKey]
  cases I.isPk with
  | false => rfl
  | true => exact cons_le_cons_iff

theorem length_buildKey_eq {a b : Bytes} (h : a.length = b.length) : (I.buildKey a).length = (I.buildKey b).length := by
  rw [Index.buildKey, Index.buildKey]
  cases I.isPk with
  | false => exact h
  | true => exact congrArg succ h

theorem start_le (e : KeyRange ι) {r : Row ι} (pk : Bytes) (h : I.FromStart r (some e)) :
    I.buildKey (I.endBytes e) ≤ I.storedKey r pk := by
  have hLe : I.endBytes e ≤ I.rowBytes e r := by
    rw [Index.FromStart] at h
    split at h
    · exact h
    · exact h.le
  rw [storedKey_eq e]
  exact ((buildKey_le_iff _ _).mpr hLe).trans (prefix_le (prefix_append ..))

theorem lowest_le (r : Row ι) {pk : Bytes} (hPk : pk ≠ []) : I.lowest ≤ I.storedKey r pk := by
  rw [Index.lowest, Index.storedKey]
  cases I.isPk with
  | true => exact prefix_le (cons_prefix_cons.mpr ⟨rfl, nil_prefix⟩)
  | false =>
    have hNe : makeComparableKey I.sorts I.parts r ++ pk ≠ [] := fun hNil => hPk (append_eq_nil_iff.mp hNil).2
    obtain ⟨b, rest, hKey⟩ := exists_cons_of_ne_nil hNe
    simp only [Bool.false_eq_true, if_false]
    rw [hKey, ← not_lt, cons_lt_cons_iff]
    rintro (hLt | ⟨-, hNil⟩)
    · exact not_lt.mpr (UInt8.le_iff_toNat_le.mpr (zero_le _)) hLt
    · exact not_lt_nil _ hNil

theorem lower_bound (maxKeyLength : Nat) {minKey : Option (KeyRange ι)} (maxKey : Option (KeyRange ι)) {r : Row ι}
    {pk : Bytes} (hPk : pk ≠ []) (h : I.FromStart r minKey) :
    (I.rirEncodeBounds maxKeyLength minKey maxKey).1 ≤ I.storedKey r pk := by
  cases minKey with
  | none => exact lowest_le r hPk
  | some e => exact start_le e pk h

theorem le_replicate_iff (n : Nat) (x : Bytes) :
    x ≤ replicate n keyInfHiByte ↔ (replicate n keyInfHiByte <+: x → x.length ≤ n) := by
  constructor
  · intro hLe hPre
    rw [le_antisymm hLe (prefix_le hPre), length_replicate]
  · intro hShort
    by_cases hLen : x.length ≤ n
    · have hPre : replicate x.length keyInfHiByte <+: replicate n keyInfHiByte :=
        ⟨replicate (n - x.length) keyInfHiByte, by rw [← replicate_add, Nat.add_sub_cancel' hLen]⟩
      exact (le_replicate_max x).trans (prefix_le hPre)
    · have hNot : ¬replicate n keyInfHiByte <+: x := fun hPre => hLen (hShort hPre)
      have hTake : (x.take n).length = n := length_take_of_le (Nat.le_of_not_le hLen)
      have hMax := le_replicate_max (x.take n)
      rw [hTake] at hMax
      obtain hLt | hEq := lt_or_eq_of_le hMax
      · have hAll := append_lt_append (hTake.trans length_replicate.symm) hLt (x.drop n) []
        rw [take_append_drop, append_nil] at hAll
        exact hAll.le
      · exact absurd (hEq ▸ take_prefix n x) hNot

theorem length_storedKey (r : Row ι) (pk : Bytes) :
    (I.storedKey r pk).length = if I.isPk then 1 + I.idxCompKeyLen else I.idxCompKeyLen + pk.length := by
  rw [Index.storedKey, Index.idxCompKeyLen]
  cases I.isPk with
  | true => simp [length_makeComparableKey, add_comm]
  | false => simp [length_makeComparableKey]

theorem storedKey_le_highest_iff (maxKeyLength : Nat) (hPos : 0 < I.pkKeyLen) {r : Row ι} {pk : Bytes}
    (hPk : pk.length = I.pkKeyLen) :
    I.storedKey r pk ≤ I.highest maxKeyLength ↔ I.Reached maxKeyLength r pk none := by
  rw [Index.highest, le_replicate_iff, length_storedKey, Index.Reached]
  cases hIsPk : I.isPk with
  | true =>
    refine iff_of_true (fun hPre => ?_) (.inl rfl)
    -- the key begins with the byte of its namespace
    have hHead : 0 < min (keyNamespaceLen + I.pkKeyLen) (dataKeyBufLen maxKeyLength) := by
      rw [keyNamespaceLen, dataKeyBufLen, keyNamespaceLen]
      omega
    obtain ⟨n, hn⟩ := exists_eq_succ_of_ne_zero hHead.ne'
    rw [if_pos rfl, hn, replicate_succ, Index.storedKey, hIsPk, if_pos rfl, cons_prefix_cons] at hPre
    exact absurd hPre.1 (by decide)
  | false =>
    simp only [Bool.false_eq_true, if_false, false_or, hPk]
    by_cases hFit : I.idxCompKeyLen + I.pkKeyLen ≤ dataKeyBufLen maxKeyLength
    · rw [min_eq_left hFit]
      exact iff_of_true (fun _ => le_rfl) (.inl hFit)
    · rw [Nat.min_eq_right (Nat.le_of_not_le hFit), or_iff_right hFit]
      exact ⟨fun h hPre => hFit (h hPre), fun h hPre => absurd hPre h⟩

theorem storedKey_le_end_iff (maxKeyLength : Nat) (hPos : 0 < I.pkKeyLen) (e : KeyRange ι) {r : Row ι} {pk : Bytes}
    (hPk : pk.length = I.pkKeyLen) (h : I.ToEnd r (some e)) :
    I.storedKey r pk ≤ I.buildKey (I.endBytes e) ↔ I.Reached maxKeyLength r pk (some e) := by
  have hLe : I.rowBytes e r ≤ I.endBytes e := by
    rw [Index.ToEnd] at h
    split at h
    · exact h
    · exact h.le
  rw [storedKey_eq e, Index.Reached]
  obtain hLt | hEq := lt_or_eq_of_le hLe
  · refine iff_of_true ?_ fun _ hSame => absurd hSame hLt.ne
    have hKey : I.buildKey (I.rowBytes e r) < I.buildKey (I.endBytes e) :=
      lt_of_not_ge fun hGe => not_le.mpr hLt ((buildKey_le_iff _ _).mp hGe)
    have hAll := append_lt_append (length_buildKey_eq (length_rowBytes e r)) hKey
      (makeComparableKey I.sorts (I.parts.drop (if e.parts = 0 then 1 else e.parts)) r ++ if I.isPk then [] else pk) []
    rw [append_nil] at hAll
    exact hAll.le
  · have hInclusive : e.inclusive = true := by
      rw [Index.ToEnd] at h
      split at h
      · assumption
      · exact absurd hEq h.ne
    rw [hEq]
    have hExtends (rest : Bytes) : I.buildKey (I.endBytes e) ++ rest ≤ I.buildKey (I.endBytes e) ↔ rest = [] := by
      constructor
      · intro hBack
        have hSame := le_antisymm hBack (prefix_le (prefix_append ..))
        simpa using hSame
      · rintro rfl
        rw [append_nil]
    rw [hExtends, append_eq_nil_iff, ← length_eq_zero_iff, length_makeComparableKey]
    cases I.isPk with
    | true => simp [hInclusive, Index.Names]
    | false =>
      have hNe : pk ≠ [] := by
        rintro rfl
        rw [← hPk] at hPos
        exact absurd hPos (lt_irrefl 0)
      simp [hInclusive, hNe]

/-- The stored key of a row in the range lies between the bounds exactly when it is reached. -/
theorem stored_between_iff (maxKeyLength : Nat) (hPos : 0 < I.pkKeyLen) (minKey maxKey : Option (KeyRange ι))
    {r : Row ι}
    {pk : Bytes} (hPk : pk.length = I.pkKeyLen) (hStart : I.FromStart r minKey) (hEnd : I.ToEnd r maxKey) :
    ((I.rirEncodeBounds maxKeyLength minKey maxKey).1 ≤ I.storedKey r pk ∧
      I.storedKey r pk ≤ (I.rirEncodeBounds maxKeyLength minKey maxKey).2) ↔ I.Reached maxKeyLength r pk maxKey := by
  have hNe : pk ≠ [] := by
    rintro rfl
    rw [← hPk] at hPos
    exact absurd hPos (lt_irrefl 0)
  rw [and_iff_right (lower_bound maxKeyLength maxKey hNe hStart)]
  cases maxKey with
  | none => exact storedKey_le_highest_iff maxKeyLength hPos hPk
  | some e => exact storedKey_le_end_iff maxKeyLength hPos e hPk hEnd

end Bounds

section Sample

def byteIndex : Index Bool := ⟨bytesOf, false, [bytePart true], 1⟩

def upTo (b : UInt8) (inclusive : Bool) : KeyRange Bool := ⟨1, pairRow [b], inclusive⟩

theorem stored_between_below :
    (byteIndex.rirEncodeBounds 3072 none (some (upTo 5 false))).1 ≤ byteIndex.storedKey (pairRow [4]) [2] ∧
      byteIndex.storedKey (pairRow [4]) [2] ≤ (byteIndex.rirEncodeBounds 3072 none (some (upTo 5 false))).2 :=
  (stored_between_iff 3072 (by decide) none (some (upTo 5 false)) (by decide) trivial
    (show byteIndex.rowBytes (upTo 5 false) (pairRow [4]) < byteIndex.endBytes (upTo 5 false) by decide)).mpr
    (fun h => by cases h)

/-- The entry of a row with 5 lies beyond the bound of the range up to 5. -/
theorem entry_beyond_inclusive_end :
    byteIndex.FromStart (pairRow [5]) none ∧ byteIndex.ToEnd (pairRow [5]) (some (upTo 5 true)) ∧
      byteIndex.storedKey (pairRow [5]) [2] = [5, 2] ∧
      (byteIndex.rirEncodeBounds 3072 none (some (upTo 5 true))).2 = [5] ∧
      ¬byteIndex.storedKey (pairRow [5]) [2] ≤ (byteIndex.rirEncodeBounds 3072 none (some (upTo 5 true))).2 :=
  ⟨trivial, show byteIndex.rowBytes (upTo 5 true) (pairRow [5]) ≤ byteIndex.endBytes (upTo 5 true) by decide,
    by decide, by decide, by decide⟩

end Sample

end TideSql.RangeBounds
