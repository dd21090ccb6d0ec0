import TideSql.Handler.PkPosition

/-!
# The order of comparable keys

Every part of a comparable key has its fixed width, so bytes that stand at one place of two keys belong to one
part, and the first part that differs decides.
-/

namespace TideSql.KeyOrder
open KeyCodec SortKey Lib.ByteOrder List

attribute [local instance (2000)] LinearOrder.toDecidableLT

variable {ι : Type}

abbrev ValueOrder (ι : Type) := KeyCodec.Field ι → Nat → Bytes → Bytes → Ordering

def partCompare (values : ValueOrder ι) (p : KeyPart ι) (r r' : Row ι) : Ordering :=
  let ascending :=
    match r p.col, r' p.col with
    | none, none => .eq
    | none, some _ => .lt
    | some _, none => .gt
    | some v, some v' => values p.field p.length v v'
  if p.desc then ascending.swap else ascending

def sqlCompare (values : ValueOrder ι) : List (KeyPart ι) → Row ι → Row ι → Ordering
  | [], _, _ => .eq
  | p :: parts, r, r' => (partCompare values p r r').then (sqlCompare values parts r r')

def Sorts (S : SortStrings ι) (values : ValueOrder ι) (p : KeyPart ι) (r r' : Row ι) : Prop :=
  ∀ v v', r p.col = some v → r' p.col = some v' →
    cmp (S.write p.field p.length v) (S.write p.field p.length v') = values p.field p.length v v'

def Filled (p : KeyPart ι) (r : Row ι) : Prop := p.field.nullable = false → r p.col ≠ none

variable {S : SortStrings ι} {values : ValueOrder ι} {p : KeyPart ι} {r r' : Row ι}

theorem cmp_cons (b c : UInt8) (s t : Bytes) : cmp (b :: s) (c :: t) = (cmp [b] [c]).then (cmp s t) :=
  cmp_append (show [b].length = [c].length from rfl) s t

section

variable (hSorts : Sorts S values p r r') (hr : Filled p r) (hr' : Filled p r')
include hSorts hr hr'

theorem cmp_comparableSpan : cmp (comparableSpan S p r) (comparableSpan S p r') = match r p.col, r' p.col with
      | none, none => .eq
      | none, some _ => .lt
      | some _, none => .gt
      | some v, some v' => values p.field p.length v v' := by
  rw [comparableSpan, comparableSpan]
  cases hNullable : p.field.nullable with
  | false =>
    obtain ⟨v, hv⟩ := Option.ne_none_iff_exists'.mp (hr hNullable)
    obtain ⟨v', hv'⟩ := Option.ne_none_iff_exists'.mp (hr' hNullable)
    simp only [Bool.false_eq_true, if_false, hv, hv', Option.getD_some]
    exact hSorts v v' hv hv'
  | true =>
    have hBelow : cmp [sortKeyNull] [sortKeyNotNull] = .lt := by decide
    have hAbove : cmp [sortKeyNotNull] [sortKeyNull] = .gt := by decide
    simp only [if_true]
    cases hv : r p.col with
    | none =>
      cases hv' : r' p.col with
      | none => exact cmp_self_eq_eq _
      | some v' =>
        rw [cmp_cons, hBelow]
        rfl
    | some v =>
      cases hv' : r' p.col with
      | none =>
        rw [cmp_cons, hAbove]
        rfl
      | some v' =>
        rw [cmp_cons, cmp_self_eq_eq, Ordering.then]
        exact hSorts v v' hv hv'

theorem cmp_comparablePart : cmp (comparablePart S p r) (comparablePart S p r') = partCompare values p r r' := by
  have hSpan := cmp_comparableSpan hSorts hr hr'
  rw [comparablePart, comparablePart, partCompare]
  split
  · rw [invertKeyPart, invertKeyPart, cmp_not (by rw [length_comparableSpan, length_comparableSpan]), ← cmp_swap,
      hSpan]
  · exact hSpan

end

theorem cmp_makeComparableKey (parts : List (KeyPart ι)) (hSorts : ∀ p ∈ parts, Sorts S values p r r')
    (hr : ∀ p ∈ parts, Filled p r) (hr' : ∀ p ∈ parts, Filled p r') :
    cmp (makeComparableKey S parts r) (makeComparableKey S parts r') = sqlCompare values parts r r' := by
  induction parts with
  | nil => exact cmp_self_eq_eq _
  | cons p parts ih =>
    have hRest := ih (fun p hp => hSorts p (mem_cons_of_mem _ hp)) (fun p hp => hr p (mem_cons_of_mem _ hp))
      (fun p hp => hr' p (mem_cons_of_mem _ hp))
    have hPart := cmp_comparablePart (hSorts p mem_cons_self) (hr p mem_cons_self)
      (hr' p mem_cons_self)
    rw [makeComparableKey, makeComparableKey, flatMap_cons, flatMap_cons,
      cmp_append (by rw [length_comparablePart, length_comparablePart]), hPart]
    exact congrArg _ hRest

/-- Comparable keys of the leading parts of a key, of any number of them, compare as the rows do. -/
theorem comparable_keys_ordered (parts : List (KeyPart ι)) (hSorts : ∀ p ∈ parts, Sorts S values p r r')
    (hr : ∀ p ∈ parts, Filled p r) (hr' : ∀ p ∈ parts, Filled p r') :
    (∀ n, cmp (makeComparableKey S (parts.take n) r) (makeComparableKey S (parts.take n) r') =
      sqlCompare values (parts.take n) r r') ∧
    cmp (makeComparableKey S parts r) (makeComparableKey S parts r') = sqlCompare values parts r r' ∧
    (makeComparableKey S parts r).length = comparableKeyLength parts := by
  refine ⟨fun n => ?_, cmp_makeComparableKey parts hSorts hr hr', length_makeComparableKey parts r⟩
  exact cmp_makeComparableKey _ (fun p hp => hSorts p (mem_of_mem_take hp))
    (fun p hp => hr p (mem_of_mem_take hp)) fun p hp => hr' p (mem_of_mem_take hp)

section Sample

def twoParts : List (KeyPart Bool) :=
  [⟨⟨true, true, .other, true, .bin, 1⟩, 1, false⟩, ⟨⟨false, false, .other, true, .bin, 1⟩, 1, true⟩]

def twoColumns (a : Option Bytes) (b : Bytes) : Row Bool := fun c => if c then a else some b

def asBytes : ValueOrder Bool := fun f n v v' =>
  cmp (PkPosition.bytesOf.write f n v) (PkPosition.bytesOf.write f n v')

theorem comparable_keys_ordered_two : cmp (makeComparableKey PkPosition.bytesOf twoParts (twoColumns none [1]))
        (makeComparableKey PkPosition.bytesOf twoParts (twoColumns (some [0]) [2])) = .lt ∧
      cmp (makeComparableKey PkPosition.bytesOf twoParts (twoColumns (some [0]) [1]))
        (makeComparableKey PkPosition.bytesOf twoParts (twoColumns (some [0]) [2])) = .gt := by
  have hSorts (r r' : Row Bool) : ∀ p ∈ twoParts, Sorts PkPosition.bytesOf asBytes p r r' := fun _ _ _ _ _ _ => rfl
  have hFilled (a : Option Bytes) (b : Bytes) : ∀ p ∈ twoParts, Filled p (twoColumns a b) := by
    intro p hp hNullable
    simp only [twoParts, mem_cons, not_mem_nil, or_false] at hp
    obtain rfl | rfl := hp
    · cases hNullable
    · exact Option.some_ne_none b
  constructor
  · rw [(comparable_keys_ordered twoParts (hSorts _ _) (hFilled _ _) (hFilled _ _)).2.1]
    decide
  · rw [(comparable_keys_ordered twoParts (hSorts _ _) (hFilled _ _) (hFilled _ _)).2.1]
    decide

end Sample

end TideSql.KeyOrder
