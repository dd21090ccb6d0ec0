import TideSql.Handler.RangeBounds
import TideSql.Lib.Run

/-!
# Iterators that are bounded to a range

`read_range_first` makes the library leave out what lies outside of the range, and notes the range in the
handler.
-/

namespace TideSql.BoundedIter
open KeyCodec SortKey IndexRead PkPosition RangeBounds Lib.Run

structure Table (φ ι : Type) where
  dataCf : φ
  index : φ → Index ι
  maxKeyLength : Nat
  pk_pos : ∀ cf, 0 < (index cf).pkKeyLen

structure Iter (φ : Type) where
  cf : φ
  txn : Nat
  txnGen : Nat
  bounds : Option (Bytes × Bytes)

def Within : Option (Bytes × Bytes) → Bytes → Prop
  | none, _ => True
  | some (lo, hi), k => lo ≤ k ∧ k ≤ hi

instance instDecidableWithin (b : Option (Bytes × Bytes)) (k : Bytes) : Decidable (Within b k) :=
  match b with
  | none => isTrue trivial
  | some (lo, hi) => inferInstanceAs (Decidable (lo ≤ k ∧ k ≤ hi))

structure State (φ : Type) where
  scanIter : Option (Iter φ)
  scanCf : Option φ
  scanTxn : Option Nat
  /-- `scan_range_valid_` with the two buffers. -/
  scanRange : Option (Bytes × Bytes)
  txn : Nat
  txnGen : Nat
  inTransaction : Bool
  stmtTxnDirty : Bool
  /-- The keys the open scan has to return. -/
  scan : Option (Bytes → Prop)
  /-- Whether it is the range scan that `read_range_first` began. -/
  ranged : Bool

inductive Action (φ ι : Type) where
  | rndInit (ok : Bool)
  | rndEnd
  | indexInit (cf : Option φ)
  | indexEnd
  /-- The server's `handler::read_range_first` makes the first read, and `seeks` is whether that read uses the
  iterator. -/
  | readRangeFirst (startKey endKey : Option (KeyRange ι)) (seeks ok : Bool)
  | indexReadMap (parts : Nat) (key : Row ι) (flag : FindFlag) (ok : Bool)
  | indexFirst (ok : Bool)
  | indexLast (ok : Bool)
  | indexNext (ok : Bool)
  | indexPrev (ok : Bool)
  | write
  | bulkCommit (txn : Nat)
  | newTxn (txn : Nat)
  | externalLockRelease

section Step

variable {φ ι : Type} [DecidableEq φ] (T : Table φ ι)

def reuse (s : State φ) (cf : φ) (it : Iter φ) : Bool := decide (it.cf = cf ∧ it.txn = s.txn ∧ it.txnGen = s.txnGen)

def kept (s : State φ) (cf : φ) : Option (Iter φ) := s.scanIter.filter (reuse s cf)

def ensureScanIter (s : State φ) (ok : Bool) : State φ :=
  match s.scanIter, s.scanTxn, s.scanCf with
  | none, some txn, some cf => if ok then { s with scanIter := some ⟨cf, txn, s.txnGen, s.scanRange⟩ } else s
  | _, _, _ => s

def isRow (I : Index ι) (k : Bytes) : Prop := I.isPk = true → isDataKey k = true

def payload (I : Index ι) (k : Bytes) : Bytes := if I.isPk then k.drop 1 else k

def flagKeys (I : Index ι) (comp : Bytes) (flag : FindFlag) (k : Bytes) : Prop :=
  isRow I k ∧ admits flag comp (payload I k) = true

def rangeKeys (I : Index ι) (startKey endKey : Option (KeyRange ι)) (k : Bytes) : Prop :=
  ∃ r pk, pk.length = I.pkKeyLen ∧ k = I.storedKey r pk ∧ I.FromStart r startKey ∧ I.ToEnd r endKey

def isPoint (I : Index ι) (comp : Bytes) (flag : FindFlag) : Bool :=
  I.isPk && decide (flag = .keyExact) && decide (comparableKeyLength I.parts ≤ comp.length)

def validRange (b : Bytes × Bytes) : Option (Bytes × Bytes) := if b.1 ≠ [] ∧ b.2 ≠ [] then some b else none

def step (s : State φ) : Action φ ι → Option (State φ)
  | .rndInit ok =>
    match kept s T.dataCf with
    | some it =>
      some { s with scanIter := some it, scanRange := none, scanTxn := some s.txn
                    scan := some fun k => isDataKey k = true }
    | none =>
      if ok then
        some { s with scanIter := some ⟨T.dataCf, s.txn, s.txnGen, none⟩, scanRange := none, scanTxn := some s.txn
                      scan := some fun k => isDataKey k = true }
      else some { s with scanIter := none, scanRange := none, scanTxn := none, scan := none }
  | .rndEnd => some { s with scanTxn := none, scan := none }
  | .indexInit none => some { s with scanRange := none, scanTxn := none, scanCf := none, scan := none }
  | .indexInit (some cf) =>
    some { s with scanIter := kept s cf, scanRange := none, scanTxn := some s.txn, scanCf := some cf
                  scan := some fun _ => False }
  | .indexEnd => some { s with scanTxn := none, scanRange := none, scan := none }
  | .readRangeFirst startKey endKey seeks ok =>
    match s.scan, s.scanCf with
    | some _, some cf =>
      let s := { s with scanIter := none
                        scanRange := validRange ((T.index cf).rirEncodeBounds T.maxKeyLength startKey endKey)
                        scan := some (rangeKeys (T.index cf) startKey endKey)
                        ranged := true }
      some (if seeks then ensureScanIter s ok else s)
    | _, _ => none
  | .indexReadMap parts key flag ok =>
    match s.scan, s.scanCf with
    | some _, some cf =>
      let comp := keyCopyToComparable (T.index cf).sorts (T.index cf).parts parts key
      -- a point lookup does not use the iterator; the read that goes on from it does
      if isPoint (T.index cf) comp flag then some { s with scan := some fun _ => False, ranged := false }
      else some (ensureScanIter { s with scan := some (flagKeys (T.index cf) comp flag), ranged := false } ok)
    | _, _ => none
  | .indexFirst ok | .indexLast ok | .indexPrev ok =>
    match s.scan, s.scanCf with
    | some _, some cf => some (ensureScanIter { s with scan := some (isRow (T.index cf)), ranged := false } ok)
    | _, _ => none
  | .indexNext ok =>
    match s.scan, s.scanCf with
    | some need, some cf =>
      some (ensureScanIter { s with scan := some (if s.ranged then need else isRow (T.index cf)) } ok)
    | _, _ => none
  | .write => some { s with stmtTxnDirty := true }
  | .bulkCommit txn => some { s with scanIter := none, txn, txnGen := s.txnGen + 1, scanTxn := some txn }
  | .newTxn txn => some { s with txn, txnGen := s.txnGen + 1 }
  | .externalLockRelease =>
    some { s with scanIter := if !s.inTransaction || s.stmtTxnDirty then none else s.scanIter, stmtTxnDirty := false
                  scan := none }

def Safe (s : State φ) : Prop :=
  ∀ need it, s.scan = some need → s.scanIter = some it → ∀ k, need k → Within it.bounds k

def Unbounded (it : Option (Iter φ)) : Prop := ∀ i, it = some i → i.bounds = none

/-- A read that is no part of a range scan finds no bounded iterator and no range set; a range scan has bounds that
reach its rows. -/
def Guard (s : State φ) : Action φ ι → Prop
  | .rndInit _ => Unbounded (kept s T.dataCf)
  | .indexReadMap parts key flag _ => ∀ cf, s.scanCf = some cf →
      isPoint (T.index cf) (keyCopyToComparable (T.index cf).sorts (T.index cf).parts parts key) flag = true ∨
        (s.scanRange = none ∧ Unbounded s.scanIter)
  | .indexFirst _ | .indexLast _ | .indexPrev _ => s.scanRange = none ∧ Unbounded s.scanIter
  | .indexNext _ => s.ranged = true ∨ (s.scanRange = none ∧ Unbounded s.scanIter)
  | .readRangeFirst startKey endKey _ _ => ∀ cf, s.scanCf = some cf → ∀ r pk, pk.length = (T.index cf).pkKeyLen →
      (T.index cf).FromStart r startKey → (T.index cf).ToEnd r endKey →
      (T.index cf).Reached T.maxKeyLength r pk endKey
  | _ => True

end Step

section Invariant

variable {φ ι : Type} {T : Table φ ι} {s s' : State φ}

structure Inv (s : State φ) : Prop where
  safe : Safe s
  range : ∀ need, s.scan = some need → ∀ k, need k → Within s.scanRange k

theorem Unbounded.within {it : Option (Iter φ)} (h : Unbounded it) {i : Iter φ} (hi : it = some i) (k : Bytes) :
    Within i.bounds k := by
  rw [h i hi]
  trivial

theorem inv_closed (h : s.scan = none) : Inv s where
  safe := fun need _ hScan => by
    rw [h] at hScan
    cases hScan
  range := fun need hScan => by
    rw [h] at hScan
    cases hScan

theorem inv_nothing (h : s.scan = some fun _ => False) : Inv s where
  safe := fun need _ hScan _ k hk => by
    rw [h] at hScan
    cases hScan
    exact hk.elim
  range := fun need hScan k hk => by
    rw [h] at hScan
    cases hScan
    exact hk.elim

theorem Inv.ensure (h : Inv s) (ok : Bool) : Inv (ensureScanIter s ok) := by
  rw [ensureScanIter]
  split
  · split
    · refine ⟨fun need it hScan hIter k hk => ?_, h.range⟩
      cases hIter
      exact h.range need hScan k hk
    · exact h
  · exact h

theorem inv_unbounded (need : Bytes → Prop) (ranged : Bool) (hRange : s.scanRange = none)
    (hIter : Unbounded s.scanIter) : Inv { s with scan := some need, ranged } where
  safe := fun _ _ _ hIt k _ => hIter.within hIt k
  range := fun _ _ k _ => by
    dsimp only
    rw [hRange]
    trivial

theorem within_of_reached {cf : φ} {startKey endKey : Option (KeyRange ι)}
    (h : ∀ r pk, pk.length = (T.index cf).pkKeyLen → (T.index cf).FromStart r startKey → (T.index cf).ToEnd r endKey →
      (T.index cf).Reached T.maxKeyLength r pk endKey) {k : Bytes} (hk : rangeKeys (T.index cf) startKey endKey k) :
    Within (validRange ((T.index cf).rirEncodeBounds T.maxKeyLength startKey endKey)) k := by
  rw [validRange]
  split
  · obtain ⟨r, pk, hPk, rfl, hStart, hEnd⟩ := hk
    have hNe : pk ≠ [] := by
      rintro rfl
      have hPos := T.pk_pos cf
      rw [← hPk] at hPos
      exact absurd hPos (Nat.lt_irrefl 0)
    refine ⟨lower_bound T.maxKeyLength endKey hNe hStart, ?_⟩
    have hReached := h r pk hPk hStart hEnd
    cases endKey with
    | none => exact (storedKey_le_highest_iff T.maxKeyLength (T.pk_pos cf) hPk).mpr hReached
    | some e => exact (storedKey_le_end_iff T.maxKeyLength (T.pk_pos cf) e hPk hEnd).mpr hReached
  · trivial

variable [DecidableEq φ]

theorem inv_step {a : Action φ ι} (h : Inv s) (hGuard : Guard T s a) (hStep : step T s a = some s') : Inv s' := by
  cases a with
  | rndInit ok =>
    rw [step] at hStep
    split at hStep
    · rename_i it hKept
      cases hStep
      exact ⟨fun _ _ _ hIt k _ => hGuard.within (hKept.trans hIt) k, fun _ _ _ _ => trivial⟩
    · split at hStep
      · cases hStep
        refine ⟨fun _ it _ hIt k _ => ?_, fun _ _ _ _ => trivial⟩
        cases hIt
        trivial
      · cases hStep
        exact inv_closed rfl
  | rndEnd =>
    cases hStep
    exact inv_closed rfl
  | indexInit cf =>
    cases cf with
    | none =>
      cases hStep
      exact inv_closed rfl
    | some cf =>
      cases hStep
      exact inv_nothing rfl
  | indexEnd =>
    cases hStep
    exact inv_closed rfl
  | readRangeFirst startKey endKey seeks ok =>
    rw [step] at hStep
    split at hStep
    · rename_i cf hScan hCf
      have hOpen : Inv { s with
          scanIter := none
          scanRange := validRange ((T.index cf).rirEncodeBounds T.maxKeyLength startKey endKey)
          scan := some (rangeKeys (T.index cf) startKey endKey)
          ranged := true } := by
        refine ⟨fun _ _ _ hIt => (by cases hIt), fun need hNeed k hk => ?_⟩
        cases hNeed
        exact within_of_reached (hGuard cf hCf) hk
      cases hStep
      split
      · exact hOpen.ensure ok
      · exact hOpen
    · cases hStep
  | indexReadMap parts key flag ok =>
    rw [step] at hStep
    split at hStep
    · rename_i cf hScan hCf
      dsimp only at hStep
      split at hStep
      · cases hStep
        exact inv_nothing rfl
      · rename_i hPoint
        cases hStep
        obtain ⟨hRange, hIter⟩ := (hGuard cf hCf).resolve_left hPoint
        exact (inv_unbounded _ false hRange hIter).ensure ok
    · cases hStep
  | indexFirst ok | indexLast ok | indexPrev ok =>
    rw [step] at hStep
    split at hStep
    · cases hStep
      exact (inv_unbounded _ false hGuard.1 hGuard.2).ensure ok
    · cases hStep
  | indexNext ok =>
    rw [step] at hStep
    split at hStep
    · rename_i need cf hScan hCf
      cases hStep
      obtain hRanged | ⟨hRange, hIter⟩ := hGuard
      · have hSame : { s with scan := some (if s.ranged then need else isRow (T.index cf)) } = s := by
          rw [if_pos hRanged, ← hScan]
        rw [hSame]
        exact h.ensure ok
      · exact (inv_unbounded _ s.ranged hRange hIter).ensure ok
    · cases hStep
  | write =>
    cases hStep
    exact ⟨h.safe, h.range⟩
  | bulkCommit txn =>
    cases hStep
    exact ⟨fun _ _ _ hIt => (by cases hIt), h.range⟩
  | newTxn txn =>
    cases hStep
    exact ⟨h.safe, h.range⟩
  | externalLockRelease =>
    cases hStep
    exact inv_closed rfl

/-- In every run whose steps meet the condition, the iterator of the open scan sees every key the
scan has to return. -/
theorem iterators_stay_in_bounds {s₀ : State φ} (hStart : s₀.scan = none) (h : Reach (step T) (Guard T) s₀ s) :
    Safe s := by
  have hInv : Inv s := h.invariant Inv (inv_closed hStart) fun _ _ _ hInv hGuard hStep => inv_step hInv hGuard hStep
  exact hInv.safe

end Invariant

section Sample

def byteTable : Table Unit Bool where
  dataCf := ()
  index := fun _ => ⟨bytesOf, true, [bytePart true], 1⟩
  maxKeyLength := 3072
  pk_pos := fun _ => Nat.one_pos

def begun : State Unit := ⟨none, none, none, none, 1, 1, true, false, none, false⟩

def readBetween (a b : UInt8) : List (Action Unit Bool) :=
  [.indexInit (some ()), .readRangeFirst (some (upTo a true)) (some (upTo b true)) true true]

def statementEnd : List (Action Unit Bool) := [.indexEnd, .externalLockRelease]

theorem iterators_stay_in_bounds_ranges :
    ∃ s, run (step byteTable) begun (readBetween 5 9 ++ statementEnd ++ readBetween 1 3 ++ [.indexNext true]) =
        some s ∧
      s.scanIter.map (fun it => it.bounds) = some (some ([1, 1], [1, 3])) ∧ Safe s := by
  have hReached (s : State Unit) (a b : UInt8) : Guard byteTable s
      (.readRangeFirst (some (upTo a true)) (some (upTo b true)) true true) :=
    fun _ _ _ _ _ _ _ _ _ => ⟨rfl, rfl⟩
  have hIndexInit (s : State Unit) : Guard byteTable s (.indexInit (some ())) := trivial
  have hIndexNext (s : State Unit) (h : s.ranged = true) : Guard byteTable s (.indexNext true) := Or.inl h
  have hIndexEnd (s : State Unit) : Guard byteTable s .indexEnd := trivial
  have hRelease (s : State Unit) : Guard byteTable s .externalLockRelease := trivial
  have hInit : Reach (step byteTable) (Guard byteTable) begun _ := .step _ .init (hIndexInit begun) rfl
  have hRead := hInit.step _ (hReached _ 5 9) rfl
  have hEnd := (hRead.step _ (hIndexEnd _) rfl).step _ (hRelease _) rfl
  have hNext := (hEnd.step _ (hIndexInit _) rfl).step _ (hReached _ 1 3) rfl
  have hOn := hNext.step (.indexNext true) (hIndexNext _ rfl) rfl
  exact ⟨_, rfl, by decide, iterators_stay_in_bounds rfl hOn⟩

/-- A scan of the whole table after a statement that read the rows from 5 to 9 uses its iterator, and so does the
read that goes on from the row 9. -/
theorem full_scan_bounded :
    (∃ s, run (step byteTable) begun (readBetween 5 9 ++ statementEnd ++ [.rndInit true]) = some s ∧
      s.scanIter.map (fun it => it.bounds) = some (some ([1, 5], [1, 9])) ∧ s.scan.map (· [1, 1]) = some True ∧
      ¬Safe s) ∧
    ∃ s, run (step byteTable) begun (readBetween 5 9 ++ statementEnd ++
        [.indexInit (some ()), .indexReadMap 1 (fun _ => some [9]) .keyExact true, .indexNext true]) = some s ∧
      s.scanIter.map (fun it => it.bounds) = some (some ([1, 5], [1, 9])) ∧ ¬Safe s := by
  constructor
  · refine ⟨_, rfl, by decide, ?_, ?_⟩
    · simp [isDataKey, keyNsData]
    · intro hSafe
      have hWithin := hSafe _ _ rfl rfl [1, 1] rfl
      revert hWithin
      decide
  · refine ⟨_, rfl, by decide, ?_⟩
    intro hSafe
    have hWithin := hSafe _ _ rfl rfl [1, 10] fun _ => rfl
    revert hWithin
    decide

end Sample

end TideSql.BoundedIter
