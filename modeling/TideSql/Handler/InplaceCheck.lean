import Mathlib.Data.List.Basic

/-!
# Which `ALTER TABLE` is taken without a copy

The engine sorts the flags of an `ALTER TABLE` into those that need no work on
the rows, those that add or drop secondary indexes in place, and the rest.
-/

namespace TideSql.InplaceCheck

/-- The server's `HA_ALTER_FLAGS`, those of the engine's sets by name. -/
inductive AlterFlag where
  | alterColumnName
  | alterColumnDefault
  | changeCreateOption
  | dropCheckConstraint
  | alterVirtualGcolExpr
  | alterRename
  | renameIndex
  | changeIndexOption
  | addColumn
  | dropColumn
  | alterStoredColumnOrder
  | alterVirtualColumnOrder
  | alterColumnColumnFormat
  | alterColumnStorageType
  | addIndex
  | dropIndex
  | addUniqueIndex
  | dropUniqueIndex
  | addSpatialIndex
  | addPkIndex
  | dropPkIndex
  | other (bit : Nat)
  deriving DecidableEq, Repr

def instantSet : List AlterFlag :=
  [.alterColumnName, .alterColumnDefault, .changeCreateOption, .dropCheckConstraint, .alterVirtualGcolExpr,
    .alterRename, .renameIndex, .changeIndexOption, .addColumn, .dropColumn, .alterStoredColumnOrder,
    .alterVirtualColumnOrder, .alterColumnColumnFormat, .alterColumnStorageType]

def indexSet : List AlterFlag := [.addIndex, .dropIndex, .addUniqueIndex, .dropUniqueIndex, .addSpatialIndex]

def pkSet : List AlterFlag := [.addPkIndex, .dropPkIndex]

inductive IndexKind where
  | ordinary
  | fulltext
  | spatial
  deriving DecidableEq, Repr

inductive InplaceResult where
  | notSupported (unsupportedReason : Option String)
  | instant
  | noLock
  deriving DecidableEq, Repr

structure Request where
  oldPackRecord : Bool
  newPackRecord : Bool
  flags : List AlterFlag
  added : List IndexKind

def nullBitBase (packRecord : Bool) : Nat := if packRecord then 0 else 1

def refusedKind : List IndexKind → Option String
  | [] => none
  | .fulltext :: _ => some "TidesDB cannot add FULLTEXT index inplace"
  | .spatial :: _ => some "TidesDB cannot add SPATIAL index inplace"
  | .ordinary :: ks => refusedKind ks

def checkIfSupportedInplaceAlter (req : Request) : InplaceResult :=
  if nullBitBase req.oldPackRecord ≠ nullBitBase req.newPackRecord then
    .notSupported (some "TidesDB must rebuild the table when the record's null bitmap moves")
  else if ∀ f ∈ req.flags, f ∈ instantSet then .instant
  else if ∀ f ∈ req.flags, f ∈ instantSet ∨ f ∈ indexSet then
    if ∃ f ∈ req.flags, f ∈ pkSet then .notSupported (some "TidesDB cannot change PRIMARY KEY inplace")
    else
      match refusedKind req.added with
      | some reason => .notSupported (some reason)
      | none => .noLock
  else .notSupported none

theorem refusedKind_eq_none_iff (ks : List IndexKind) : refusedKind ks = none ↔ ∀ k ∈ ks, k = .ordinary := by
  induction ks with
  | nil => simp [refusedKind]
  | cons k ks ih =>
    cases k with
    | ordinary => simp [refusedKind, ih]
    | fulltext | spatial => simp [refusedKind]

theorem check_eq_instant_iff (req : Request) : checkIfSupportedInplaceAlter req = .instant ↔
      req.oldPackRecord = req.newPackRecord ∧ ∀ f ∈ req.flags, f ∈ instantSet := by
  have hBase : nullBitBase req.oldPackRecord = nullBitBase req.newPackRecord ↔
      req.oldPackRecord = req.newPackRecord := by
    cases req.oldPackRecord <;> cases req.newPackRecord <;> decide
  rw [checkIfSupportedInplaceAlter]
  split
  · rename_i hMoves
    simp [← hBase, hMoves]
  · rename_i hStays
    rw [not_not, hBase] at hStays
    split
    · rename_i hFlags
      simp only [hStays, true_and, true_iff]
      exact hFlags
    · rename_i hFlags
      simp only [hStays, true_and, hFlags, iff_false]
      split
      · split
        · simp
        · split
          · simp
          · simp
      · simp

theorem added_ordinary_of_noLock {req : Request} (h : checkIfSupportedInplaceAlter req = .noLock) :
    ∀ k ∈ req.added, k = .ordinary := by
  rw [checkIfSupportedInplaceAlter] at h
  split at h
  · cases h
  · split at h
    · cases h
    · split at h
      · split at h
        · cases h
        · split at h
          · cases h
          · rename_i hNone
            exact (refusedKind_eq_none_iff _).mp hNone
      · cases h

end TideSql.InplaceCheck
