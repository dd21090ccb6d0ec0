import TideSql.Lib.ByteOrder

/-!
# The record of a pending schema change

A key orders the records by server run and sequence; a record names the intent and the table.
-/

namespace TideSql.DdlLogRec
open Lib Lib.Bytes Lib.ByteOrder List

attribute [local instance (2000)] LinearOrder.toDecidableLT

abbrev Bytes := List UInt8

def maxFieldLen : Nat := 65535
def formatVersion : UInt8 := 1

inductive Intent where
  | drop
  | create
  deriving DecidableEq, Repr

def Intent.code : Intent → UInt8
  | .drop => 1
  | .create => 2

structure Record where
  what : Intent
  path : Bytes
  db : Bytes
  table : Bytes
  deriving DecidableEq, Repr

def encodeKey (bootId sequence : UInt64) : Bytes := toBE 8 bootId.toNat ++ toBE 8 sequence.toNat

def encodeRecord (rec : Record) : Option Bytes :=
  if rec.path.length > maxFieldLen ∨ rec.db.length > maxFieldLen ∨ rec.table.length > maxFieldLen then none
  else some (formatVersion :: rec.what.code :: (putStr rec.path ++ (putStr rec.db ++ putStr rec.table)))

def intentOf (what : UInt8) : Option Intent :=
  if what = Intent.drop.code then some .drop else if what = Intent.create.code then some .create else none

def parseFields (what : Intent) (p : Bytes) : Option Record :=
  (getStr maxFieldLen p).bind fun path => (getStr maxFieldLen path.2).bind fun db =>
    (getStr maxFieldLen db.2).bind fun table =>
      if path.1.isEmpty then none else some ⟨what, path.1, db.1, table.1⟩

def parseRecord : Bytes → Option Record
  | version :: what :: p =>
    if version = formatVersion then (intentOf what).bind fun what => parseFields what p else none
  | _ => none

def decodeRecord (data : Bytes) (out : Record) : Bool × Record :=
  match parseRecord data with
  | some parsed => (true, parsed)
  | none => (false, out)

theorem intentOf_eq_some_iff {b : UInt8} {what : Intent} : intentOf b = some what ↔ b = what.code := by
  rw [intentOf]
  constructor
  · intro h
    split at h
    · cases h
      assumption
    · split at h
      · cases h
        assumption
      · cases h
  · rintro rfl
    cases what <;> rfl

theorem getStr_maxFieldLen {p : Bytes} {x : Bytes × Bytes} :
    getStr maxFieldLen p = some x ↔ x.1.length ≤ maxFieldLen ∧ p = putStr x.1 ++ x.2 :=
  getStr_eq_some_iff (by decide)

theorem parseFields_eq_some_iff {what : Intent} {p : Bytes} {rec : Record} : parseFields what p = some rec ↔
    rec.what = what ∧ rec.path ≠ [] ∧ (rec.path.length ≤ maxFieldLen ∧ rec.db.length ≤ maxFieldLen ∧
      rec.table.length ≤ maxFieldLen) ∧ ∃ rest, p = putStr rec.path ++
        (putStr rec.db ++ (putStr rec.table ++ rest)) := by
  simp only [parseFields, Option.bind_eq_some_iff, getStr_maxFieldLen]
  constructor
  · rintro ⟨path, ⟨hPath, rfl⟩, db, ⟨hDb, hRest⟩, table, ⟨hTable, hRest'⟩, h⟩
    rw [hRest, hRest']
    split at h
    · cases h
    · rename_i hNe
      cases h
      exact ⟨rfl, by simpa using hNe, ⟨hPath, hDb, hTable⟩, table.2, rfl⟩
  · obtain ⟨what', path, db, table⟩ := rec
    rintro ⟨rfl, hNe, ⟨hPath, hDb, hTable⟩, rest, rfl⟩
    exact ⟨(path, _), ⟨hPath, rfl⟩, (db, _), ⟨hDb, rfl⟩, (table, rest), ⟨hTable, rfl⟩, if_neg (by simpa using hNe)⟩

theorem parseRecord_eq_some_iff {data : Bytes} {rec : Record} :
    parseRecord data = some rec ↔ rec.path ≠ [] ∧ ∃ bytes, encodeRecord rec = some bytes ∧ bytes <+: data := by
  constructor
  · intro h
    rw [parseRecord.eq_def] at h
    split at h
    · rename_i version what p
      split at h
      · rename_i hVersion
        obtain ⟨what', hWhat, h⟩ := Option.bind_eq_some_iff.mp h
        obtain ⟨rfl, hNe, ⟨hPath, hDb, hTable⟩, rest, rfl⟩ := parseFields_eq_some_iff.mp h
        refine ⟨hNe, _, if_neg (by omega), rest, ?_⟩
        rw [hVersion, intentOf_eq_some_iff.mp hWhat, cons_append, cons_append, append_assoc, append_assoc]
      · cases h
    · cases h
  · rintro ⟨hNe, bytes, hBytes, rest, rfl⟩
    rw [encodeRecord] at hBytes
    split at hBytes
    · cases hBytes
    · rename_i hShort
      cases hBytes
      rw [cons_append, cons_append, parseRecord, if_pos rfl, intentOf_eq_some_iff.mpr rfl, Option.bind_some,
        parseFields_eq_some_iff]
      exact ⟨rfl, hNe, by omega, rest, by rw [append_assoc, append_assoc]⟩

theorem ofBE_bytes (a : UInt64) : ofBE (toBE 8 a.toNat) = a.toNat := by
  rw [ofBE_toBE]
  exact Nat.mod_eq_of_lt a.toNat_lt

theorem toBE_eq_iff (a b : UInt64) : toBE 8 a.toNat = toBE 8 b.toNat ↔ a = b := by
  constructor
  · intro h
    have hNum := congrArg ofBE h
    rw [ofBE_bytes, ofBE_bytes] at hNum
    exact UInt64.toNat_inj.mp hNum
  · rintro rfl
    rfl

theorem toBE_lt_iff (a b : UInt64) : toBE 8 a.toNat < toBE 8 b.toNat ↔ a < b := by
  rw [← not_le, ← ofBE_le_ofBE_iff (by simp), ofBE_bytes, ofBE_bytes, not_le, UInt64.lt_iff_toNat_lt]

theorem cmp_encodeKey (b s b' s' : UInt64) : cmp (encodeKey b s) (encodeKey b' s') =
    (cmp (toBE 8 b.toNat) (toBE 8 b'.toNat)).then (cmp (toBE 8 s.toNat) (toBE 8 s'.toNat)) :=
  cmp_append (by simp) _ _

/-- A record reads back as it was written, anything else is refused, and the keys order by server run and number. -/
theorem pending_record_kept :
    (∀ rec : Record, rec.path ≠ [] → rec.path.length ≤ maxFieldLen → rec.db.length ≤ maxFieldLen →
      rec.table.length ≤ maxFieldLen →
      ∃ bytes, encodeRecord rec = some bytes ∧ ∀ out, decodeRecord bytes out = (true, rec)) ∧
    (∀ data out, (∃ rec bytes, decodeRecord data out = (true, rec) ∧ encodeRecord rec = some bytes ∧ bytes <+: data) ∨
      decodeRecord data out = (false, out)) ∧
    ∀ b s b' s' : UInt64, (encodeKey b s = encodeKey b' s' ↔ b = b' ∧ s = s') ∧
      (encodeKey b s < encodeKey b' s' ↔ b < b' ∨ b = b' ∧ s < s') := by
  refine ⟨fun rec hNe hPath hDb hTable => ?_, fun data out => ?_, fun b s b' s' => ⟨?_, ?_⟩⟩
  · have hSome : (encodeRecord rec).isSome := by
      rw [encodeRecord, if_neg (by omega)]
      rfl
    obtain ⟨bytes, hBytes⟩ := Option.isSome_iff_exists.mp hSome
    refine ⟨bytes, hBytes, fun out => ?_⟩
    rw [decodeRecord, parseRecord_eq_some_iff.mpr ⟨hNe, bytes, hBytes, prefix_rfl⟩]
  · rw [decodeRecord]
    cases hParse : parseRecord data with
    | none => exact .inr rfl
    | some rec =>
      obtain ⟨-, bytes, hBytes, hPre⟩ := parseRecord_eq_some_iff.mp hParse
      exact .inl ⟨rec, bytes, rfl, hBytes, hPre⟩
  · rw [← cmp_eq_eq_iff, cmp_encodeKey, Ordering.then_eq_eq, cmp_eq_eq_iff, cmp_eq_eq_iff, toBE_eq_iff, toBE_eq_iff]
  · rw [← cmp_eq_lt_iff, cmp_encodeKey, Ordering.then_eq_lt, cmp_eq_lt_iff, cmp_eq_eq_iff, cmp_eq_lt_iff, toBE_lt_iff,
      toBE_eq_iff, toBE_lt_iff]

end TideSql.DdlLogRec
