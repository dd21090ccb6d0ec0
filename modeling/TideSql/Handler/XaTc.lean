import Mathlib.Data.List.TakeDrop
import TideSql.Handler.XidKey

/-!
# The coordinator's record of a prepared transaction

The value stored under an XID lists the tables that the transaction wrote to.
-/

namespace TideSql.XaTc
open Lib.Bytes XidKey List

abbrev Bytes := List UInt8

abbrev Names := Bytes × Bytes

def tdbXaTcFormatVersion : UInt8 := 1
def tdbXaTcMaxName : Nat := 4096

def putNames (x : Names) : Bytes := putStr x.1 ++ putStr x.2

def tdbXaTcEncode (tables : List Names) : Bytes :=
  tdbXaTcFormatVersion :: (toBE 4 tables.length ++ tables.flatMap putNames)

def getNames (p : Bytes) : Option (Names × Bytes) :=
  (getStr tdbXaTcMaxName p).bind fun db => (getStr tdbXaTcMaxName db.2).map fun table => ((db.1, table.1), table.2)

/-- The loop with its count: whether the record is well formed, and `out` when it returns. -/
def decodeLoop : Nat → Bytes → List Names → Bool × List Names
  | 0, _, out => (true, out)
  | n + 1, p, out =>
    match getNames p with
    | none => (false, out)
    | some r => decodeLoop n r.2 (out ++ [r.1])

def tdbXaTcDecode : Bytes → Bool × List Names
  | [] => (false, [])
  | version :: p =>
    if p.length < 4 ∨ version ≠ tdbXaTcFormatVersion then (false, []) else decodeLoop (ofBE (p.take 4)) (p.drop 4) []

/-- The XIDs reported from the family of markers, with the tables that are then attached to them; a value may be
unreadable. -/
def tidesdbRecoverPreparedInTc (records : List (Key × Option Bytes)) : List (Xid × List Names) :=
  records.filterMap fun r => (tdbXidFromKey r.1).map fun xid => (xid, (r.2.map fun v => (tdbXaTcDecode v).2).getD [])

def Short (x : Names) : Prop := x.1.length ≤ tdbXaTcMaxName ∧ x.2.length ≤ tdbXaTcMaxName

section Loop

theorem getNames_eq_some_iff {p : Bytes} {r : Names × Bytes} :
    getNames p = some r ↔ Short r.1 ∧ p = putNames r.1 ++ r.2 := by
  have hGet {q : Bytes} {x : Bytes × Bytes} :
      getStr tdbXaTcMaxName q = some x ↔ x.1.length ≤ tdbXaTcMaxName ∧ q = putStr x.1 ++ x.2 :=
    getStr_eq_some_iff (by decide)
  simp only [getNames, Option.bind_eq_some_iff, Option.map_eq_some_iff, hGet, putNames, append_assoc]
  constructor
  · rintro ⟨db, ⟨hDb, rfl⟩, table, ⟨hTable, hRest⟩, rfl⟩
    exact ⟨⟨hDb, hTable⟩, by rw [hRest]⟩
  · rintro ⟨⟨hDb, hTable⟩, rfl⟩
    exact ⟨(r.1.1, putStr r.1.2 ++ r.2), ⟨hDb, rfl⟩, (r.1.2, r.2), ⟨hTable, rfl⟩, rfl⟩

theorem decodeLoop_putNames {tables : List Names} (h : ∀ x ∈ tables, Short x) {n : Nat} (hn : n ≤ tables.length)
    (out : List Names) : decodeLoop n (tables.flatMap putNames) out = (true, out ++ tables.take n) := by
  induction n generalizing tables out with
  | zero => rw [decodeLoop, take_zero, append_nil]
  | succ n ih =>
    cases tables with
    | nil => cases hn
    | cons x tables =>
      obtain ⟨hx, hTables⟩ := forall_mem_cons.mp h
      have hNames : getNames ((x :: tables).flatMap putNames) = some (x, tables.flatMap putNames) :=
        getNames_eq_some_iff.mpr ⟨hx, flatMap_cons⟩
      rw [decodeLoop, hNames]
      dsimp only
      rw [ih hTables (Nat.le_of_succ_le_succ hn), take_succ_cons, append_assoc, singleton_append]

theorem out_prefix_decodeLoop (n : Nat) (p : Bytes) (out : List Names) : out <+: (decodeLoop n p out).2 := by
  induction n generalizing p out with
  | zero => exact prefix_rfl
  | succ n ih =>
    rw [decodeLoop]
    split
    · exact prefix_rfl
    · exact ( prefix_append ..).trans (ih ..)

theorem decodeLoop_rejects_iff (n : Nat) (p : Bytes) :
    decodeLoop n p [] = (false, []) ↔ n ≠ 0 ∧ getNames p = none := by
  cases n with
  | zero => simp [decodeLoop]
  | succ n =>
    rw [decodeLoop]
    cases hNames : getNames p with
    | none => simp
    | some r =>
      refine iff_of_false (fun h => ?_) (by simp)
      have hKept := out_prefix_decodeLoop n r.2 [r.1]
      rw [show decodeLoop n r.2 [r.1] = (false, []) from h, prefix_nil] at hKept
      cases hKept

end Loop

/-- The bytes begin with the format and a count that is zero, or that a whole pair of names follows. -/
def Begun (data : Bytes) : Prop :=
  ∃ count rest, count < 2 ^ 32 ∧ data = tdbXaTcFormatVersion :: (toBE 4 count ++ rest) ∧
    (count = 0 ∨ ∃ x rest', Short x ∧ rest = putNames x ++ rest')

theorem begun_cons_iff {version : UInt8} {p : Bytes} (hLen : 4 ≤ p.length) : Begun (version :: p) ↔
    version = tdbXaTcFormatVersion ∧ (ofBE (p.take 4) = 0 ∨ getNames (p.drop 4) ≠ none) := by
  rw [Option.ne_none_iff_exists']
  constructor
  · rintro ⟨count, rest, hCount, hData, hRest⟩
    obtain ⟨rfl, rfl⟩ := cons.inj hData
    rw [take_left' (length_toBE ..), drop_left' (length_toBE ..), ofBE_toBE,
      Nat.mod_eq_of_lt (show count < 256 ^ 4 from hCount)]
    exact ⟨rfl, hRest.imp_right fun ⟨x, rest', hx, hEq⟩ => ⟨(x, rest'), getNames_eq_some_iff.mpr ⟨hx, hEq⟩⟩⟩
  · rintro ⟨rfl, hRest⟩
    have hFour : (p.take 4).length = 4 := by rw [length_take, Nat.min_eq_left hLen]
    have hNum : toBE 4 (ofBE (p.take 4)) = p.take 4 := toBE_ofBE_of_length hFour
    have hLt := ofBE_lt (p.take 4)
    rw [hFour] at hLt
    refine ⟨ofBE (p.take 4), p.drop 4, hLt, by rw [hNum, take_append_drop], hRest.imp_right ?_⟩
    rintro ⟨r, hr⟩
    obtain ⟨hx, hEq⟩ := getNames_eq_some_iff.mp hr
    exact ⟨r.1, r.2, hx, hEq⟩

theorem rejects_iff (data : Bytes) : tdbXaTcDecode data = (false, []) ↔ ¬Begun data := by
  cases data with
  | nil => exact iff_of_true rfl fun ⟨_, _, _, h, _⟩ => absurd h (by simp)
  | cons version p =>
    rw [tdbXaTcDecode]
    split
    · rename_i hHead
      refine iff_of_true rfl fun hBegun => ?_
      have hLen : 4 ≤ p.length := by
        obtain ⟨count, rest, -, hData, -⟩ := hBegun
        rw [(cons.inj hData).2, length_append, length_toBE]
        omega
      exact hHead.elim (Nat.not_lt.mpr hLen) fun hNe => hNe ((begun_cons_iff hLen).mp hBegun).1
    · rename_i hHead
      obtain ⟨hLen, hVersion⟩ := not_or.mp hHead
      rw [decodeLoop_rejects_iff, begun_cons_iff (Nat.le_of_not_lt hLen), not_not.mp hVersion]
      simp

theorem decode_encode {tables : List Names} (h : ∀ x ∈ tables, Short x) :
    tdbXaTcDecode (tdbXaTcEncode tables) = (true, tables.take (tables.length % 2 ^ 32)) := by
  rw [tdbXaTcEncode, tdbXaTcDecode, if_neg (by simp), take_left' (length_toBE ..), drop_left' (length_toBE ..),
    ofBE_toBE]
  exact decodeLoop_putNames h (Nat.mod_le ..) []

/-- The record reads back exactly when the number of tables fits in its field, and what is no record is refused exactly
when its first bytes do not begin one. -/
theorem coordinator_record_iff (tables : List Names) (data : Bytes) :
    ((∀ x ∈ tables, Short x) → (tdbXaTcDecode (tdbXaTcEncode tables) = (true, tables) ↔ tables.length < 2 ^ 32)) ∧
    ((∀ tables, (∀ x ∈ tables, Short x) → data ≠ tdbXaTcEncode tables) →
      (((tdbXaTcDecode data).1 = false ∧ ∀ before xid after,
          tidesdbRecoverPreparedInTc (before ++ (tdbXidKey xid, some data) :: after) =
            tidesdbRecoverPreparedInTc before ++ (xid, []) :: tidesdbRecoverPreparedInTc after) ↔ ¬Begun data)) := by
  refine ⟨fun h => ?_, fun _ => ?_⟩
  · have hPos : 0 < 2 ^ 32 := by decide
    rw [decode_encode h, Prod.mk.injEq, eq_self_iff_true, true_and, take_eq_self_iff]
    exact ⟨fun hLe => hLe.trans_lt (Nat.mod_lt _ hPos), fun hLt => (Nat.mod_eq_of_lt hLt).ge⟩
  have hRecover (before : List (Key × Option Bytes)) (xid : Xid) (after : List (Key × Option Bytes)) :
      tidesdbRecoverPreparedInTc (before ++ (tdbXidKey xid, some data) :: after) =
        tidesdbRecoverPreparedInTc before ++ (xid, (tdbXaTcDecode data).2) :: tidesdbRecoverPreparedInTc after := by
    simp [tidesdbRecoverPreparedInTc, tdbXidFromKey_tdbXidKey]
  simp only [hRecover, ← rejects_iff, Prod.ext_iff]
  refine and_congr_right fun _ => ?_
  constructor
  · intro h
    have hOne := append_cancel_left (h [] ⟨0, [], [], by decide⟩ [])
    exact (Prod.mk.inj (cons.inj hOne).1).2
  · intro h before xid after
    rw [h]

/-- The record of two tables, cut behind the first. -/
theorem cut_record_attached : (∀ tables, (∀ x ∈ tables, Short x) →
      [1, 0, 0, 0, 2, 0, 0, 0, 1, 0x64, 0, 0, 0, 1, 0x74] ≠ tdbXaTcEncode tables) ∧
    tidesdbRecoverPreparedInTc
      [(tdbXidKey ⟨1, [7], [], by decide⟩, some [1, 0, 0, 0, 2, 0, 0, 0, 1, 0x64, 0, 0, 0, 1, 0x74])] =
        [(⟨1, [7], [], by decide⟩, [([0x64], [0x74])])] := by
  refine ⟨fun tables h hEq => ?_, by decide⟩
  have hDecode := decode_encode h
  rw [← hEq] at hDecode
  cases congrArg Prod.fst hDecode

end TideSql.XaTc
