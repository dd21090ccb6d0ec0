import TideSql.Handler.AutoIncrement
import TideSql.Handler.IndexRuns

/-!
# Generated primary keys

`write_row` does not look up a primary key it takes for generated: the hidden row id of a table without a
primary key, and an AUTO_INCREMENT value.
-/

namespace TideSql.GeneratedKeys
open KeyCodec SortKey IndexRead AutoIncrement Dml Lib Lib.ByteOrder Lib.Bytes Lib.Snapshot Lib.Run List

def hiddenPkFirstRowId : UInt64 := 1

structure AutoColumn (ι : Type) where
  field : KeyCodec.Field ι
  valInt : Bytes → Int

structure Keyed (ι β : Type) where
  table : Table ι β
  auto : Option (AutoColumn ι)

structure Share where
  autoIncVal : UInt64
  nextRowId : UInt64

def ulonglong (z : Int) : UInt64 := UInt64.ofNat (z % 2 ^ 64).toNat

section Exec

variable {ι β : Type}

def AutoColumn.number (a : AutoColumn ι) (r : Row ι) : Int := a.valInt ((r a.field.col).getD [])

/-- The loop of `get_auto_increment` as one step. -/
def getAutoIncrement (share : Share) (nbDesiredValues : UInt64) (v : Variables) : Reservation × Share :=
  (⟨share.autoIncVal + 1, nbDesiredValues, v⟩, { share with autoIncVal := share.autoIncVal + nbDesiredValues })

def bumpTo (share : Share) (val : UInt64) : Share :=
  if share.autoIncVal < val then { share with autoIncVal := val } else share

/-- What the server's `update_auto_increment` does with the field: it refuses the row, leaves what is there, or stores a
value. -/
inductive Filled where
  | refused
  | kept
  | stored (b : Bytes)

structure Request (ι : Type) where
  session : Session
  buf : Row ι
  /-- The calls of `get_auto_increment` that `update_auto_increment` makes for the row. -/
  reserves : List (UInt64 × Variables)
  filled : Filled

def reserve (share : Share) (reserves : List (UInt64 × Variables)) : Share :=
  reserves.foldl (fun share r => (getAutoIncrement share r.1 r.2).2) share

def reservedNumbers (r : Reservation) : List Nat := (range r.nbReservedValues.toNat).map (r.firstValue.toNat + ·)

/-- The numbers these calls move the counter past. -/
def handedOut : Share → List (UInt64 × Variables) → List Nat
  | _, [] => []
  | share, (nb, v) :: rest =>
    reservedNumbers (getAutoIncrement share nb v).1 ++ handedOut (getAutoIncrement share nb v).2 rest

variable [DecidableEq ι]

def Filled.row (a : AutoColumn ι) (buf : Row ι) : Filled → Option (Row ι)
  | .refused => none
  | .kept => some buf
  | .stored b => some (Function.update buf a.field.col (some b))

/-- None when the value is refused, else whether the key is taken for generated, and the record. -/
def writeRowAutoIncrement (K : Keyed ι β) (a : AutoColumn ι) (share : Share) (req : Request ι) :
    Option (Bool × Row ι) × Share :=
  -- the one part of the key may be another column
  let pkAutoGenerated := a.number req.buf == 0 && K.table.pkParts.any fun parts => parts.length == 1
  let share := reserve share req.reserves
  match req.filled.row a req.buf with
  | none => (none, share)
  | some buf => (some (pkAutoGenerated, buf), bumpTo share (ulonglong (a.number buf)))

def takeRowId (K : Keyed ι β) (share : Share) : Share :=
  if K.table.pkParts.isNone then { share with nextRowId := share.nextRowId + 1 } else share

/-- The part of `write_row` before the checks: the call that is made of the request, and the counters. -/
def prepareWrite (K : Keyed ι β) (share : Share) (req : Request ι) : Option (Call ι) × Share :=
  match K.auto with
  | none => (some (.write false share.nextRowId.toNat req.buf), takeRowId K share)
  | some a =>
    match writeRowAutoIncrement K a share req with
    | (none, share) => (none, share)
    | (some (gen, buf), share) => (some (.write gen share.nextRowId.toNat buf), takeRowId K share)

def lastKey (keys : List Bytes) : Option Bytes := (keys.insertionSort (· ≤ ·)).getLast?

def dataKeys (s : Store Key (Val ι)) : List Bytes := s.names.filterMap fun k => if k.1 = .data then some k.2 else none

def autoIncIsPkLeftmost (K : Keyed ι β) (a : AutoColumn ι) : Bool :=
  match K.table.pkParts with
  | some (p :: _) => p.field.col = a.field.col
  | _ => false

def autoIncKey (K : Keyed ι β) (a : AutoColumn ι) : Option Nat :=
  K.table.indexes.findIdx? fun x =>
    match x with
    | .regular _ (p :: _) => p.field.col = a.field.col
    | _ => false

def recoverAutoIncSecondary (K : Keyed ι β) (s : Store Key (Val ι)) (a : AutoColumn ι) (share : Share) : Share :=
  if K.table.pkParts.isNone || share.autoIncVal ≠ 0 || autoIncIsPkLeftmost K a then share
  else
    match (autoIncKey K a).bind fun i => lastKey (familyKeys s i) with
    | none => share
    | some key =>
      if a.field.packLength ≤ key.length then
        match decodePart a.field.sortDesc (key.take a.field.packLength) with
        | some b => { share with autoIncVal := ulonglong (a.valInt b) }
        | none => share
      else share

def applyAutoIncStartMeta (start : Option UInt64) (share : Share) : Share :=
  match start with
  | none => share
  | some start =>
    if start > 1 ∧ start - 1 > share.autoIncVal then { share with autoIncVal := start - 1 } else share

def seedCounters (K : Keyed ι β) (s : Store Key (Val ι)) (share : Share) : Share :=
  match lastKey (dataKeys s) with
  | none => share
  | some key =>
    if isDataKey key then
      let share := if K.table.pkParts.isNone ∧ key.length = 1 + hiddenPkSize then
          { share with nextRowId := UInt64.ofNat (ofBE (key.drop 1)) + 1 }
        else share
      match K.auto, s.get (.data, key) with
      | some a, some (.row r) =>
        if autoIncIsPkLeftmost K a then { share with autoIncVal := ulonglong (a.number r) } else share
      | _, _ => share
    else share

def recoverCounters (K : Keyed ι β) (s : Store Key (Val ι)) (start : Option UInt64) : Share :=
  let share := seedCounters K s ⟨0, 0⟩
  let share := if K.table.pkParts.isNone ∧ share.nextRowId = 0 then
      { share with nextRowId := hiddenPkFirstRowId }
    else share
  match K.auto with
  | none => share
  | some a => applyAutoIncStartMeta start (recoverAutoIncSecondary K s a share)

/-- Which calls of the library succeed while a table is opened. -/
structure Reads where
  txnBegin : Bool
  iterKey : Bool
  iterValue : Bool
  indexKey : Bool
  startMeta : Bool

def Reads.allOk : Reads := ⟨true, true, true, true, true⟩

/-- `recover_counters` goes on past a read that fails, with the counter as it is. -/
def openCounters (f : Reads) (K : Keyed ι β) (s : Store Key (Val ι)) (start : Option UInt64) : Share :=
  if !f.txnBegin then ⟨0, 0⟩
  else
    let share := if !f.iterKey then ⟨0, 0⟩ else
      seedCounters (if f.iterValue then K else { K with auto := none }) s ⟨0, 0⟩
    let share := if K.table.pkParts.isNone ∧ share.nextRowId = 0 then
        { share with nextRowId := hiddenPkFirstRowId }
      else share
    match K.auto with
    | none => share
    | some a =>
      let share := if f.indexKey then recoverAutoIncSecondary K s a share else share
      if f.startMeta then applyAutoIncStartMeta start share else share

end Exec

section System

variable {τ ι β : Type} [DecidableEq τ] [DecidableEq ι]

structure State (τ ι : Type) where
  world : World τ Key (Val ι)
  share : Share
  /-- The numbers the counter was moved past for a session that has put no row with them yet. The source does not keep
  them: the server's intervals are made of them. -/
  handed : τ → List Nat
  start : Option UInt64

inductive Action (τ ι : Type) where
  | start (i : τ)
  | insert (i : τ) (req : Request ι)
  | update (i : τ) (s : Session) (currentPk : Bytes) (oldData newData : Row ι) (writeSet : ι → Bool)
  | delete (i : τ) (s : Session) (currentPk : Bytes) (buf : Row ι)
  | undo (i : τ) (n : Nat)
  | commit (i : τ)
  | abort (i : τ)
  | release (i : τ)
  | restart (f : Reads)
  | alter (autoIncrementValue : UInt64) (metaWritten : Bool)
  | resetAutoIncrement (value : UInt64) (metaWritten : Bool)

def State.lift (s : State τ ι) (w : Option (World τ Key (Val ι))) : Option (State τ ι) :=
  w.map fun w => { s with world := w }

def writeAutoIncMeta (s : State τ ι) (n : UInt64) (metaWritten : Bool) : State τ ι :=
  if n > 1 ∧ metaWritten = true then { s with start := some n } else s

def commitApplyRuntimeConfig (s : State τ ι) (n : UInt64) (metaWritten : Bool) : State τ ι :=
  if n > 1 then
    writeAutoIncMeta { s with
      share := if n - 1 > s.share.autoIncVal then { s.share with autoIncVal := n - 1 } else s.share } n metaWritten
  else s

def resetAutoIncrement (s : State τ ι) (value : UInt64) (metaWritten : Bool) : State τ ι :=
  writeAutoIncMeta { s with
    share := ⟨if value > 0 then value - 1 else 0, if value > 0 then value else hiddenPkFirstRowId⟩ } value metaWritten

def accepts (K : Keyed ι β) (w : World τ Key (Val ι)) (i : τ) (s : Session) (c : Call ι) : Bool :=
  match w.active i with
  | none => false
  | some t => (rowCall K.table s t.view c).toBool

/-- The numbers of a session that are left once a row is put. -/
def unused (K : Keyed ι β) (ns : List Nat) : Call ι → List Nat
  | .write _ _ buf =>
    match K.auto with
    | none => ns
    | some a => ns.filter fun n => (n : Int) ≠ a.number buf
  | _ => ns

def handedTo (K : Keyed ι β) (s : State τ ι) (i : τ) (req : Request ι) : List Nat :=
  s.handed i ++ if K.auto.isSome then handedOut s.share req.reserves else []

def step (K : Keyed ι β) (s : State τ ι) : Action τ ι → Option (State τ ι)
  | .start i => s.lift (Dml.step K.table s.world (.start i))
  | .insert i req =>
    let p := prepareWrite K s.share req
    let ns := handedTo K s i req
    match p.1 with
    | none => some { s with share := p.2, handed := Function.update s.handed i ns }
    | some c =>
      let ns := if accepts K s.world i req.session c then unused K ns c else ns
      State.lift { s with share := p.2, handed := Function.update s.handed i ns }
        (Dml.step K.table s.world (.row i req.session c))
  | .update i ses currentPk old new ws => s.lift (Dml.step K.table s.world (.row i ses (.update currentPk old new ws)))
  | .delete i ses currentPk buf => s.lift (Dml.step K.table s.world (.row i ses (.delete currentPk buf)))
  | .undo i n => s.lift (Dml.step K.table s.world (.undo i n))
  | .commit i => s.lift (Dml.step K.table s.world (.commit i))
  | .abort i => s.lift (Dml.step K.table s.world (.abort i))
  | .release i => some { s with handed := Function.update s.handed i [] }
  | .restart f =>
    some { s with
      world := { s.world with active := fun _ => none }
      share := openCounters f K s.world.committed s.start
      handed := fun _ => [] }
  | .alter n metaWritten => some (commitApplyRuntimeConfig s n metaWritten)
  | .resetAutoIncrement value metaWritten => some (GeneratedKeys.resetAutoIncrement s value metaWritten)

def init (K : Keyed ι β) (start : Option UInt64) : State τ ι :=
  ⟨Snapshot.init Store.empty, recoverCounters K Store.empty start, fun _ => [], start⟩

end System

section Counting

variable {ι β : Type}

theorem toNat_ulonglong (z : Int) : ((ulonglong z).toNat : Int) = z % 2 ^ 64 := by
  have hNonneg : 0 ≤ z % 2 ^ 64 := Int.emod_nonneg z (by decide)
  have hLt : z % 2 ^ 64 < 2 ^ 64 := Int.emod_lt_of_pos z (by decide)
  have hFits : (z % 2 ^ 64).toNat < 2 ^ 64 := by omega
  rw [ulonglong, UInt64.toNat_ofNat_of_lt' hFits]
  omega

theorem le_ulonglong {z : Int} (h : z < 2 ^ 64) : z ≤ (ulonglong z).toNat := by
  rw [toNat_ulonglong]
  omega

theorem le_bumpTo (share : Share) (val : UInt64) : share.autoIncVal.toNat ≤ (bumpTo share val).autoIncVal.toNat ∧
    val.toNat ≤ (bumpTo share val).autoIncVal.toNat := by
  rw [bumpTo]
  split
  · rename_i hLt
    exact ⟨Nat.le_of_lt (UInt64.lt_iff_toNat_lt.mp hLt), Nat.le_refl _⟩
  · rename_i hLe
    exact ⟨Nat.le_refl _, UInt64.le_iff_toNat_le.mp (UInt64.not_lt.mp hLe)⟩

def desired (reserves : List (UInt64 × Variables)) : Nat := (reserves.map fun r => r.1.toNat).sum

theorem reserve_spec {share : Share} {reserves : List (UInt64 × Variables)}
    (hFits : share.autoIncVal.toNat + desired reserves < 2 ^ 64) :
    (reserve share reserves).autoIncVal.toNat = share.autoIncVal.toNat + desired reserves ∧
      ∀ n ∈ handedOut share reserves, share.autoIncVal.toNat < n ∧ n ≤ share.autoIncVal.toNat + desired reserves := by
  induction reserves generalizing share with
  | nil => exact ⟨rfl, fun n hn => by cases hn⟩
  | cons r rest ih =>
    obtain ⟨nb, v⟩ := r
    have hDesired : desired ((nb, v) :: rest) = nb.toNat + desired rest := sum_cons
    have hNext : (getAutoIncrement share nb v).2.autoIncVal.toNat = share.autoIncVal.toNat + nb.toNat := by
      rw [getAutoIncrement, UInt64.toNat_add, Nat.mod_eq_of_lt (by omega)]
    obtain ⟨hCounter, hMem⟩ := @ih (getAutoIncrement share nb v).2 (by omega)
    refine ⟨?_, fun n hn => ?_⟩
    · rw [reserve, foldl_cons]
      exact hCounter.trans (by omega)
    · obtain hFirst | hRest := mem_append.mp hn
      · obtain ⟨k, hk, rfl⟩ := mem_map.mp hFirst
        have hLt : k < nb.toNat := mem_range.mp hk
        have hValue : (share.autoIncVal + 1).toNat = share.autoIncVal.toNat + 1 := by
          rw [UInt64.toNat_add, UInt64.toNat_one, Nat.mod_eq_of_lt (by omega)]
        simp only [getAutoIncrement, hValue]
        omega
      · have hIn := hMem n hRest
        omega

theorem nextRowId_reserve (share : Share) (reserves : List (UInt64 × Variables)) :
    (reserve share reserves).nextRowId = share.nextRowId := by
  induction reserves generalizing share with
  | nil => rfl
  | cons r rest ih => exact ih (getAutoIncrement share r.1 r.2).2

theorem nextRowId_bumpTo (share : Share) (val : UInt64) : (bumpTo share val).nextRowId = share.nextRowId := by
  rw [bumpTo]
  split <;> rfl

end Counting

section Rows

variable {τ ι β : Type} {T : Table ι β}

def newRow (T : Table ι β) : Call ι → Option (Bytes × Row ι)
  | .write _ rowId buf => some (writeBuildPk T rowId buf, buf)
  | .update currentPk _ new _ => some (pkFromRecord T currentPk new, new)
  | .delete _ _ => none

def Rows (P : Bytes → Row ι → Prop) (w : World τ Key (Val ι)) : Prop :=
  ∀ key v, w.Holds (.data, key) v → ∃ pk r, key = keyNsData :: pk ∧ v = .row r ∧ P pk r

theorem Rows.imp {P Q : Bytes → Row ι → Prop} {w : World τ Key (Val ι)} (h : Rows P w)
    (hImp : ∀ pk r, P pk r → Q pk r) :
    Rows Q w := by
  intro key v hHolds
  obtain ⟨pk, r, hKey, hv, hP⟩ := h key v hHolds
  exact ⟨pk, r, hKey, hv, hImp pk r hP⟩

theorem Rows.of_view {P : Bytes → Row ι → Prop} {w : World τ Key (Val ι)} (h : Rows P w) {i : τ} {t : Txn Key (Val ι)}
    (ht : w.active i = some t) {pk : Bytes} {v : Val ι} (hGet : t.view.get (dataKey pk) = some v) :
    ∃ r, v = .row r ∧ P pk r := by
  obtain ⟨pk', r, hKey, hv, hP⟩ := h _ v (holds_of_view ht hGet)
  cases hKey
  exact ⟨r, hv, hP⟩

theorem not_data_of_mem_maintain {f : IndexShape ι → List (Op Bytes (Val ι))} {key : Bytes} {v : Val ι} :
    .put (.data, key) v ∉ maintain T f := by
  intro h
  obtain ⟨j, y, o, -, -, hEq⟩ := mem_maintain h
  cases o <;> cases hEq

theorem newRow_of_put {s : Session} {view : Store Key (Val ι)} {c : Call ι} {ops : List (Op Key (Val ι))}
    (hOk : rowCall T s view c = .ok ops) {key : Bytes} {v : Val ι} (h : .put (.data, key) v ∈ ops) :
    ∃ pk r, key = keyNsData :: pk ∧ v = .row r ∧ newRow T c = some (pk, r) := by
  cases c with
  | write gen rowId buf =>
    obtain ⟨-, -, rfl⟩ := writeRow_ok hOk
    obtain hPut | hIn := mem_cons.mp h
    · cases hPut
      exact ⟨_, _, rfl, rfl, rfl⟩
    · exact absurd hIn not_data_of_mem_maintain
  | update currentPk old new ws =>
    obtain ⟨-, rfl⟩ := updateRow_ok hOk
    obtain hIn | hIn := mem_append.mp h
    · obtain hIn | hIn := mem_append.mp hIn
      · split at hIn
        · cases mem_singleton.mp hIn
        · cases hIn
      · cases mem_singleton.mp hIn
        exact ⟨_, _, rfl, rfl, rfl⟩
    · exact absurd hIn not_data_of_mem_maintain
  | delete currentPk buf =>
    cases hOk
    obtain hDel | hIn := mem_cons.mp h
    · cases hDel
    · exact absurd hIn not_data_of_mem_maintain

theorem Rows.step [DecidableEq τ] {P : Bytes → Row ι → Prop} {w w' : World τ Key (Val ι)} {a : Dml.Action τ ι}
    (h : Rows P w) (hStep : Dml.step T w a = some w')
    (hNew : ∀ i s c t ops pk r, a = .row i s c → w.active i = some t → rowCall T s t.view c = .ok ops →
      newRow T c = some (pk, r) → P pk r) : Rows P w' := by
  intro key v hHolds
  obtain rfl | ⟨b, hb, hQuiet, -⟩ | ⟨i, s, c, t, ops, ha, ht, hOk, hWrite⟩ := step_cases hStep
  · exact h key v hHolds
  · obtain hOld | ⟨i, ops, hEq, -⟩ := holds_of_step hb hHolds
    · exact h key v hOld
    · exact absurd hEq (hQuiet i ops)
  · obtain hOld | ⟨i', ops', hEq, hPut⟩ := holds_of_step hWrite hHolds
    · exact h key v hOld
    · cases hEq
      obtain ⟨pk, r, hKey, hv, hRow⟩ := newRow_of_put hOk hPut
      exact ⟨pk, r, hKey, hv, hNew i s c t ops pk r ha ht hOk hRow⟩

end Rows

end TideSql.GeneratedKeys
