import TideSql.Lib.ByteOrder
import TideSql.Lib.Cursor
import TideSql.Handler.KeyCodec

/-!
# Index reads

The read calls of one scan over one index: `index_read_map`, `index_next`, `index_prev`, `index_first`,
`index_last`, `index_next_same` and the custom multi-range read.
-/

namespace TideSql.IndexRead
open KeyCodec SortKey Lib.ByteOrder Lib.Cursor

inductive HaError where
  | keyNotFound
  | endOfFile
  | queryInterrupted
  | other (code : Nat)
  deriving DecidableEq, Repr

inductive FindFlag where
  | keyExact
  | keyOrNext
  | keyOrPrev
  | afterKey
  | beforeKey
  | prefixAny
  | prefixLast
  | prefixLastOrPrev
  deriving DecidableEq, Repr

inductive ScanDir where
  | none
  | forward
  | backward
  deriving DecidableEq, Repr

inductive IcpResult where
  | noMatch
  | icpMatch
  | outOfRange
  deriving DecidableEq, Repr

/-- The condition `idx_cond_push` took, and the server's comparison with the end of the range. -/
structure Pushed (ι : Type) where
  cond : Row ι → Bool
  outOfRange : Row ι → Bool

/-- What is fixed while a scan lasts: the table and its index, the condition, and what the
iterators of the statement's transaction show. -/
structure Setup (ι : Type) where
  sorts : SortStrings ι
  idxParts : List (KeyPart ι)
  pkParts : List (KeyPart ι)
  hasUserPk : Bool
  isPk : Bool
  keyreadOnly : Bool
  readSet : List ι
  pushed : Option (Pushed ι)
  entries : List Bytes
  dataKeys : List Bytes
  row : Bytes → Row ι
  entries_sorted : entries.Pairwise (· < ·)
  dataKeys_sorted : dataKeys.Pairwise (· < ·)

inductive Phase where
  | check
  | read
  deriving DecidableEq, Repr

structure MrrEntry where
  compKey : Bytes
  ptr : Nat
  deriving DecidableEq, Repr

structure Env where
  killed : Bool
  killedAt : Bytes → Bool
  iterError : Option Nat
  fetchError : Phase → Bytes → Option Nat
  /-- Where `tidesdb_iter_key_value` fails. -/
  readFails : Bytes → Bool
  /-- `std::sort` by the comparable keys, which leaves open in what order entries with equal ones come. -/
  sortEntries : List MrrEntry → List MrrEntry

structure Record (ι : Type) where
  buf : Row ι
  currentPk : Bytes

structure Scan (ι : Type) where
  scanIter : Option (Option Bytes)
  scanDir : ScanDir
  idxSearchComp : Bytes
  idxPkExactDone : Bool
  pkPartialExactActive : Bool
  mrrEntries : List MrrEntry
  mrrNoAssoc : Bool
  rangeInfo : Nat
  record : Record ι
  last : Option Bytes
  result : Option HaError

def keyNsData : UInt8 := 1
def keyInfHiByte : UInt8 := 0xFF
def hiddenPkSize : Nat := 8

def isDataKey (key : Bytes) : Bool := key.head? == some keyNsData

namespace Setup

variable {ι : Type} (T : Setup ι)

def idxColLen : Nat := comparableKeyLength T.idxParts

def pkKeyLen : Nat := if T.hasUserPk then comparableKeyLength T.pkParts else hiddenPkSize

def scanKeys : List Bytes := if T.isPk then T.dataKeys else T.entries

def visible (pk : Bytes) : Option (Row ι) := if keyNsData :: pk ∈ T.dataKeys then some (T.row pk) else none

end Setup

section Check

variable {ι : Type} [DecidableEq ι] (T : Setup ι) (env : Env)

def fetchRowByPk (phase : Phase) (pk : Bytes) (rcd : Record ι) : Option HaError × Record ι :=
  match env.fetchError phase pk with
  | some code => (some (.other code), rcd)
  | none =>
    match T.visible pk with
    | none => (some .keyNotFound, rcd)
    | some r => (none, ⟨r, pk⟩)

def tryKeyreadFromIndex (ik : Bytes) (rcd : Record ι) : Bool × Record ι :=
  if ¬T.hasUserPk then (false, rcd)
  else if ¬∀ c ∈ T.readSet, c ∈ (T.idxParts ++ T.pkParts).map KeyPart.col then (false, rcd)
  else
    match keyreadDecodeKeyParts (fun c => decide (c ∈ T.readSet)) T.idxParts ik rcd.buf with
    | (false, buf) => (false, { rcd with buf := buf })
    | (true, buf) =>
      match keyreadDecodeKeyParts (fun c => decide (c ∈ T.readSet)) T.pkParts (ik.drop T.idxColLen) buf with
      | (false, buf') => (false, { rcd with buf := buf' })
      | (true, buf') => (true, ⟨buf', ik.drop T.idxColLen⟩)

def indexCondCheck (P : Pushed ι) (buf : Row ι) : IcpResult :=
  if P.outOfRange buf then .outOfRange else if P.cond buf then .icpMatch else .noMatch

def icpDecode (ik : Bytes) (buf : Row ι) : Bool × Row ι :=
  match icpDecodeKeyParts T.idxParts ik buf with
  | (true, buf') => if T.hasUserPk then icpDecodeKeyParts T.pkParts (ik.drop T.idxColLen) buf' else (true, buf')
  | (false, buf') => (false, buf')

def icpCheckSecondary (ik : Bytes) (rcd : Record ι) : IcpResult × Record ι :=
  match T.pushed with
  | none => (.icpMatch, rcd)
  | some P =>
    match icpDecode T ik rcd.buf with
    | (true, buf) => (indexCondCheck P buf, { rcd with buf := buf })
    | (false, buf) =>
      if T.idxColLen < ik.length then
        match fetchRowByPk T env .check (ik.drop T.idxColLen) { rcd with buf := buf } with
        | (none, rcd') => (indexCondCheck P rcd'.buf, rcd')
        | (some _, rcd') => (.icpMatch, rcd')
      else (.icpMatch, { rcd with buf := buf })

def materialize (ik : Bytes) (rcd : Record ι) : Option HaError × Record ι :=
  match if T.keyreadOnly then tryKeyreadFromIndex T ik rcd else (false, rcd) with
  | (true, rcd') => (none, rcd')
  | (false, rcd') => fetchRowByPk T env .read (ik.drop T.idxColLen) rcd'

def verdictOf (res : Option HaError × Record ι) : Verdict HaError × Record ι :=
  match res with
  | (none, rcd) => (.found, rcd)
  | (some .keyNotFound, rcd) => (.skip, rcd)
  | (some err, rcd) => (.stop err, rcd)

/-- The body of the four loops that check the condition; `early` is how the loop ends before that. -/
def visitEntry (early : Bytes → Option HaError) (rcd : Record ι) (ik : Bytes) : Verdict HaError × Record ι :=
  match early ik with
  | some err => (.stop err, rcd)
  | none =>
    match icpCheckSecondary T env ik rcd with
    | (.noMatch, rcd') => (.skip, rcd')
    | (.outOfRange, rcd') => (.stop .endOfFile, rcd')
    | (.icpMatch, rcd') =>
      if env.killedAt ik then (.stop .queryInterrupted, rcd') else verdictOf (materialize T env ik rcd')

def tooShort (err : HaError) (ik : Bytes) : Option HaError := if ik.length ≤ T.idxColLen then some err else none

def visitLast (rcd : Record ι) (ik : Bytes) : Verdict HaError × Record ι :=
  match tooShort T .endOfFile ik with
  | some err => (.stop err, rcd)
  | none => verdictOf (fetchRowByPk T env .read (ik.drop T.idxColLen) rcd)

def visitData (fails : Bytes → Bool) (rcd : Record ι) (key : Bytes) : Verdict HaError × Record ι :=
  if fails key then (.stop .endOfFile, rcd)
  else if isDataKey key then (.found, ⟨T.row (key.drop 1), key.drop 1⟩)
  else (.skip, rcd)

end Check

section Calls

variable {ι : Type} [DecidableEq ι] (T : Setup ι) (env : Env)

def Scan.fail (s : Scan ι) (err : HaError) : Scan ι := { s with last := none, result := some err }

/-- The end of a loop. `found` and `error` are the directions noted with a row and with an error of
its fetch. -/
def Scan.finish (s : Scan ι) (exhausted : HaError) (found error : ScanDir) : Ending Bytes HaError × Record ι → Scan ι
  | (.exhausted, rcd) => { s with scanIter := some none, record := rcd }.fail exhausted
  | (.stopped k (.other code), rcd) =>
    { s with scanIter := some (some k), record := rcd, scanDir := error }.fail (.other code)
  | (.stopped k err, rcd) => { s with scanIter := some (some k), record := rcd }.fail err
  | (.found k, rcd) =>
    { s with scanIter := some (some k), record := rcd, scanDir := found, last := some k, result := none }

def ensureScanIter (s : Scan ι) : Except HaError (Scan ι) :=
  match s.scanIter, env.iterError with
  | none, some code => .error (.other code)
  | none, none => .ok { s with scanIter := some none }
  | some _, _ => .ok s

def Scan.pos (s : Scan ι) : Option Bytes := s.scanIter.join

def Scan.iterNext (s : Scan ι) : Scan ι := { s with scanIter := some (s.pos.bind (next T.scanKeys)) }

def Scan.iterPrev (s : Scan ι) : Scan ι := { s with scanIter := some (s.pos.bind (prev T.scanKeys)) }

def FindFlag.isBackward : FindFlag → Bool
  | .keyOrPrev | .beforeKey | .prefixLast | .prefixLastOrPrev => true
  | .keyExact | .keyOrNext | .afterKey | .prefixAny => false

def upperBound (comp : Bytes) : Bytes := comp ++ List.replicate T.pkKeyLen keyInfHiByte

def indexSeekSecondary (comp : Bytes) : FindFlag → Option Bytes
  | .keyExact | .keyOrNext | .prefixAny => seek T.entries comp
  | .afterKey =>
    match seek T.entries (upperBound T comp) with
    | none => none
    | some ik => if comp <+: ik then next T.entries ik else some ik
  | .keyOrPrev | .beforeKey | .prefixLast | .prefixLastOrPrev => seekForPrev T.entries (upperBound T comp)

def exactOrShort (comp : Bytes) (flag : FindFlag) (ik : Bytes) : Option HaError :=
  if flag = .keyExact ∧ ¬comp <+: ik then some .keyNotFound else tooShort T .keyNotFound ik

def indexReadSecondary (s : Scan ι) (comp : Bytes) (flag : FindFlag) : Scan ι :=
  match ensureScanIter env s with
  | .error err => s.fail err
  | .ok s =>
    let pos := indexSeekSecondary T comp flag
    let visit := visitEntry T env (exactOrShort T comp flag)
    if flag.isBackward then
      s.finish .keyNotFound .backward s.scanDir (walkBackward T.entries visit pos s.record)
    else s.finish .keyNotFound .forward s.scanDir (walkForward T.entries visit pos s.record)

/-- `iter_read_current`, which goes on to the next data key from wherever the iterator is. A read that fails is
answered like the end of the keys, with the iterator left where it is. -/
def iterReadCurrent (s : Scan ι) (found error : ScanDir) : Scan ι :=
  s.finish .endOfFile found error (walkForward T.dataKeys (visitData T env.readFails) s.pos s.record)

def backToDataKey (s : Scan ι) : Scan ι :=
  match (walkBackward T.dataKeys (visitData T fun _ => false) s.pos s.record).1 with
  | .found k => { s with scanIter := some (some k) }
  | _ => { s with scanIter := some none }

def indexReadPk (s : Scan ι) (comp : Bytes) (flag : FindFlag) : Scan ι :=
  if flag = .keyExact ∧ comparableKeyLength T.pkParts ≤ comp.length then
    match fetchRowByPk T env .read comp s.record with
    | (none, rcd) =>
      { s with record := rcd, idxPkExactDone := true, last := some (keyNsData :: comp), result := none }
    | (some err, rcd) => { s with record := rcd }.fail err
  else
    match ensureScanIter env s with
    | .error err => s.fail err
    | .ok s =>
      let seekKey := keyNsData :: comp
      if flag.isBackward then
        let s := { s with scanIter := some (seekForPrev T.dataKeys seekKey) }
        let s := if flag = .beforeKey ∧ s.pos = some seekKey then s.iterPrev T else s
        iterReadCurrent T env s .backward s.scanDir
      else
        let s := { s with scanIter := some (seek T.dataKeys seekKey) }
        let s := if flag = .afterKey ∧ s.pos = some seekKey then s.iterNext T else s
        let s := { s with pkPartialExactActive := decide (flag = .keyExact) }
        iterReadCurrent T env s .forward s.scanDir

def indexReadMap (s : Scan ι) (comp : Bytes) (flag : FindFlag) : Scan ι :=
  let s := { s with idxSearchComp := comp, pkPartialExactActive := false }
  if T.isPk then indexReadPk T env s comp flag else indexReadSecondary T env s comp flag

def resumePkExact (s : Scan ι) : Scan ι :=
  { s with scanIter := some (seek T.scanKeys (keyNsData :: s.record.currentPk)), idxPkExactDone := false }

def indexNext (s : Scan ι) : Scan ι :=
  if env.killed then s.fail .queryInterrupted
  else
    match ensureScanIter env s with
    | .error err => { s with idxPkExactDone := false }.fail err
    | .ok s =>
      let s :=
        if s.idxPkExactDone then (resumePkExact T s).iterNext T
        else if s.scanDir ≠ .none then s.iterNext T
        else s
      if T.isPk then
        let s := iterReadCurrent T env s s.scanDir s.scanDir
        -- the rest of a partial exact read has to keep to its prefix
        if s.result = none ∧ s.pkPartialExactActive ∧ s.idxSearchComp ≠ [] ∧
            ¬s.idxSearchComp <+: s.record.currentPk then s.fail .endOfFile
        else { s with scanDir := .forward }
      else
        s.finish .endOfFile .forward .forward
          (walkForward T.entries (visitEntry T env (tooShort T .endOfFile)) s.pos s.record)

def indexPrev (s : Scan ι) : Scan ι :=
  if env.killed then s.fail .queryInterrupted
  else
    match ensureScanIter env s with
    | .error err => { s with idxPkExactDone := false }.fail err
    | .ok s =>
      let s := (if s.idxPkExactDone then resumePkExact T s else s).iterPrev T
      if T.isPk then
        let s := { backToDataKey T s with scanDir := .backward }
        iterReadCurrent T env s .backward .backward
      else
        s.finish .endOfFile .backward .backward
          (walkBackward T.entries (visitEntry T env (tooShort T .endOfFile)) s.pos s.record)

def indexFirst (s : Scan ι) : Scan ι :=
  match ensureScanIter env { s with idxPkExactDone := false } with
  | .error err => { s with idxPkExactDone := false }.fail err
  | .ok s =>
    if T.isPk then
      iterReadCurrent T env { s with scanIter := some (seek T.dataKeys [keyNsData]) } .forward s.scanDir
    else indexNext T env { s with scanIter := some T.entries.head?, scanDir := .none }

def indexLast (s : Scan ι) : Scan ι :=
  match ensureScanIter env { s with idxPkExactDone := false } with
  | .error err => { s with idxPkExactDone := false }.fail err
  | .ok s =>
    if T.isPk then
      let sentinel := keyNsData :: List.replicate T.pkKeyLen keyInfHiByte
      let s :=
        { backToDataKey T { s with scanIter := some (seekForPrev T.dataKeys sentinel) } with scanDir := .backward }
      iterReadCurrent T env s .backward .backward
    else
      let sentinel := List.replicate (T.idxColLen + T.pkKeyLen) keyInfHiByte
      s.finish .endOfFile .backward s.scanDir
        (walkBackward T.entries (visitLast T env) (seekForPrev T.entries sentinel) s.record)

def sameOrShort (s : Scan ι) (ik : Bytes) : Option HaError :=
  if ¬s.idxSearchComp <+: ik then some .endOfFile else tooShort T .endOfFile ik

def indexNextSame (s : Scan ι) : Scan ι :=
  if env.killed then s.fail .queryInterrupted
  else if T.isPk ∧ comparableKeyLength T.pkParts ≤ s.idxSearchComp.length then s.fail .endOfFile
  else if s.scanIter = none then s.fail .endOfFile
  else
    let s := s.iterNext T
    if T.isPk then
      match s.pos with
      | none => s.fail .endOfFile
      | some ik =>
        if s.idxSearchComp <+: ik.drop 1 then iterReadCurrent T env s .forward s.scanDir else s.fail .endOfFile
    else
      s.finish .endOfFile s.scanDir s.scanDir
        (walkForward T.entries (visitEntry T env (sameOrShort T s)) s.pos s.record)

def multiRangeReadInit (s : Scan ι) (ranges : List MrrEntry) (noAssoc : Bool) : Scan ι :=
  { s with mrrEntries := env.sortEntries ranges, mrrNoAssoc := noAssoc, last := none, result := none }

def mrrPoint (s : Scan ι) (comp : Bytes) : Scan ι × Option (Option HaError) :=
  if T.isPk then
    match fetchRowByPk T env .read comp s.record with
    | (some .keyNotFound, rcd) => ({ s with record := rcd }, none)
    | (some err, rcd) => ({ s with record := rcd }, some (some err))
    | (none, rcd) => ({ s with record := rcd, last := some (keyNsData :: comp) }, some none)
  else
    match ensureScanIter env s with
    | .error err => (s, some (some err))
    | .ok s =>
      let s := { s with scanIter := some (seek T.entries comp) }
      match s.pos with
      | none => (s, none)
      | some ik =>
        if ¬comp <+: ik ∨ ik.length ≤ T.idxColLen then (s, none)
        else
          match materialize T env ik s.record with
          | (some .keyNotFound, rcd) => ({ s with record := rcd }, none)
          | (some err, rcd) => ({ s with record := rcd }, some (some err))
          | (none, rcd) => ({ s with record := rcd, last := some ik }, some none)

def mrrLoop : List MrrEntry → Scan ι → Scan ι
  | [], s => { s with mrrEntries := [] }.fail .endOfFile
  | e :: rest, s =>
    match mrrPoint T env { s with rangeInfo := if s.mrrNoAssoc then s.rangeInfo else e.ptr } e.compKey with
    | (s, none) => mrrLoop rest s
    | (s, some none) => { s with mrrEntries := rest, result := none }
    | (s, some (some err)) => { s with mrrEntries := rest }.fail err

def multiRangeReadNext (s : Scan ι) : Scan ι :=
  if env.killed then s.fail .queryInterrupted else mrrLoop T env s.mrrEntries s

end Calls

inductive Call where
  | readMap (comp : Bytes) (flag : FindFlag)
  | next
  | prev
  | first
  | last
  | nextSame
  | mrrInit (ranges : List MrrEntry) (noAssoc : Bool)
  | mrrNext
  deriving DecidableEq, Repr

def call {ι : Type} [DecidableEq ι] (T : Setup ι) (env : Env) (s : Scan ι) : Call → Scan ι
  | .readMap comp flag => indexReadMap T env s comp flag
  | .next => indexNext T env s
  | .prev => indexPrev T env s
  | .first => indexFirst T env s
  | .last => indexLast T env s
  | .nextSame => indexNextSame T env s
  | .mrrInit ranges noAssoc => multiRangeReadInit env s ranges noAssoc
  | .mrrNext => multiRangeReadNext T env s

end TideSql.IndexRead
