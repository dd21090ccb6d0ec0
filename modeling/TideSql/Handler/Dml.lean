import TideSql.Lib.Snapshot
import TideSql.Handler.IndexRead

/-!
# Row writes and the indexes they maintain

`write_row`, `update_row` and `delete_row` write the row into the data family of its table and its entries
into one family for each secondary index, all through the connection's library transaction.
-/

namespace TideSql.Dml
open KeyCodec SortKey IndexRead Lib Lib.ByteOrder Lib.Bytes Lib.Snapshot

inductive Family where
  | data
  | idx (i : Nat)
  deriving DecidableEq, Repr

abbrev Key := Family × Bytes

inductive Val (ι : Type) where
  | row (r : Row ι)
  | bytes (b : Bytes)

inductive IndexShape (ι : Type) where
  | regular (unique : Bool) (parts : List (KeyPart ι))
  | fulltext (cols : List ι) (tokenize : Bytes → List Bytes)
  | spatial (col : ι)

structure Table (ι β : Type) where
  sorts : SortStrings ι
  pkParts : Option (List (KeyPart ι))
  indexes : List (IndexShape ι)
  computeMbr : Bytes → Option β
  hilbert : β → Nat
  buildValue : β → Bytes

def tdbEmptyVal : Bytes := [0]
def ftsMaxTermBytes : Nat := 512
def ftsTermLenWidth : Nat := 2
def spatialHilbertKeyLen : Nat := 8

def dataKey (pk : Bytes) : Key := (.data, keyNsData :: pk)

section Keys

variable {ι β : Type} (T : Table ι β)

def pkFromRecord (currentPk : Bytes) (record : Row ι) : Bytes :=
  match T.pkParts with
  | some parts => makeComparableKey T.sorts parts record
  | none => currentPk

def secIdxKey (parts : List (KeyPart ι)) (currentPk : Bytes) (record : Row ι) : Bytes :=
  makeComparableKey T.sorts parts record ++ pkFromRecord T currentPk record

def writeBuildPk (rowId : Nat) (buf : Row ι) : Bytes := pkFromRecord T (toBE hiddenPkSize rowId) buf

def ftsExtractAndTokenize (cols : List ι) (tokenize : Bytes → List Bytes) (record : Row ι) : List Bytes :=
  tokenize (cols.foldl (fun doc c =>
    match record c with
    | none => doc
    | some v => (if doc.isEmpty then doc else doc ++ [0x20]) ++ v) [])

def tfMap (tokens : List Bytes) : List (Bytes × UInt16) :=
  tokens.dedup.map fun t => (t, UInt16.ofNat (tokens.count t))

def ftsBuildKey (term pk : Bytes) : Bytes :=
  toLE ftsTermLenWidth (min term.length ftsMaxTermBytes) ++ (term.take ftsMaxTermBytes ++ pk)

def ftsBuildValue (tf : UInt16) (docLen : UInt32) : Bytes := toLE 2 tf.toNat ++ toLE 4 docLen.toNat

def spatialComputeMbr (col : ι) (record : Row ι) : Option β :=
  let geom := (record col).getD []
  if geom.length > 0 then T.computeMbr geom else none

def spatialBuildKey (box : β) (pk : Bytes) : Bytes := toBE spatialHilbertKeyLen (T.hilbert box) ++ pk

end Keys

section Maintain

variable {ι β : Type}

def tag {ν : Type} (i : Nat) : Op Bytes ν → Op Key ν
  | .put k v => .put (.idx i, k) v
  | .del k => .del (.idx i, k)

def maintain (T : Table ι β) (f : IndexShape ι → List (Op Bytes (Val ι))) : List (Op Key (Val ι)) :=
  T.indexes.zipIdx.flatMap fun x => (f x.1).map (tag x.2)

def putFtsEntry (pk : Bytes) (wordCount : UInt32) (kv : Bytes × UInt16) : Op Bytes (Val ι) :=
  .put (ftsBuildKey kv.1 pk) (.bytes (ftsBuildValue kv.2 wordCount))

def delFtsEntry (pk : Bytes) (kv : Bytes × UInt16) : Op Bytes (Val ι) := .del (ftsBuildKey kv.1 pk)

def putSpatialEntry (T : Table ι β) (col : ι) (pk : Bytes) (record : Row ι) : List (Op Bytes (Val ι)) :=
  match spatialComputeMbr T col record with
  | some box => [.put (spatialBuildKey T box pk) (.bytes (T.buildValue box))]
  | none => []

def delSpatialEntry (T : Table ι β) (col : ι) (pk : Bytes) (record : Row ι) : List (Op Bytes (Val ι)) :=
  match spatialComputeMbr T col record with
  | some box => [.del (spatialBuildKey T box pk)]
  | none => []

def writeIndex (T : Table ι β) (pk : Bytes) (buf : Row ι) : IndexShape ι → List (Op Bytes (Val ι))
  | .regular _ parts => [.put (secIdxKey T parts pk buf) (.bytes tdbEmptyVal)]
  | .fulltext cols tokenize =>
    let tokens := ftsExtractAndTokenize cols tokenize buf
    (tfMap tokens).map (putFtsEntry pk (UInt32.ofNat tokens.length))
  | .spatial col => putSpatialEntry T col pk buf

def writeMaintainIndexes (T : Table ι β) (pk : Bytes) (buf : Row ι) : List (Op Key (Val ι)) :=
  maintain T (writeIndex T pk buf)

def deleteIndex (T : Table ι β) (currentPk : Bytes) (buf : Row ι) : IndexShape ι → List (Op Bytes (Val ι))
  | .regular _ parts => [.del (secIdxKey T parts currentPk buf)]
  | .fulltext cols tokenize => (tfMap (ftsExtractAndTokenize cols tokenize buf)).map (delFtsEntry currentPk)
  | .spatial col => delSpatialEntry T col currentPk buf

def deleteMaintainIndexes (T : Table ι β) (currentPk : Bytes) (buf : Row ι) : List (Op Key (Val ι)) :=
  maintain T (deleteIndex T currentPk buf)

structure Update (ι : Type) where
  oldData : Row ι
  newData : Row ι
  oldPk : Bytes
  newPk : Bytes
  writeSet : ι → Bool

def Update.pkChanged (u : Update ι) : Bool := u.oldPk ≠ u.newPk

def updateFtsIndexDiff (u : Update ι) (oldTf newTf : List (Bytes × UInt16)) (newWc : UInt32) (docLenChanged : Bool) :
    List (Op Bytes (Val ι)) :=
  (oldTf.filter fun kv => (newTf.find? fun new => new.1 = kv.1).isNone).map (delFtsEntry u.oldPk) ++
    (newTf.filter fun kv =>
      match oldTf.find? fun old => old.1 = kv.1 with
      | none => true
      | some old => docLenChanged || old.2 ≠ kv.2).map (putFtsEntry u.newPk newWc)

def updateFtsIndex (u : Update ι) (cols : List ι) (tokenize : Bytes → List Bytes) : List (Op Bytes (Val ι)) :=
  -- the test is on the indexed columns alone, whether or not the primary key moves
  if cols.any u.writeSet then
    let oldTokens := ftsExtractAndTokenize cols tokenize u.oldData
    let newTokens := ftsExtractAndTokenize cols tokenize u.newData
    let oldTf := tfMap oldTokens
    let newTf := tfMap newTokens
    let oldWc := UInt32.ofNat oldTokens.length
    let newWc := UInt32.ofNat newTokens.length
    if u.pkChanged then oldTf.map (delFtsEntry u.oldPk) ++ newTf.map (putFtsEntry u.newPk newWc)
    else updateFtsIndexDiff u oldTf newTf newWc (oldWc ≠ newWc)
  else []

def updateSpatialIndex (T : Table ι β) (u : Update ι) (col : ι) : List (Op Bytes (Val ι)) :=
  if u.writeSet col then delSpatialEntry T col u.oldPk u.oldData ++ putSpatialEntry T col u.newPk u.newData else []

def updateRegularIndex (T : Table ι β) (u : Update ι) (parts : List (KeyPart ι)) : List (Op Bytes (Val ι)) :=
  if u.pkChanged || parts.any (fun p => u.writeSet p.col) then
    let oldIk := makeComparableKey T.sorts parts u.oldData ++ u.oldPk
    let newIk := secIdxKey T parts u.newPk u.newData
    if oldIk = newIk then [] else [.del oldIk, .put newIk (.bytes tdbEmptyVal)]
  else []

def updateIndex (T : Table ι β) (u : Update ι) : IndexShape ι → List (Op Bytes (Val ι))
  | .regular _ parts => updateRegularIndex T u parts
  | .fulltext cols tokenize => updateFtsIndex u cols tokenize
  | .spatial col => updateSpatialIndex T u col

def updateMaintainIndexes (T : Table ι β) (u : Update ι) : List (Op Key (Val ι)) := maintain T (updateIndex T u)

def updateRewritePrimary (u : Update ι) : List (Op Key (Val ι)) :=
  (if u.pkChanged then [.del (dataKey u.oldPk)] else []) ++ [.put (dataKey u.newPk) (.row u.newData)]

end Maintain

section Calls

variable {ι β : Type} (T : Table ι β)

/-- What a refused row leaves for the server: the key it collides in, none for the primary key, and
the primary key of the row it collides with. -/
structure DupKey where
  errkey : Option Nat
  dupRef : Bytes

structure Session where
  skipUnique : Bool
  writeCanReplace : Bool

def probePkExists (view : Store Key (Val ι)) (pk : Bytes) : Bool := (view.get (dataKey pk)).isSome

def familyKeys (view : Store Key (Val ι)) (i : Nat) : List Bytes :=
  view.names.filterMap fun k => if k.1 = .idx i then some k.2 else none

def iterSeek (keys : List Bytes) (key : Bytes) : Option Bytes :=
  (keys.insertionSort (· ≤ ·)).find? fun k => decide (key ≤ k)

/-- The entry a fresh iterator stands on after seeking the key of a unique index, if it begins with
it: what follows is the primary key. -/
def dupEntry (view : Store Key (Val ι)) (i : Nat) (key : Bytes) : Option Bytes :=
  match iterSeek (familyKeys view i) key with
  | some k => if key <+: k then some (k.drop key.length) else none
  | none => none

def anyNull (parts : List (KeyPart ι)) (record : Row ι) : Bool :=
  parts.any fun p => p.field.nullable && (record p.col).isNone

def writeCheckPkUnique (s : Session) (view : Store Key (Val ι)) (pk : Bytes) (skipPkUnique : Bool) : Option DupKey :=
  if T.pkParts.isNone || skipPkUnique || (s.writeCanReplace && T.indexes.isEmpty) then none
  else if probePkExists view pk then some ⟨none, pk⟩
  else none

def writeCheckSecondaryUnique (s : Session) (view : Store Key (Val ι)) (buf : Row ι) : Option DupKey :=
  if T.indexes.isEmpty || s.skipUnique then none
  else T.indexes.zipIdx.findSome? fun x =>
    match x.1 with
    | .regular true parts =>
      if anyNull parts buf then none
      else (dupEntry view x.2 (makeComparableKey T.sorts parts buf)).map fun ref => ⟨some x.2, ref⟩
    | _ => none

/-- `pkAutoGenerated` is what `write_row_auto_increment` reports, `rowId` the next hidden row id. -/
def writeRow (s : Session) (pkAutoGenerated : Bool) (rowId : Nat) (buf : Row ι) (view : Store Key (Val ι)) :
    Except DupKey (List (Op Key (Val ι))) :=
  let pk := writeBuildPk T rowId buf
  match writeCheckPkUnique T s view pk (s.skipUnique || pkAutoGenerated) with
  | some d => .error d
  | none =>
    match writeCheckSecondaryUnique T s view buf with
    | some d => .error d
    | none => .ok (.put (dataKey pk) (.row buf) :: writeMaintainIndexes T pk buf)

def updateCheckUnique (view : Store Key (Val ι)) (u : Update ι) : Option DupKey :=
  if u.pkChanged && T.pkParts.isSome && probePkExists view u.newPk then some ⟨none, u.newPk⟩
  else T.indexes.zipIdx.findSome? fun x =>
    match x.1 with
    | .regular true parts =>
      if anyNull parts u.newData then none
      else if makeComparableKey T.sorts parts u.oldData = makeComparableKey T.sorts parts u.newData then none
      else (dupEntry view x.2 (makeComparableKey T.sorts parts u.newData)).map fun ref => ⟨some x.2, ref⟩
    | _ => none

def toUpdate (currentPk : Bytes) (oldData newData : Row ι) (writeSet : ι → Bool) : Update ι :=
  ⟨oldData, newData, currentPk, pkFromRecord T currentPk newData, writeSet⟩

def updateRow (s : Session) (u : Update ι) (view : Store Key (Val ι)) : Except DupKey (List (Op Key (Val ι))) :=
  match if s.skipUnique then none else updateCheckUnique T view u with
  | some d => .error d
  | none => .ok (updateRewritePrimary u ++ updateMaintainIndexes T u)

def deleteRow (currentPk : Bytes) (buf : Row ι) : List (Op Key (Val ι)) :=
  .del (dataKey currentPk) :: deleteMaintainIndexes T currentPk buf

inductive Call (ι : Type) where
  | write (pkAutoGenerated : Bool) (rowId : Nat) (buf : Row ι)
  | update (currentPk : Bytes) (oldData newData : Row ι) (writeSet : ι → Bool)
  | delete (currentPk : Bytes) (buf : Row ι)

def rowCall (s : Session) (view : Store Key (Val ι)) : Call ι → Except DupKey (List (Op Key (Val ι)))
  | .write gen rowId buf => writeRow T s gen rowId buf view
  | .update currentPk old new ws => updateRow T s (toUpdate T currentPk old new ws) view
  | .delete currentPk buf => .ok (deleteRow T currentPk buf)

end Calls

section System

inductive Action (τ ι : Type) where
  | start (i : τ)
  | row (i : τ) (s : Session) (c : Call ι)
  | undo (i : τ) (n : Nat)
  | commit (i : τ)
  | abort (i : τ)

variable {τ ι β : Type} [DecidableEq τ]

def step (T : Table ι β) (w : World τ Key (Val ι)) : Action τ ι → Option (World τ Key (Val ι))
  | .start i => Snapshot.step w (.start i)
  | .row i s c =>
    match w.active i with
    | none => none
    | some t =>
      match rowCall T s t.view c with
      | .error _ => some w
      | .ok ops => Snapshot.step w (.write i ops)
  | .undo i n => Snapshot.step w (.undo i n)
  | .commit i => Snapshot.step w (.commit i)
  | .abort i => Snapshot.step w (.abort i)

end System

end TideSql.Dml
