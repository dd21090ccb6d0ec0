import TideSql.Handler.Txn
import TideSql.Lib.Overlay
import TideSql.Lib.Run

/-!
# Scan iterators kept by the handlers

Each handler object keeps the library iterator of its last scan and uses it again when column family,
transaction pointer and generation are the same.
-/

namespace TideSql.ScanIterator
open Txn Lib Lib.Run Lib.Overlay Option

variable {φ κ ν : Type} [DecidableEq φ] [LinearOrder κ]

structure Iter (φ κ ν : Type) where
  cf : φ
  txnId : Nat
  txnGen : Nat
  content : κ → Option ν
  bounds : Option (κ × κ)
  /-- What it shows of the keys outside of its bounds: what is stored there, or less. -/
  outside : κ → Option ν
  version : Nat

/-- The bounds of `tidesdb_iter_new_range`, both ends included. They do not stop the iterator: they tell which
sstables it may leave out. -/
def InBounds : Option (κ × κ) → κ → Prop
  | none, _ => True
  | some (lo, hi), k => lo ≤ k ∧ k ≤ hi

instance (bounds : Option (κ × κ)) (k : κ) : Decidable (InBounds bounds k) := by
  cases bounds <;> unfold InBounds <;> infer_instance

def Iter.shows (it : Iter φ κ ν) (k : κ) : Option ν := if InBounds it.bounds k then it.content k else it.outside k

structure Scan (φ κ ν : Type) where
  cf : φ
  /-- `scan_range_valid_` with the two buffers. -/
  bounds : Option (κ × κ)
  /-- The keys the server asks for. -/
  wants : κ → Prop
  begun : κ → Option ν
  version : Nat

structure Handler (φ κ ν : Type) where
  scanIter : Option (Iter φ κ ν)
  scan : Option (Scan φ κ ν)
  inStatement : Bool
  stmtTxnDirty : Bool

structure World (φ κ ν : Type) where
  trx : Trx (View φ κ ν) (Put φ κ ν)
  handlers : Nat → Handler φ κ ν
  version : φ → Nat

inductive Action (φ κ ν : Type) where
  | acquire (h : Nat)
  | release (h : Nat)
  | rndInit (h : Nat)
  | indexInit (h : Nat) (cf : φ)
  | readRangeFirst (h : Nat) (wants : κ → Prop) (bounds : Option (κ × κ))
  /-- A read that goes on with the open scan. -/
  | ensureScanIter (h : Nat) (outside : κ → Option ν)
  /-- A read that begins anew in the open index: `index_first`, `index_last`, an `index_read_map` that seeks, and
  the `index_next` or `index_prev` that goes on from a point lookup. -/
  | indexRead (h : Nat) (outside : κ → Option ν)
  | scanEnd (h : Nat)
  | write (h : Nat) (ps : List (Put φ κ ν))
  | bulkCommit (h : Nat) (snapshot : View φ κ ν)
  | stmtCommit
  | stmtRollback
  | savepointSet (slot : Nat)
  | savepointRollback (slot : Nat)
  | savepointRelease (slot : Nat)

def want (t : LibTxn (View φ κ ν) (Put φ κ ν)) : View φ κ ν := overlay t.snapshot t.ops

def World.set (w : World φ κ ν) (h : Nat) (hd : Handler φ κ ν) : World φ κ ν :=
  { w with handlers := Function.update w.handlers h hd }

/-- The reuse test of `rnd_init` and `index_init`. -/
def reuse (it : Iter φ κ ν) (cf : φ) (txnId gen : Nat) : Bool :=
  decide (it.cf = cf ∧ it.txnId = txnId ∧ it.txnGen = gen)

def keptIter (w : World φ κ ν) (t : LibTxn (View φ κ ν) (Put φ κ ν)) (h : Nat) (cf : φ) : Option (Iter φ κ ν) :=
  (w.handlers h).scanIter.filter fun it => reuse it cf t.id w.trx.txnGeneration

def newIter (w : World φ κ ν) (t : LibTxn (View φ κ ν) (Put φ κ ν)) (cf : φ) (bounds : Option (κ × κ))
    (outside : κ → Option ν) : Iter φ κ ν :=
  ⟨cf, t.id, w.trx.txnGeneration, want t cf, bounds, outside, w.version cf⟩

def newScan (w : World φ κ ν) (t : LibTxn (View φ κ ν) (Put φ κ ν)) (cf : φ) : Scan φ κ ν :=
  ⟨cf, none, fun _ => True, want t cf, w.version cf⟩

def ensureScanIter (w : World φ κ ν) (t : LibTxn (View φ κ ν) (Put φ κ ν)) (h : Nat) (sc : Scan φ κ ν)
    (outside : κ → Option ν) : World φ κ ν :=
  let it := (w.handlers h).scanIter.getD (newIter w t sc.cf sc.bounds outside)
  w.set h { w.handlers h with scanIter := some it, scan := some sc }

/-- One call of the server. A rollback that would end the transaction ends the run. -/
def step (inTransaction : Bool) (dataCf : φ) (w : World φ κ ν) : Action φ κ ν → Option (World φ κ ν)
  | .acquire h =>
    let w := w.set h { w.handlers h with inStatement := true, stmtTxnDirty := false }
    some { w with trx := if inTransaction && !w.trx.stmtSavepointActive then stmtSavepointArm w.trx else w.trx }
  | .release h =>
    let hd := w.handlers h
    let scanIter := if !inTransaction || hd.stmtTxnDirty then none else hd.scanIter
    some (w.set h ⟨scanIter, none, false, false⟩)
  | .rndInit h =>
    match w.trx.txn with
    | none => none
    | some t =>
      if (w.handlers h).inStatement then
        let it := (keptIter w t h dataCf).getD (newIter w t dataCf none fun _ => none)
        some (w.set h { w.handlers h with scanIter := some it, scan := some (newScan w t dataCf) })
      else none
  | .indexInit h cf =>
    match w.trx.txn with
    | none => none
    | some t =>
      if (w.handlers h).inStatement then
        some (w.set h { w.handlers h with scanIter := keptIter w t h cf, scan := some (newScan w t cf) })
      else none
  | .readRangeFirst h wants bounds =>
    match (w.handlers h).scan with
    | none => none
    | some sc => some (w.set h { w.handlers h with scanIter := none, scan := some { sc with wants, bounds } })
  | .ensureScanIter h outside =>
    match (w.handlers h).scan, w.trx.txn with
    | some sc, some t => some (ensureScanIter w t h sc outside)
    | _, _ => none
  | .indexRead h outside =>
    match (w.handlers h).scan, w.trx.txn with
    | some sc, some t => some (ensureScanIter w t h { sc with wants := fun _ => True } outside)
    | _, _ => none
  | .scanEnd h => some (w.set h { w.handlers h with scan := none })
  | .write h ps =>
    if (w.handlers h).inStatement then
      let w := w.set h { w.handlers h with stmtTxnDirty := true }
      some
        { w with
          trx := writeRow ps w.trx
          version := fun cf => if ∃ p ∈ ps, p.family = cf then w.version cf + 1 else w.version cf }
    else none
  | .bulkCommit h snapshot =>
    if (w.handlers h).inStatement then
      let w := w.set h { w.handlers h with scanIter := none }
      some { w with trx := (maybeBulkCommit [] true 0 snapshot ⟨[], []⟩ w.trx).trx }
    else none
  | .stmtCommit => some { w with trx := stmtSavepointDisarm w.trx }
  | .stmtRollback =>
    match stmtSavepointRollback w.trx with
    | none => none
    | some trx => some { w with trx, version := fun cf => w.version cf + 1 }
  | .savepointSet slot => some { w with trx := tidesdbSavepointSet slot w.trx }
  | .savepointRollback slot =>
    match tidesdbSavepointRollback slot w.trx with
    | none => some w
    | some trx => some { w with trx, version := fun cf => w.version cf + 1 }
  | .savepointRelease slot => some { w with trx := tidesdbSavepointRelease slot w.trx }

/-- A kept iterator is used again only unbounded and while its family has not changed; none is made for a scan whose
family has changed since it began; the bounds of a range reach its keys, and no read begins anew inside of them; no
other session's writes come in. -/
def KeepsFresh (dataCf : φ) (w : World φ κ ν) : Action φ κ ν → Prop
  | .rndInit h => ∀ t it, w.trx.txn = some t → keptIter w t h dataCf = some it →
      it.bounds = none ∧ it.version = w.version dataCf
  | .indexInit h cf => ∀ t it, w.trx.txn = some t → keptIter w t h cf = some it →
      it.bounds = none ∧ it.version = w.version cf
  | .readRangeFirst _ wants bounds => ∀ k, wants k → InBounds bounds k
  | .ensureScanIter h _ => ∀ sc, (w.handlers h).scan = some sc → (w.handlers h).scanIter = none →
      sc.version = w.version sc.cf
  | .indexRead h _ => ∀ sc, (w.handlers h).scan = some sc → sc.bounds = none ∧
      ((w.handlers h).scanIter = none → sc.version = w.version sc.cf)
  | .bulkCommit _ snapshot => ∀ t, w.trx.txn = some t → snapshot = want t
  | _ => True

/-- The first call of a transaction: no scan is open, and iterators of earlier transactions are of
earlier generations. -/
def Start (w : World φ κ ν) : Prop :=
  ∀ h, (w.handlers h).scan = none ∧ ∀ it, (w.handlers h).scanIter = some it → it.txnGen < w.trx.txnGeneration

section Invariant

variable {trx trx' : Trx (View φ κ ν) (Put φ κ ν)} {version version' : φ → Nat}

structure IterOk (trx : Trx (View φ κ ν) (Put φ κ ν)) (version : φ → Nat) (it : Iter φ κ ν) : Prop where
  gen_le : it.txnGen ≤ trx.txnGeneration
  version_le : it.txnGen = trx.txnGeneration → it.version ≤ version it.cf
  fresh : it.txnGen = trx.txnGeneration → it.version = version it.cf → ∀ t, trx.txn = some t → it.content = want t it.cf

structure ScanOk (trx : Trx (View φ κ ν) (Put φ κ ν)) (version : φ → Nat) (sc : Scan φ κ ν) : Prop where
  version_le : sc.version ≤ version sc.cf
  fresh : sc.version = version sc.cf → ∀ t, trx.txn = some t → sc.begun = want t sc.cf
  covers : ∀ k, sc.wants k → InBounds sc.bounds k

structure HandlerOk (trx : Trx (View φ κ ν) (Put φ κ ν)) (version : φ → Nat) (hd : Handler φ κ ν) : Prop where
  iter : ∀ it, hd.scanIter = some it → IterOk trx version it
  scan : ∀ sc, hd.scan = some sc → ScanOk trx version sc
  sees : ∀ sc it, hd.scan = some sc → hd.scanIter = some it →
    ∀ k, InBounds sc.bounds k → it.shows k = sc.begun k

structure Moves (trx : Trx (View φ κ ν) (Put φ κ ν)) (version : φ → Nat) (trx' : Trx (View φ κ ν) (Put φ κ ν))
    (version' : φ → Nat) : Prop where
  gen_le : trx.txnGeneration ≤ trx'.txnGeneration
  version_le : ∀ cf, version cf ≤ version' cf
  want_eq : ∀ cf, version cf = version' cf → ∀ t', trx'.txn = some t' → ∃ t, trx.txn = some t ∧ want t' cf = want t cf

theorem IterOk.moves {it : Iter φ κ ν} (h : IterOk trx version it) (hMoves : Moves trx version trx' version') :
    IterOk trx' version' it := by
  have hGen : it.txnGen = trx'.txnGeneration → it.txnGen = trx.txnGeneration := fun hEq =>
    Nat.le_antisymm h.gen_le (hEq ▸ hMoves.gen_le)
  refine ⟨h.gen_le.trans hMoves.gen_le, fun hEq => (h.version_le (hGen hEq)).trans (hMoves.version_le _), ?_⟩
  intro hEq hVersion t' ht'
  have hSame : version it.cf = version' it.cf :=
    Nat.le_antisymm (hMoves.version_le _) (hVersion ▸ h.version_le (hGen hEq))
  obtain ⟨t, ht, hWant⟩ := hMoves.want_eq it.cf hSame t' ht'
  rw [hWant, h.fresh (hGen hEq) (hVersion.trans hSame.symm) t ht]

theorem ScanOk.moves {sc : Scan φ κ ν} (h : ScanOk trx version sc) (hMoves : Moves trx version trx' version') :
    ScanOk trx' version' sc := by
  refine ⟨h.version_le.trans (hMoves.version_le _), fun hVersion t' ht' => ?_, h.covers⟩
  have hSame : version sc.cf = version' sc.cf :=
    Nat.le_antisymm (hMoves.version_le _) (hVersion ▸ h.version_le)
  obtain ⟨t, ht, hWant⟩ := hMoves.want_eq sc.cf hSame t' ht'
  rw [hWant, h.fresh (hVersion.trans hSame.symm) t ht]

theorem HandlerOk.moves {hd : Handler φ κ ν} (h : HandlerOk trx version hd)
    (hMoves : Moves trx version trx' version') : HandlerOk trx' version' hd :=
  ⟨fun it hIt => (h.iter it hIt).moves hMoves, fun sc hSc => (h.scan sc hSc).moves hMoves, h.sees⟩

theorem Moves.of_map {f : LibTxn (View φ κ ν) (Put φ κ ν) → LibTxn (View φ κ ν) (Put φ κ ν)}
    (hGen : trx.txnGeneration ≤ trx'.txnGeneration) (hTxn : trx'.txn = trx.txn.map f)
    (hWant : ∀ t, trx.txn = some t → want (f t) = want t) : Moves trx version trx' version := by
  refine ⟨hGen, fun _ => le_rfl, fun cf _ t' ht' => ?_⟩
  rw [hTxn, map_eq_some_iff] at ht'
  obtain ⟨t, ht, rfl⟩ := ht'
  exact ⟨t, ht, congrFun (hWant t ht) cf⟩

theorem Moves.of_bump (hGen : trx.txnGeneration ≤ trx'.txnGeneration) :
    Moves trx version trx' fun cf => version cf + 1 :=
  ⟨hGen, fun _ => Nat.le_succ _, fun _ hEq => absurd hEq.symm (Nat.succ_ne_self _)⟩

section

variable (trx : Trx (View φ κ ν) (Put φ κ ν)) (version : φ → Nat)

theorem Moves.arm : Moves trx version (stmtSavepointArm trx) version := by
  apply Moves.of_map (f := fun t => (t.releaseSavepoint .stmt).savepoint .stmt)
  · cases hTxn : trx.txn <;> simp [stmtSavepointArm, hTxn]
  · cases hTxn : trx.txn <;> simp [stmtSavepointArm, hTxn]
  · exact fun t _ => rfl

theorem Moves.refl : Moves trx version trx version :=
  ⟨le_rfl, fun _ => le_rfl, fun _ _ t' ht' => ⟨t', ht', rfl⟩⟩

theorem Moves.disarm : Moves trx version (stmtSavepointDisarm trx) version := by
  rw [stmtSavepointDisarm]
  split
  · exact Moves.of_map le_rfl rfl fun t _ => rfl
  · exact Moves.refl trx version

theorem Moves.write (ps : List (Put φ κ ν)) :
    Moves trx version (writeRow ps trx) fun cf => if ∃ p ∈ ps, p.family = cf then version cf + 1 else version cf := by
  refine ⟨le_rfl, fun cf => ?_, fun cf hEq t' ht' => ?_⟩
  · split
    · exact Nat.le_succ _
    · exact le_rfl
  · obtain ⟨t, ht, rfl⟩ := map_eq_some_iff.mp ht'
    refine ⟨t, ht, ?_⟩
    split at hEq
    · exact absurd hEq.symm (Nat.succ_ne_self _)
    · rename_i hOther
      push Not at hOther
      rw [want, LibTxn.write, overlay_append]
      exact overlay_of_notMem _ _ _ hOther

end

theorem Moves.bulkCommit {snapshot : View φ κ ν} (hQuiet : ∀ t, trx.txn = some t → snapshot = want t) :
    Moves trx version (maybeBulkCommit [] true 0 snapshot ⟨[], []⟩ trx).trx version := by
  cases hTxn : trx.txn with
  | none =>
    simp only [maybeBulkCommit, hTxn]
    exact Moves.refl trx version
  | some t =>
    apply Moves.of_map (f := fun t => t.reset snapshot)
    · simp [maybeBulkCommit, hTxn]
    · simp [maybeBulkCommit, hTxn]
    · exact hQuiet

end Invariant

def Inv (w : World φ κ ν) : Prop := ∀ h, HandlerOk w.trx w.version (w.handlers h)

namespace Inv

variable {w : World φ κ ν}

section

variable (hInv : Inv w)
include hInv

theorem set {h : Nat} {hd : Handler φ κ ν} (hOk : HandlerOk w.trx w.version hd) : Inv (w.set h hd) := by
  intro h'
  obtain rfl | hNe := eq_or_ne h' h
  · simpa [World.set] using hOk
  · simpa [World.set, hNe] using hInv h'

theorem move {trx : Trx (View φ κ ν) (Put φ κ ν)} {version : φ → Nat} (hMoves : Moves w.trx w.version trx version) :
    Inv { w with trx, version } := fun h => (hInv h).moves hMoves

theorem set_flags (h : Nat) (inStatement stmtTxnDirty : Bool) :
    Inv (w.set h { w.handlers h with inStatement, stmtTxnDirty }) :=
  hInv.set ⟨(hInv h).iter, (hInv h).scan, (hInv h).sees⟩

theorem set_unread {h : Nat} {sc : Option (Scan φ κ ν)} {inStatement stmtTxnDirty : Bool}
    (hScan : ∀ sc', sc = some sc' → ScanOk w.trx w.version sc') :
    Inv (w.set h ⟨none, sc, inStatement, stmtTxnDirty⟩) := by
  refine hInv.set ⟨fun it hIt => ?_, hScan, fun sc' it _ hIt => ?_⟩
  · cases hIt
  · cases hIt

theorem set_closed {h : Nat} {it : Option (Iter φ κ ν)} {inStatement stmtTxnDirty : Bool}
    (hIter : ∀ it', it = some it' → IterOk w.trx w.version it') :
    Inv (w.set h ⟨it, none, inStatement, stmtTxnDirty⟩) := by
  refine hInv.set ⟨hIter, fun sc hSc => ?_, fun sc it hSc => ?_⟩
  · cases hSc
  · cases hSc

end

end Inv

section Steps

variable {w : World φ κ ν} {t : LibTxn (View φ κ ν) (Put φ κ ν)}

theorem iterOk_newIter (ht : w.trx.txn = some t) (cf : φ) (bounds : Option (κ × κ)) (outside : κ → Option ν) :
    IterOk w.trx w.version (newIter w t cf bounds outside) := by
  refine ⟨le_rfl, fun _ => le_rfl, fun _ _ t' ht' => ?_⟩
  rw [ht] at ht'
  cases ht'
  rfl

theorem scanOk_newScan (ht : w.trx.txn = some t) (cf : φ) : ScanOk w.trx w.version (newScan w t cf) := by
  refine ⟨le_rfl, fun _ t' ht' => ?_, fun _ _ => trivial⟩
  rw [ht] at ht'
  cases ht'
  rfl

variable {h : Nat}

omit [LinearOrder κ] in
theorem keptIter_eq_some {cf : φ} {it : Iter φ κ ν} (hKept : keptIter w t h cf = some it) :
    (w.handlers h).scanIter = some it ∧ it.cf = cf ∧ it.txnGen = w.trx.txnGeneration := by
  obtain ⟨hIt, hReuse⟩ := filter_eq_some_iff.mp hKept
  obtain ⟨hCf, _, hGen⟩ := of_decide_eq_true hReuse
  exact ⟨hIt, hCf, hGen⟩

theorem kept_shows (hInv : Inv w) (ht : w.trx.txn = some t) {cf : φ} {it : Iter φ κ ν}
    (hKept : keptIter w t h cf = some it) (hGuard : it.bounds = none ∧ it.version = w.version cf) (k : κ) :
    it.shows k = (newScan w t cf).begun k := by
  obtain ⟨hIt, hCf, hGen⟩ := keptIter_eq_some hKept
  have hFresh := ((hInv h).iter it hIt).fresh hGen (by rw [hCf, hGuard.2]) t ht
  have hAll : InBounds it.bounds k := by
    rw [hGuard.1]
    trivial
  rw [Iter.shows, if_pos hAll, hFresh, hCf]
  rfl

theorem new_shows (w : World φ κ ν) (cf : φ) {bounds : Option (κ × κ)} (outside : κ → Option ν) {k : κ}
    (hk : InBounds bounds k) : (newIter w t cf bounds outside).shows k = want t cf k := if_pos hk

variable {inTransaction : Bool} {w' : World φ κ ν}

theorem inv_rndInit {dataCf : φ} (hInv : Inv w) (hGuard : KeepsFresh dataCf w (.rndInit h))
    (hStep : step inTransaction dataCf w (.rndInit h) = some w') : Inv w' := by
  rw [step] at hStep
  split at hStep
  · cases hStep
  · rename_i t ht
    split at hStep
    · cases hStep
      apply hInv.set
      refine ⟨fun it hIt => ?_, fun sc hSc => ?_, fun sc it hSc hIt k hk => ?_⟩
      · cases hIt
        cases hKept : keptIter w t h dataCf with
        | none => exact iterOk_newIter ht dataCf none _
        | some it => exact (hInv h).iter it (keptIter_eq_some hKept).1
      · cases hSc
        exact scanOk_newScan ht dataCf
      · cases hSc
        cases hIt
        cases hKept : keptIter w t h dataCf with
        | none => exact new_shows w dataCf _ trivial
        | some it => exact kept_shows hInv ht hKept (hGuard t it ht hKept) k
    · cases hStep

theorem inv_indexInit {dataCf cf : φ} (hInv : Inv w) (hGuard : KeepsFresh dataCf w (.indexInit h cf))
    (hStep : step inTransaction dataCf w (.indexInit h cf) = some w') : Inv w' := by
  rw [step] at hStep
  split at hStep
  · cases hStep
  · rename_i t ht
    split at hStep
    · cases hStep
      apply hInv.set
      refine ⟨fun it hIt => (hInv h).iter it (keptIter_eq_some hIt).1, fun sc hSc => ?_, fun sc it hSc hIt k hk => ?_⟩
      · cases hSc
        exact scanOk_newScan ht cf
      · cases hSc
        exact kept_shows hInv ht hIt (hGuard t it ht hIt) k
    · cases hStep

theorem inv_ensureScanIter (hInv : Inv w) (ht : w.trx.txn = some t) {sc : Scan φ κ ν} (wants : κ → Prop)
    (hSc : (w.handlers h).scan = some sc) (hCovers : ∀ k, wants k → InBounds sc.bounds k)
    (hVersion : (w.handlers h).scanIter = none → sc.version = w.version sc.cf) (outside : κ → Option ν) :
    Inv (ensureScanIter w t h { sc with wants } outside) := by
  have hOk := (hInv h).scan sc hSc
  apply hInv.set
  refine ⟨fun it hIt => ?_, fun sc' hSc' => ?_, fun sc' it hSc' hIt k hk => ?_⟩
  · cases hIt
    cases hIter : (w.handlers h).scanIter with
    | some it => exact (hInv h).iter it hIter
    | none => exact iterOk_newIter ht sc.cf sc.bounds outside
  · cases hSc'
    exact ⟨hOk.version_le, hOk.fresh, hCovers⟩
  · cases hSc'
    cases hIt
    cases hIter : (w.handlers h).scanIter with
    | some it => exact (hInv h).sees sc it hSc hIter k hk
    | none =>
      calc (newIter w t sc.cf sc.bounds outside).shows k = want t sc.cf k := new_shows w sc.cf outside hk
        _ = sc.begun k := by rw [hOk.fresh (hVersion hIter) t ht]

theorem inv_step {dataCf : φ} {a : Action φ κ ν} (hInv : Inv w) (hGuard : KeepsFresh dataCf w a)
    (hStep : step inTransaction dataCf w a = some w') : Inv w' := by
  cases a with
  | acquire h =>
    cases hStep
    apply (hInv.set_flags h true false).move
    split
    · exact Moves.arm _ _
    · exact Moves.refl _ _
  | release h =>
    cases hStep
    refine hInv.set_closed fun it hIt => ?_
    split at hIt
    · cases hIt
    · exact (hInv h).iter it hIt
  | rndInit h => exact inv_rndInit hInv hGuard hStep
  | indexInit h cf => exact inv_indexInit hInv hGuard hStep
  | readRangeFirst h wants bounds =>
    rw [step] at hStep
    split at hStep
    · cases hStep
    · rename_i sc hSc
      cases hStep
      refine hInv.set_unread fun sc' hSc' => ?_
      cases hSc'
      exact ⟨((hInv h).scan sc hSc).version_le, ((hInv h).scan sc hSc).fresh, hGuard⟩
  | ensureScanIter h outside =>
    rw [step] at hStep
    split at hStep
    · rename_i sc t hSc ht
      cases hStep
      exact inv_ensureScanIter hInv ht sc.wants hSc ((hInv h).scan sc hSc).covers (hGuard sc hSc) outside
    · cases hStep
  | indexRead h outside =>
    rw [step] at hStep
    split at hStep
    · rename_i sc t hSc ht
      cases hStep
      obtain ⟨hBounds, hVersion⟩ := hGuard sc hSc
      refine inv_ensureScanIter hInv ht (fun _ => True) hSc (fun k _ => ?_) hVersion outside
      rw [hBounds]
      trivial
    · cases hStep
  | scanEnd h =>
    cases hStep
    exact hInv.set_closed (hInv h).iter
  | write h ps =>
    rw [step] at hStep
    split at hStep
    · cases hStep
      exact (hInv.set_flags h _ true).move (Moves.write _ _ ps)
    · cases hStep
  | bulkCommit h snapshot =>
    rw [step] at hStep
    split at hStep
    · cases hStep
      exact (hInv.set_unread (hInv h).scan).move (Moves.bulkCommit hGuard)
    · cases hStep
  | stmtCommit =>
    cases hStep
    exact hInv.move (Moves.disarm _ _)
  | stmtRollback =>
    rw [step] at hStep
    split at hStep
    · cases hStep
    · rename_i trx hRoll
      cases hStep
      exact hInv.move (Moves.of_bump (txnGeneration_le_stmtSavepointRollback hRoll))
  | savepointSet slot =>
    cases hStep
    exact hInv.move (Moves.of_map le_rfl rfl fun t _ => rfl)
  | savepointRollback slot =>
    rw [step] at hStep
    split at hStep
    · cases hStep
      exact hInv
    · rename_i trx hRoll
      cases hStep
      exact hInv.move (Moves.of_bump (txnGeneration_le_tidesdbSavepointRollback hRoll))
  | savepointRelease slot =>
    cases hStep
    exact hInv.move (Moves.of_map le_rfl rfl fun t _ => rfl)

end Steps

theorem inv_start {w : World φ κ ν} (h : Start w) : Inv w := by
  intro n
  obtain ⟨hScan, hIter⟩ := h n
  refine ⟨fun it hIt => ?_, fun sc hSc => ?_, fun sc it hSc => ?_⟩
  · have hOld := hIter it hIt
    exact ⟨hOld.le, fun hEq => absurd hEq hOld.ne, fun hEq => absurd hEq hOld.ne⟩
  · rw [hScan] at hSc
    cases hSc
  · rw [hScan] at hSc
    cases hSc

def startWorld : World Bool Nat Nat where
  trx := ⟨some (.start 0 fun _ k => if k = 1 then some 10 else none), false, false, false, 1⟩
  handlers := fun _ => ⟨none, none, false, false⟩
  version := fun _ => 0

def putTwo : Put Bool Nat Nat := ⟨false, 2, some 20⟩

def putNine : Put Bool Nat Nat := ⟨false, 9, some 90⟩

def fiveToNine (k : Nat) : Prop := 5 ≤ k ∧ k ≤ 9

end TideSql.ScanIterator
