import TideSql.Lib.Tally
import TideSql.Handler.Dml
import TideSql.Handler.StmtSavepoint

/-!
# The totals of a full-text index

The number of documents of a full-text index and the number of their words stand in the data family under the
key number of the index.
-/

namespace TideSql.FtsTotals
open Dml KeyCodec SortKey StmtSavepoint Lib Lib.Run Lib.Snapshot Lib.Tally Function Option Prod

structure FtsIndex (ι : Type) where
  cols : List ι
  tokenize : Bytes → List Bytes

inductive Key (κ : Type) where
  | row (cf : κ) (pk : Bytes)
  | totals (cf : κ) (keynr : Nat)
  deriving DecidableEq

inductive Val (ι : Type) where
  | row (r : Row ι)
  | totals (docs words : Int)

/-- `stmt` is the savepoint of the statement: how many row calls there were, and what `fts_meta_pending` and
`fts_meta_dirty` were. -/
structure Conn (κ : Type) where
  dirty : Bool
  ftsMetaPending : List (FtsMetaDelta κ)
  ftsMetaDirty : Bool
  stmt : Option (Nat × List (FtsMetaDelta κ) × Bool)
  savepoints : List (Nat × Nat)

def Conn.idle {κ : Type} : Conn κ := ⟨false, [], false, none, []⟩

/-- `keynr` numbers the full-text indexes of each table, which other indexes move. -/
structure State (τ κ ι : Type) where
  world : World τ (Key κ) (Val ι)
  conn : τ → Conn κ
  keynr : κ → Nat → Nat

inductive RowCall (ι : Type) where
  | insert (pk : Bytes) (r : Row ι)
  | update (pk pk' : Bytes) (r' : Row ι) (writeSet : ι → Bool)
  | delete (pk : Bytes)

inductive Action (τ κ ι : Type) where
  | start (i : τ)
  | lock (i : τ)
  /-- `checked` is false where the check for duplicates is skipped. -/
  | row (i : τ) (cf : κ) (checked : Bool) (c : RowCall ι)
  | stmtCommit (i : τ)
  | stmtRollback (i : τ)
  | savepointSet (i : τ) (slot : Nat)
  | savepointRollback (i : τ) (slot : Nat)
  | bulkCommit (i : τ)
  | commit (i : τ)
  | rollback (i : τ)
  | alter (cf : κ) (keynr : Nat → Nat)

section Model

variable {τ κ ι : Type} [DecidableEq τ] [DecidableEq κ]

def tokens (f : FtsIndex ι) (r : Row ι) : List Bytes := ftsExtractAndTokenize f.cols f.tokenize r

def wordCount (f : FtsIndex ι) (r : Row ι) : Int := (UInt32.ofNat (tokens f r).length).toNat

def ftsLoadMeta (view : Store (Key κ) (Val ι)) (cf : κ) (keynr : Nat) : Int × Int :=
  match view.get (.totals cf keynr) with
  | some (.totals docs words) => (docs, words)
  | _ => (0, 0)

def ftsUpdateMeta (view : Store (Key κ) (Val ι)) (e : FtsMetaDelta κ) : Op (Key κ) (Val ι) :=
  let t := ftsLoadMeta view e.dataCf e.keynr
  .put (.totals e.dataCf e.keynr) (.totals (max (t.1 + e.docDelta) 0) (max (t.2 + e.wordDelta) 0))

def flushAll (view : Store (Key κ) (Val ι)) : List (FtsMetaDelta κ) → List (Op (Key κ) (Val ι))
  | [] => []
  | e :: es => ftsUpdateMeta view e :: flushAll ((ftsUpdateMeta view e).apply view) es

def flushTrxFtsMetaPending (view : Store (Key κ) (Val ι)) (c : Conn κ) : List (Op (Key κ) (Val ι)) :=
  if c.ftsMetaDirty = false ∨ c.ftsMetaPending = [] then [] else flushAll view c.ftsMetaPending

def rowAt (view : Store (Key κ) (Val ι)) (cf : κ) (pk : Bytes) : Option (Row ι) :=
  match view.get (.row cf pk) with
  | some (.row r) => some r
  | _ => none

variable (fts : κ → List (FtsIndex ι))

def deltas (cf : κ) (keynr : Nat → Nat) (f : FtsIndex ι → Option (Int × Int)) : List (FtsMetaDelta κ) :=
  (fts cf).zipIdx.filterMap fun x => (f x.1).map fun d => ⟨cf, keynr x.2, d.1, d.2⟩

def writeDelta (r : Row ι) (f : FtsIndex ι) : Option (Int × Int) := some (1, wordCount f r)

def deleteDelta (r : Row ι) (f : FtsIndex ι) : Option (Int × Int) := some (-1, -wordCount f r)

/-- Nothing for an index none of whose columns is in the write set, nor for a document as long as before. -/
def updateDelta (r r' : Row ι) (writeSet : ι → Bool) (f : FtsIndex ι) : Option (Int × Int) :=
  if f.cols.any writeSet ∧ wordCount f r' - wordCount f r ≠ 0 then some (0, wordCount f r' - wordCount f r) else none

def rowCall (view : Store (Key κ) (Val ι)) (cf : κ) (keynr : Nat → Nat) (checked : Bool) :
    RowCall ι → Option (List (Op (Key κ) (Val ι)) × List (FtsMetaDelta κ))
  | .insert pk r =>
    if checked ∧ (rowAt view cf pk).isSome then none
    else some ([.put (.row cf pk) (.row r)], deltas fts cf keynr (writeDelta r))
  | .update pk pk' r' writeSet =>
    match rowAt view cf pk with
    | none => none
    | some r =>
      if checked ∧ pk ≠ pk' ∧ (rowAt view cf pk').isSome then none
      else some ((if pk ≠ pk' then [.del (.row cf pk)] else []) ++ [.put (.row cf pk') (.row r')],
        deltas fts cf keynr (updateDelta r r' writeSet))
  | .delete pk => (rowAt view cf pk).map fun r => ([.del (.row cf pk)], deltas fts cf keynr (deleteDelta r))

def gather (c : Conn κ) (ds : List (FtsMetaDelta κ)) : Conn κ :=
  { c with
    dirty := true
    ftsMetaPending := ds.foldl (fun pending d => accumulate d pending) c.ftsMetaPending
    ftsMetaDirty := c.ftsMetaDirty || !ds.isEmpty }

def State.set (s : State τ κ ι) (w : World τ (Key κ) (Val ι)) (i : τ) (c : Conn κ) : State τ κ ι :=
  { s with world := w, conn := update s.conn i c }

def flushAndCommit (s : State τ κ ι) (i : τ) : Option (World τ (Key κ) (Val ι)) :=
  (s.world.active i).bind fun t =>
    (Snapshot.step s.world (.write i (flushTrxFtsMetaPending t.view (s.conn i)))).bind fun w =>
      Snapshot.step w (.commit i)

def step (s : State τ κ ι) : Action τ κ ι → Option (State τ κ ι)
  | .start i => (Snapshot.step s.world (.start i)).map fun w => s.set w i (s.conn i)
  | .lock i => (s.world.active i).map fun t =>
      if (s.conn i).stmt.isSome then s
      else s.set s.world i
        { s.conn i with stmt := some (t.batches.length, (s.conn i).ftsMetaPending, (s.conn i).ftsMetaDirty) }
  | .row i cf checked c =>
    match s.world.active i with
    | none => none
    | some t =>
      match rowCall fts t.view cf (s.keynr cf) checked c with
      | none => some s
      | some (ops, ds) => (Snapshot.step s.world (.write i ops)).map fun w => s.set w i (gather (s.conn i) ds)
  | .stmtCommit i => some (s.set s.world i { s.conn i with stmt := none })
  | .stmtRollback i =>
    match s.world.active i with
    | none => none
    | some t =>
      match (s.conn i).stmt with
      | some (n, pending, dirty) => (Snapshot.step s.world (.undo i (t.batches.length - n))).map fun w =>
          s.set w i { s.conn i with ftsMetaPending := pending, ftsMetaDirty := dirty, stmt := none }
      | none => (Snapshot.step s.world (.abort i)).map fun w => s.set w i .idle
  | .savepointSet i slot => (s.world.active i).map fun t =>
      s.set s.world i { s.conn i with savepoints := (slot, t.batches.length) :: (s.conn i).savepoints }
  | .savepointRollback i slot =>
    -- between the statements
    if (s.conn i).stmt.isSome then none
    else
      match s.world.active i, (s.conn i).savepoints.dropWhile fun e => e.1 ≠ slot with
      | some t, (_, n) :: older => (Snapshot.step s.world (.undo i (t.batches.length - n))).map fun w =>
          -- the deltas stay as they are
          s.set w i { s.conn i with savepoints := (slot, n) :: older }
      | _, _ => none
  | .bulkCommit i => ((flushAndCommit s i).bind fun w => Snapshot.step w (.start i)).map fun w => s.set w i .idle
  | .commit i =>
    -- a transaction that has written nothing is rolled back
    (if (s.conn i).dirty then flushAndCommit s i else Snapshot.step s.world (.abort i)).map fun w => s.set w i .idle
  | .rollback i => (Snapshot.step s.world (.abort i)).map fun w => s.set w i .idle
  | .alter cf keynr => some { s with keynr := update s.keynr cf keynr }

inductive Part where
  | docs
  | words
  deriving DecidableEq

def Part.of : Part → Int × Int → Int
  | .docs, x => x.1
  | .words, x => x.2

def weight (cf : κ) (f : FtsIndex ι) (p : Part) : Key κ → Val ι → Int
  | .row cf' _, .row r => if cf' = cf then p.of (1, wordCount f r) else 0
  | _, _ => 0

def Tallied (keynr : κ → Nat → Nat) (store : Store (Key κ) (Val ι)) : Prop :=
  ∀ cf n f, (fts cf)[n]? = some f → ∀ p : Part, p.of (ftsLoadMeta store cf (keynr cf n)) = tally (weight cf f p) store

/-- A check for duplicates is skipped only where there is none, and a column that is not in the write set keeps
its value. -/
def CallOk (view : Store (Key κ) (Val ι)) (cf : κ) (checked : Bool) : RowCall ι → Prop
  | .insert pk _ => checked = false → rowAt view cf pk = none
  | .update pk pk' r' writeSet => (checked = false → pk ≠ pk' → rowAt view cf pk' = none) ∧
    ∀ r, rowAt view cf pk = some r → ∀ c, writeSet c = false → r' c = r c
  | .delete _ => True

/-- A rollback to a savepoint takes back nothing that the totals count, and an `ALTER` leaves the numbers of the
full-text indexes as they are. -/
def Condition (s : State τ κ ι) : Action τ κ ι → Prop
  | .row i cf checked c => ∀ t, s.world.active i = some t → CallOk t.view cf checked c
  | .savepointRollback i slot => ∀ t m n older, s.world.active i = some t →
    ((s.conn i).savepoints.dropWhile fun e => e.1 ≠ slot) = (m, n) :: older →
      ∀ cf, ∀ f ∈ fts cf, ∀ p, tally (weight cf f p)
        (applyAll t.snapshot (opsOf (t.batches.drop (t.batches.length - n)))) =
        tally (weight cf f p) t.view
  | .alter cf keynr => ∀ n < (fts cf).length, keynr n = s.keynr cf n
  | _ => True

end Model

section Deltas

variable {κ ι : Type} [DecidableEq κ]

def owed (p : Part) (pending : List (FtsMetaDelta κ)) (cf : κ) (k : Nat) : Int :=
  (pending.map fun e => if e.dataCf = cf ∧ e.keynr = k then p.of (e.docDelta, e.wordDelta) else 0).sum

theorem owed_cons (p : Part) (e : FtsMetaDelta κ) (pending : List (FtsMetaDelta κ)) (cf : κ) (k : Nat) :
    owed p (e :: pending) cf k =
      (if e.dataCf = cf ∧ e.keynr = k then p.of (e.docDelta, e.wordDelta) else 0) + owed p pending cf k := by
  rw [owed, List.map_cons, List.sum_cons, owed]

theorem Part.of_add (p : Part) (a b c d : Int) : p.of (a + b, c + d) = p.of (a, c) + p.of (b, d) := by
  cases p with
  | docs | words => rfl

theorem owed_accumulate (p : Part) (d : FtsMetaDelta κ) (pending : List (FtsMetaDelta κ)) (cf : κ) (k : Nat) :
    owed p (accumulate d pending) cf k =
      owed p pending cf k + if d.dataCf = cf ∧ d.keynr = k then p.of (d.docDelta, d.wordDelta) else 0 := by
  induction pending with
  | nil => rw [accumulate, owed_cons, add_comm]
  | cons e pending ih =>
    rw [accumulate]
    split
    · rename_i hSame
      rw [owed_cons, owed_cons, hSame.1, hSame.2]
      split
      · rw [Part.of_add]
        ring
      · ring
    · rw [owed_cons, owed_cons, ih]
      ring

theorem owed_foldl (p : Part) (ds pending : List (FtsMetaDelta κ)) (cf : κ) (k : Nat) :
    owed p (ds.foldl (fun pending d => accumulate d pending) pending) cf k = owed p pending cf k + owed p ds cf k := by
  induction ds generalizing pending with
  | nil => exact (add_zero _).symm
  | cons d ds ih =>
    rw [List.foldl_cons, ih, owed_accumulate, owed_cons]
    ring

def Distinct (pending : List (FtsMetaDelta κ)) : Prop := (pending.map fun e => (e.dataCf, e.keynr)).Nodup

variable {pending : List (FtsMetaDelta κ)}

theorem mem_accumulate {d : FtsMetaDelta κ} {x : κ × Nat}
    (h : x ∈ (accumulate d pending).map fun e => (e.dataCf, e.keynr)) :
    x = (d.dataCf, d.keynr) ∨ x ∈ pending.map fun e => (e.dataCf, e.keynr) := by
  induction pending with
  | nil => exact .inl (List.mem_singleton.mp h)
  | cons e pending ih =>
    rw [accumulate] at h
    split at h
    · exact .inr h
    · obtain rfl | h := List.mem_cons.mp h
      · exact .inr List.mem_cons_self
      · exact (ih h).imp id (List.mem_cons_of_mem _)

theorem distinct_accumulate {d : FtsMetaDelta κ} (h : Distinct pending) : Distinct (accumulate d pending) := by
  induction pending with
  | nil => exact List.nodup_singleton _
  | cons e pending ih =>
    rw [Distinct, List.map_cons, List.nodup_cons] at h
    rw [accumulate]
    split
    · exact List.nodup_cons.mpr h
    · rename_i hNe
      refine List.nodup_cons.mpr ⟨fun hMem => ?_, ih h.2⟩
      obtain hEq | hMem := mem_accumulate hMem
      · exact hNe (mk.inj hEq)
      · exact h.1 hMem

theorem distinct_foldl {ds pending : List (FtsMetaDelta κ)} (h : Distinct pending) :
    Distinct (ds.foldl (fun pending d => accumulate d pending) pending) := by
  induction ds generalizing pending with
  | nil => exact h
  | cons d ds ih => exact ih (distinct_accumulate h)

theorem owed_of_notMem {p : Part} {cf : κ} {k : Nat} (h : (cf, k) ∉ pending.map fun e => (e.dataCf, e.keynr)) :
    owed p pending cf k = 0 := by
  induction pending with
  | nil => rfl
  | cons e pending ih =>
    rw [List.map_cons, List.mem_cons, not_or] at h
    rw [owed_cons, if_neg fun hSame => h.1 (Prod.ext hSame.1.symm hSame.2.symm), ih h.2, zero_add]

theorem owed_of_mem {p : Part} (h : Distinct pending) {e : FtsMetaDelta κ} (he : e ∈ pending) :
    owed p pending e.dataCf e.keynr = p.of (e.docDelta, e.wordDelta) := by
  induction pending with
  | nil => cases he
  | cons e' pending ih =>
    rw [Distinct, List.map_cons, List.nodup_cons] at h
    rw [owed_cons]
    obtain rfl | he := List.mem_cons.mp he
    · rw [if_pos ⟨rfl, rfl⟩, owed_of_notMem h.1, add_zero]
    · have hOther : ¬(e'.dataCf = e.dataCf ∧ e'.keynr = e.keynr) := by
        intro hSame
        rw [hSame.1, hSame.2] at h
        exact h.1 (List.mem_map_of_mem he)
      rw [if_neg hOther, ih h.2 he, zero_add]

variable {fts : κ → List (FtsIndex ι)} {cf : κ} {keynr : Nat → Nat} {f : FtsIndex ι → Option (Int × Int)}

omit [DecidableEq κ] in
theorem mem_deltas {e : FtsMetaDelta κ} :
    e ∈ deltas fts cf keynr f ↔ ∃ n g d, (fts cf)[n]? = some g ∧ f g = some d ∧ e = ⟨cf, keynr n, d.1, d.2⟩ := by
  rw [deltas, List.mem_filterMap]
  constructor
  · rintro ⟨⟨g, n⟩, hg, hd⟩
    obtain ⟨d, hf, rfl⟩ := map_eq_some_iff.mp hd
    exact ⟨n, g, d, List.mk_mem_zipIdx_iff_getElem?.mp hg, hf, rfl⟩
  · rintro ⟨n, g, d, hg, hf, rfl⟩
    exact ⟨(g, n), List.mk_mem_zipIdx_iff_getElem?.mpr hg, map_eq_some_iff.mpr ⟨d, hf, rfl⟩⟩

omit [DecidableEq κ] in
theorem distinct_deltas (hInj : Set.InjOn keynr (Set.Iio (fts cf).length)) : Distinct (deltas fts cf keynr f) := by
  have hNodup : ((fts cf).zipIdx.map snd).Nodup := by
    rw [List.zipIdx_map_snd]
    exact List.nodup_range'
  rw [Distinct, deltas, List.Nodup, List.pairwise_map, List.pairwise_filterMap]
  refine (List.pairwise_map.mp hNodup).imp_of_mem fun {a b} ha hb hNe e he e' he' hKey => hNe ?_
  obtain ⟨d, -, rfl⟩ := map_eq_some_iff.mp he
  obtain ⟨d', -, rfl⟩ := map_eq_some_iff.mp he'
  have hBound {x : FtsIndex ι × Nat} (hx : x ∈ (fts cf).zipIdx) : x.2 < (fts cf).length :=
    (List.getElem?_eq_some_iff.mp (List.mk_mem_zipIdx_iff_getElem?.mp hx)).1
  exact hInj (hBound ha) (hBound hb) (mk.inj hKey).2

theorem owed_deltas (p : Part) {n : Nat} {g : FtsIndex ι} (hg : (fts cf)[n]? = some g)
    (hInj : Set.InjOn keynr (Set.Iio (fts cf).length)) :
    owed p (deltas fts cf keynr f) cf (keynr n) = (f g).elim 0 p.of := by
  cases hf : f g with
  | some d => exact owed_of_mem (distinct_deltas hInj) (mem_deltas.mpr ⟨n, g, d, hg, hf, rfl⟩)
  | none =>
    refine owed_of_notMem fun hMem => ?_
    obtain ⟨e, he, hKey⟩ := List.mem_map.mp hMem
    obtain ⟨n', g', d, hg', hf', rfl⟩ := mem_deltas.mp he
    have hLt := (List.getElem?_eq_some_iff.mp hg).1
    have hLt' := (List.getElem?_eq_some_iff.mp hg').1
    obtain rfl : n' = n := hInj hLt' hLt (mk.inj hKey).2
    rw [hg] at hg'
    cases hg'
    rw [hf] at hf'
    cases hf'

theorem owed_deltas_of_ne (p : Part) {cf' : κ} (hNe : cf' ≠ cf) (k : Nat) :
    owed p (deltas fts cf keynr f) cf' k = 0 := by
  refine owed_of_notMem fun hMem => ?_
  obtain ⟨e, he, hKey⟩ := List.mem_map.mp hMem
  obtain ⟨n, g, d, -, -, rfl⟩ := mem_deltas.mp he
  exact hNe (mk.inj hKey).1.symm

end Deltas

section Flush

variable {κ ι : Type} [DecidableEq κ] {view : Store (Key κ) (Val ι)}

variable {es : List (FtsMetaDelta κ)}

theorem key_flushAll {o : Op (Key κ) (Val ι)} (h : o ∈ flushAll view es) :
    ∃ e ∈ es, o.key = .totals e.dataCf e.keynr := by
  induction es generalizing view with
  | nil => cases h
  | cons e es ih =>
    obtain rfl | h := List.mem_cons.mp h
    · exact ⟨e, List.mem_cons_self, rfl⟩
    · obtain ⟨e', he', hKey⟩ := ih h
      exact ⟨e', List.mem_cons_of_mem _ he', hKey⟩

theorem totals_mem_flushAll {cf : κ} {k : Nat} :
    .totals cf k ∈ keys (flushAll view es) ↔ (cf, k) ∈ es.map fun e => (e.dataCf, e.keynr) := by
  induction es generalizing view with
  | nil => exact iff_of_false nofun nofun
  | cons e es ih =>
    change .totals cf k ∈ .totals e.dataCf e.keynr :: keys (flushAll _ es) ↔ _
    rw [List.map_cons, List.mem_cons, List.mem_cons, ih, Key.totals.injEq, Prod.mk.injEq]

theorem load_congr {view' : Store (Key κ) (Val ι)} {cf : κ} {k : Nat}
    (h : view'.get (.totals cf k) = view.get (.totals cf k)) : ftsLoadMeta view' cf k = ftsLoadMeta view cf k := by
  rw [ftsLoadMeta, ftsLoadMeta, h]

theorem load_updateMeta (e : FtsMetaDelta κ) (p : Part) :
    p.of (ftsLoadMeta ((ftsUpdateMeta view e).apply view) e.dataCf e.keynr) =
      max (p.of (ftsLoadMeta view e.dataCf e.keynr) + p.of (e.docDelta, e.wordDelta)) 0 := by
  have hGet : ((ftsUpdateMeta view e).apply view).get (.totals e.dataCf e.keynr) =
      some (.totals (max ((ftsLoadMeta view e.dataCf e.keynr).1 + e.docDelta) 0)
        (max ((ftsLoadMeta view e.dataCf e.keynr).2 + e.wordDelta) 0)) := by
    rw [ftsUpdateMeta, Op.apply, Store.get_put, if_pos rfl]
  rw [ftsLoadMeta, hGet]
  cases p with
  | docs | words => rfl

theorem load_flushAll (view : Store (Key κ) (Val ι)) (h : Distinct es) {e : FtsMetaDelta κ} (he : e ∈ es) (p : Part) :
    p.of (ftsLoadMeta (applyAll view (flushAll view es)) e.dataCf e.keynr) =
      max (p.of (ftsLoadMeta view e.dataCf e.keynr) + p.of (e.docDelta, e.wordDelta)) 0 := by
  induction es generalizing view with
  | nil => cases he
  | cons e' es ih =>
    rw [Distinct, List.map_cons, List.nodup_cons] at h
    change p.of (ftsLoadMeta (applyAll ((ftsUpdateMeta view e').apply view) (flushAll _ es)) _ _) = _
    obtain rfl | he := List.mem_cons.mp he
    · rw [← load_updateMeta, load_congr]
      rw [get_applyAll]
      exact updateAll_of_notMem _ fun hMem => h.1 (totals_mem_flushAll.mp hMem)
    · rw [ih _ h.2 he, load_congr]
      rw [get_apply]
      refine Op.update_of_ne _ fun hKey => h.1 ?_
      obtain ⟨hCf, hNr⟩ := Key.totals.inj hKey
      exact List.mem_map.mpr ⟨e, he, Prod.ext hCf hNr⟩

end Flush

section Rows

variable {κ ι : Type} [DecidableEq κ] {view : Store (Key κ) (Val ι)}

def rowWeight (cf' : κ) (f : FtsIndex ι) (p : Part) (cf : κ) (r : Row ι) : Int :=
  if cf = cf' then p.of (1, wordCount f r) else 0

theorem weigh_row (cf' : κ) (f : FtsIndex ι) (p : Part) (cf : κ) (pk : Bytes) :
    weigh (weight cf' f p) (.row cf pk) (view.get (.row cf pk)) = (rowAt view cf pk).elim 0 (rowWeight cf' f p cf) := by
  rw [rowAt]
  cases view.get (.row cf pk) with
  | none => rfl
  | some v =>
    cases v with
    | row r | totals docs words => rfl

theorem wordCount_congr {f : FtsIndex ι} {r r' : Row ι} (h : ∀ c ∈ f.cols, r' c = r c) :
    wordCount f r' = wordCount f r := by
  have hTokens : tokens f r' = tokens f r := by
    rw [tokens, tokens, ftsExtractAndTokenize, ftsExtractAndTokenize]
    congr 1
    exact List.foldl_ext _ _ _ fun doc c hc => by rw [h c hc]
  rw [wordCount, hTokens, wordCount]

theorem of_zero_sub (p : Part) (f : FtsIndex ι) (r r' : Row ι) :
    p.of (1, wordCount f r') - p.of (1, wordCount f r) = p.of (0, wordCount f r' - wordCount f r) := by
  cases p with
  | docs => exact sub_self _
  | words => rfl

theorem elim_updateDelta (p : Part) {f : FtsIndex ι} {r r' : Row ι} {writeSet : ι → Bool}
    (hKeeps : ∀ c, writeSet c = false → r' c = r c) :
    (updateDelta r r' writeSet f).elim 0 p.of = p.of (1, wordCount f r') - p.of (1, wordCount f r) := by
  rw [of_zero_sub, updateDelta]
  split
  · rfl
  · rename_i hNot
    have hSame : wordCount f r' - wordCount f r = 0 := by
      by_contra hNe
      refine hNot ⟨?_, hNe⟩
      by_contra hAny
      rw [Bool.not_eq_true, List.any_eq_false] at hAny
      exact hNe (sub_eq_zero.mpr (wordCount_congr fun c hc => hKeeps c (Bool.not_eq_true _ ▸ hAny c hc)))
    rw [hSame]
    cases p with
    | docs | words => rfl

structure Accounts (fts : κ → List (FtsIndex ι)) (cf : κ) (keynr : Nat → Nat) (view : Store (Key κ) (Val ι))
    (ops : List (Op (Key κ) (Val ι))) (ds : List (FtsMetaDelta κ)) : Prop where
  rows : ∀ o ∈ ops, ∃ pk, o.key = .row cf pk
  here {n : Nat} {f : FtsIndex ι} : (fts cf)[n]? = some f → ∀ p,
    tally (weight cf f p) (applyAll view ops) = tally (weight cf f p) view + owed p ds cf (keynr n)
  elsewhere {cf' : κ} : cf' ≠ cf → ∀ f p, tally (weight cf' f p) (applyAll view ops) = tally (weight cf' f p) view
  owed {cf' : κ} : cf' ≠ cf → ∀ p k, owed p ds cf' k = 0

theorem weight_of_ne {cf cf' : κ} (hNe : cf' ≠ cf) (f : FtsIndex ι) (p : Part) (pk : Bytes) (v : Val ι) :
    weight cf' f p (.row cf pk) v = 0 := by
  cases v with
  | row r => exact if_neg hNe.symm
  | totals docs words => rfl

variable {fts : κ → List (FtsIndex ι)}

theorem accounts_of {cf : κ} {keynr : Nat → Nat} {ops : List (Op (Key κ) (Val ι))}
    {f : FtsIndex ι → Option (Int × Int)} (hInj : Set.InjOn keynr (Set.Iio (fts cf).length))
    (hRows : ∀ o ∈ ops, ∃ pk, o.key = .row cf pk)
    (hSum : ∀ g p, tally (weight cf g p) (applyAll view ops) = tally (weight cf g p) view + (f g).elim 0 p.of) :
    Accounts fts cf keynr view ops (deltas fts cf keynr f) where
  rows := hRows
  here {n g} hg p := by rw [owed_deltas p hg hInj, hSum]
  elsewhere hNe g p := tally_applyAll_of_weightless fun o ho v => by
    obtain ⟨pk, hKey⟩ := hRows o ho
    rw [hKey]
    exact weight_of_ne hNe g p pk v
  owed hNe p k := owed_deltas_of_ne p hNe k

theorem rowCall_accounts {cf : κ} {keynr : Nat → Nat} {checked : Bool} {c : RowCall ι}
    {ops : List (Op (Key κ) (Val ι))} {ds : List (FtsMetaDelta κ)} (hInj : Set.InjOn keynr (Set.Iio (fts cf).length))
    (hOk : CallOk view cf checked c) (h : rowCall fts view cf keynr checked c = some (ops, ds)) :
    Accounts fts cf keynr view ops ds := by
  cases c with
  | insert pk r =>
    rw [rowCall] at h
    split at h
    · cases h
    · rename_i hNot
      cases h
      have hNone : rowAt view cf pk = none := by
        cases hChecked : checked with
        | false => exact hOk hChecked
        | true => simpa [hChecked] using hNot
      refine accounts_of hInj (fun o ho => ⟨pk, by rw [List.mem_singleton.mp ho]; rfl⟩) fun g p => ?_
      change tally (weight cf g p) (view.put (.row cf pk) (.row r)) = _
      rw [tally_put, weigh_row, hNone]
      simp [weight, writeDelta]
  | delete pk =>
    obtain ⟨r, hr, hEq⟩ := map_eq_some_iff.mp h
    cases hEq
    refine accounts_of hInj (fun o ho => ⟨pk, by rw [List.mem_singleton.mp ho]; rfl⟩) fun g p => ?_
    change tally (weight cf g p) (view.drop (.row cf pk)) = _
    rw [tally_drop, weigh_row, hr]
    cases p with
    | docs | words => simp [rowWeight, deleteDelta, Part.of, sub_eq_add_neg]
  | update pk pk' r' writeSet =>
    rw [rowCall] at h
    split at h
    · cases h
    · rename_i r hr
      split at h
      · cases h
      · rename_i hNot
        cases h
        obtain ⟨hFree, hKeeps⟩ := hOk
        have hDelta (g : FtsIndex ι) (p : Part) := elim_updateDelta (f := g) p (hKeeps r hr)
        obtain rfl | hNe := eq_or_ne pk pk'
        · rw [if_neg (not_not.mpr rfl)]
          refine accounts_of hInj (fun o ho => ⟨pk, by rw [List.mem_singleton.mp ho]; rfl⟩) fun g p => ?_
          change tally (weight cf g p) (view.put (.row cf pk) (.row r')) = _
          rw [tally_put, weigh_row, hr, hDelta, elim_some, rowWeight, if_pos rfl, weight, if_pos rfl]
          ring
        · have hNone : rowAt view cf pk' = none := by
            cases hChecked : checked with
            | false => exact hFree hChecked hNe
            | true => simpa [hChecked, hNe] using hNot
          have hStill : rowAt (view.drop (.row cf pk)) cf pk' = none := by
            have hOther : (.row cf pk' : Key κ) ≠ .row cf pk := fun hEq => hNe (Key.row.inj hEq).2.symm
            rw [rowAt, Store.get_drop, if_neg hOther]
            exact hNone
          rw [if_pos hNe]
          refine accounts_of hInj (fun o ho => ?_) fun g p => ?_
          · obtain rfl | ho := List.mem_cons.mp ho
            · exact ⟨pk, rfl⟩
            · exact ⟨pk', by rw [List.mem_singleton.mp ho]; rfl⟩
          · change tally (weight cf g p) ((view.drop (.row cf pk)).put (.row cf pk') (.row r')) = _
            rw [tally_put, weigh_row, hStill, tally_drop, weigh_row, hr, hDelta, elim_some, elim_none,
              rowWeight, if_pos rfl, weight, if_pos rfl]
            ring

def Balanced (fts : κ → List (FtsIndex ι)) (keynr : κ → Nat → Nat) (snapshot : Store (Key κ) (Val ι))
    (ops : List (Op (Key κ) (Val ι))) (pending : List (FtsMetaDelta κ)) : Prop :=
  ∀ cf n f, (fts cf)[n]? = some f → ∀ p,
    tally (weight cf f p) (applyAll snapshot ops) = tally (weight cf f p) snapshot + owed p pending cf (keynr cf n)

theorem Balanced.write {keynr : κ → Nat → Nat} {snapshot : Store (Key κ) (Val ι)}
    {ops ops' : List (Op (Key κ) (Val ι))} {pending ds : List (FtsMetaDelta κ)} {cf : κ}
    (h : Balanced fts keynr snapshot ops pending) (hCall : Accounts fts cf (keynr cf) (applyAll snapshot ops) ops' ds) :
    Balanced fts keynr snapshot (ops ++ ops') (ds.foldl (fun pending d => accumulate d pending) pending) := by
  intro cf' n f hf p
  rw [applyAll_append, owed_foldl]
  obtain rfl | hNe := eq_or_ne cf' cf
  · rw [hCall.here hf p, h cf' n f hf p]
    ring
  · rw [hCall.elsewhere hNe f p, h cf' n f hf p, hCall.owed hNe, add_zero]

end Rows

section Commit

variable {κ ι : Type} [DecidableEq κ] {fts : κ → List (FtsIndex ι)} {keynr : κ → Nat → Nat}
  {t : Txn (Key κ) (Val ι)} {c : Conn κ}

structure ConnOk (fts : κ → List (FtsIndex ι)) (keynr : κ → Nat → Nat) (t : Txn (Key κ) (Val ι)) (c : Conn κ) :
    Prop where
  tallied : Tallied fts keynr t.snapshot
  rows : ∀ b ∈ t.batches, ∀ o ∈ b, ∃ cf pk, o.key = .row cf pk
  balanced : Balanced fts keynr t.snapshot t.ops c.ftsMetaPending
  distinct : Distinct c.ftsMetaPending
  dirty : c.ftsMetaPending ≠ [] → c.ftsMetaDirty = true
  stmt {n : Nat} {pending : List (FtsMetaDelta κ)} {dirty : Bool} : c.stmt = some (n, pending, dirty) →
    n ≤ t.batches.length ∧ Balanced fts keynr t.snapshot (opsOf (t.batches.drop (t.batches.length - n))) pending ∧
      Distinct pending ∧ (pending ≠ [] → dirty = true)

theorem flush_eq (h : ConnOk fts keynr t c) (view : Store (Key κ) (Val ι)) :
    flushTrxFtsMetaPending view c = flushAll view c.ftsMetaPending := by
  rw [flushTrxFtsMetaPending]
  split
  · rename_i hNone
    have hEmpty : c.ftsMetaPending = [] := by
      by_contra hSome
      obtain hClean | hEmpty := hNone
      · exact absurd (hClean.symm.trans (h.dirty hSome)) Bool.false_ne_true
      · exact hSome hEmpty
    rw [hEmpty]
    rfl
  · rfl

theorem totals_notMem_ops (h : ConnOk fts keynr t c) (cf : κ) (k : Nat) : .totals cf k ∉ keys t.ops := by
  intro hMem
  obtain ⟨o, ho, hKey⟩ := List.mem_map.mp hMem
  obtain ⟨b, hb, hob⟩ := mem_opsOf.mp ho
  obtain ⟨cf', pk, hRow⟩ := h.rows b hb o hob
  rw [hKey] at hRow
  cases hRow

theorem tally_flush (cf : κ) (f : FtsIndex ι) (p : Part) (s view : Store (Key κ) (Val ι)) (es : List (FtsMetaDelta κ)) :
    tally (weight cf f p) (applyAll s (flushAll view es)) = tally (weight cf f p) s := by
  refine tally_applyAll_of_weightless fun o ho v => ?_
  obtain ⟨e, -, hKey⟩ := key_flushAll ho
  rw [hKey]
  rfl

theorem weight_nonneg (cf : κ) (f : FtsIndex ι) (p : Part) (k : Key κ) (v : Val ι) : 0 ≤ weight cf f p k v := by
  rw [weight.eq_def]
  split
  · split
    · cases p with
      | docs => exact Int.one_nonneg
      | words => exact Int.natCast_nonneg _
    · exact le_rfl
  · exact le_rfl

theorem tallied_publish (h : ConnOk fts keynr t c) {committed : Store (Key κ) (Val ι)}
    (hCommitted : Tallied fts keynr committed)
    (hSame : ∀ k ∈ keys (t.ops ++ flushAll t.view c.ftsMetaPending), committed.get k = t.snapshot.get k) :
    Tallied fts keynr (applyAll committed (t.ops ++ flushAll t.view c.ftsMetaPending)) := by
  intro cf n f hf p
  have hMoved := tally_applyAll_sub (g := weight cf f p) hSame
  have hView : tally (weight cf f p) (applyAll t.snapshot (t.ops ++ flushAll t.view c.ftsMetaPending)) =
      tally (weight cf f p) t.view := by
    rw [applyAll_append, tally_flush]
    rfl
  have hBalanced : tally (weight cf f p) t.view =
      tally (weight cf f p) t.snapshot + owed p c.ftsMetaPending cf (keynr cf n) := h.balanced cf n f hf p
  by_cases hOwed : (cf, keynr cf n) ∈ c.ftsMetaPending.map fun e => (e.dataCf, e.keynr)
  · -- the totals are as they were at the start, so they have been of the rows there then
    have hMem : .totals cf (keynr cf n) ∈ keys (t.ops ++ flushAll t.view c.ftsMetaPending) := by
      rw [keys, List.map_append, List.mem_append]
      exact .inr (totals_mem_flushAll.mpr hOwed)
    obtain ⟨e, he, hKey⟩ := List.mem_map.mp hOwed
    obtain ⟨hCf, hNr⟩ := mk.inj hKey
    have hOld : tally (weight cf f p) committed = tally (weight cf f p) t.snapshot := by
      rw [← hCommitted cf n f hf p, ← h.tallied cf n f hf p, load_congr (hSame _ hMem)]
    have hAtView : ftsLoadMeta t.view cf (keynr cf n) = ftsLoadMeta t.snapshot cf (keynr cf n) := by
      refine load_congr ?_
      rw [Txn.view, get_applyAll]
      exact updateAll_of_notMem _ (totals_notMem_ops h cf _)
    have hNew : ftsLoadMeta (applyAll committed (t.ops ++ flushAll t.view c.ftsMetaPending)) cf (keynr cf n) =
        ftsLoadMeta (applyAll t.view (flushAll t.view c.ftsMetaPending)) cf (keynr cf n) := by
      refine load_congr ?_
      rw [get_applyAll, updateAll_of_mem _ t.snapshot.get hMem, ← get_applyAll, applyAll_append]
      rfl
    have hFlushed := load_flushAll t.view h.distinct he p
    rw [← owed_of_mem h.distinct he, hCf, hNr, hAtView, h.tallied cf n f hf p, ← hBalanced] at hFlushed
    rw [hNew, hFlushed, max_eq_left (tally_nonneg (weight_nonneg cf f p) _)]
    linarith
  · have hNot : .totals cf (keynr cf n) ∉ keys (t.ops ++ flushAll t.view c.ftsMetaPending) := by
      rw [keys, List.map_append, List.mem_append, not_or]
      exact ⟨totals_notMem_ops h cf _, fun hMem => hOwed (totals_mem_flushAll.mp hMem)⟩
    have hLoad : ftsLoadMeta (applyAll committed (t.ops ++ flushAll t.view c.ftsMetaPending)) cf (keynr cf n) =
        ftsLoadMeta committed cf (keynr cf n) := by
      refine load_congr ?_
      rw [get_applyAll]
      exact updateAll_of_notMem _ hNot
    rw [hLoad, hCommitted cf n f hf p]
    rw [owed_of_notMem hOwed, add_zero] at hBalanced
    linarith

theorem connOk_start {committed : Store (Key κ) (Val ι)} (hCommitted : Tallied fts keynr committed) (begun : Nat)
    (hPending : c.ftsMetaPending = []) (hStmt : c.stmt = none) : ConnOk fts keynr ⟨begun, committed, []⟩ c where
  tallied := hCommitted
  rows := nofun
  balanced cf n f _ p := by
    rw [hPending]
    exact (add_zero _).symm
  distinct := by
    rw [hPending]
    exact List.nodup_nil
  dirty hSome := absurd hPending hSome
  stmt hSome := by
    rw [hStmt] at hSome
    cases hSome

section

variable (h : ConnOk fts keynr t c)
include h

theorem ConnOk.lock :
    ConnOk fts keynr t { c with stmt := some (t.batches.length, c.ftsMetaPending, c.ftsMetaDirty) } where
  tallied := h.tallied
  rows := h.rows
  balanced := h.balanced
  distinct := h.distinct
  dirty := h.dirty
  stmt hSome := by
    cases hSome
    rw [Nat.sub_self]
    exact ⟨le_rfl, h.balanced, h.distinct, h.dirty⟩

theorem ConnOk.released (savepoints : List (Nat × Nat)) :
    ConnOk fts keynr t { c with stmt := none, savepoints := savepoints } where
  tallied := h.tallied
  rows := h.rows
  balanced := h.balanced
  distinct := h.distinct
  dirty := h.dirty
  stmt := nofun

theorem ConnOk.row {cf : κ} {ops : List (Op (Key κ) (Val ι))} {ds : List (FtsMetaDelta κ)}
    (hCall : Accounts fts cf (keynr cf) t.view ops ds) :
    ConnOk fts keynr { t with batches := ops :: t.batches } (gather c ds) where
  tallied := h.tallied
  rows b hb o ho := by
    obtain rfl | hb := List.mem_cons.mp hb
    · obtain ⟨pk, hKey⟩ := hCall.rows o ho
      exact ⟨cf, pk, hKey⟩
    · exact h.rows b hb o ho
  balanced := by
    rw [Txn.ops, opsOf_cons]
    exact h.balanced.write hCall
  distinct := distinct_foldl h.distinct
  dirty hSome := by
    rw [gather] at hSome ⊢
    dsimp only at hSome ⊢
    cases ds with
    | nil => rw [h.dirty hSome, Bool.true_or]
    | cons d ds => exact Bool.or_true _
  stmt {n pending dirty} hStmt := by
    obtain ⟨hLe, hBalanced, hRest⟩ := h.stmt hStmt
    refine ⟨hLe.trans (Nat.le_succ _), ?_, hRest⟩
    dsimp only
    rw [List.length_cons, Nat.succ_sub hLe, List.drop_succ_cons]
    exact hBalanced

theorem ConnOk.back (n : Nat) {c' : Conn κ} (hStmt : c'.stmt = none)
    (hBalanced : Balanced fts keynr t.snapshot (opsOf (t.batches.drop n)) c'.ftsMetaPending)
    (hDistinct : Distinct c'.ftsMetaPending) (hDirty : c'.ftsMetaPending ≠ [] → c'.ftsMetaDirty = true) :
    ConnOk fts keynr { t with batches := t.batches.drop n } c' where
  tallied := h.tallied
  rows b hb := h.rows b (List.mem_of_mem_drop hb)
  balanced := hBalanced
  distinct := hDistinct
  dirty := hDirty
  stmt hSome := by
    rw [hStmt] at hSome
    cases hSome

end

section Renumbered

variable {keynr' : κ → Nat → Nat} (hSame : ∀ cf, ∀ n < (fts cf).length, keynr' cf n = keynr cf n)
include hSame

theorem Tallied.congr {store : Store (Key κ) (Val ι)} (h : Tallied fts keynr store) : Tallied fts keynr' store := by
  intro cf n f hf p
  rw [hSame cf n (List.getElem?_eq_some_iff.mp hf).1]
  exact h cf n f hf p

theorem Balanced.congr {snapshot : Store (Key κ) (Val ι)} {ops : List (Op (Key κ) (Val ι))}
    {pending : List (FtsMetaDelta κ)} (h : Balanced fts keynr snapshot ops pending) :
    Balanced fts keynr' snapshot ops pending := by
  intro cf n f hf p
  rw [hSame cf n (List.getElem?_eq_some_iff.mp hf).1]
  exact h cf n f hf p

theorem ConnOk.congr (h : ConnOk fts keynr t c) : ConnOk fts keynr' t c where
  tallied := h.tallied.congr hSame
  rows := h.rows
  balanced := h.balanced.congr hSame
  distinct := h.distinct
  dirty := h.dirty
  stmt hSome := by
    obtain ⟨hLe, hBalanced, hRest⟩ := h.stmt hSome
    exact ⟨hLe, hBalanced.congr hSame, hRest⟩

end Renumbered

end Commit

section Runs

variable {τ κ ι : Type} [DecidableEq τ] [DecidableEq κ] {fts : κ → List (FtsIndex ι)} {s s' : State τ κ ι}

structure Inv (fts : κ → List (FtsIndex ι)) (s : State τ κ ι) : Prop where
  coherent : ∃ s₀, Coherent s₀ s.world
  numbered (cf : κ) : Set.InjOn (s.keynr cf) (Set.Iio (fts cf).length)
  committed : Tallied fts s.keynr s.world.committed
  conns {i : τ} {t : Txn (Key κ) (Val ι)} : s.world.active i = some t → ConnOk fts s.keynr t (s.conn i)
  idle {i : τ} : s.world.active i = none → (s.conn i).ftsMetaPending = [] ∧ (s.conn i).stmt = none

variable {w : World τ (Key κ) (Val ι)}

section

variable (h : Inv fts s)
include h

theorem Inv.set {i : τ} {c : Conn κ} (hCoherent : ∃ s₀, Coherent s₀ w) (hCommitted : Tallied fts s.keynr w.committed)
    (hOthers : ∀ j, j ≠ i → w.active j = s.world.active j) (hHere : ∀ t, w.active i = some t → ConnOk fts s.keynr t c)
    (hIdle : w.active i = none → c.ftsMetaPending = [] ∧ c.stmt = none) : Inv fts (s.set w i c) where
  coherent := hCoherent
  numbered := h.numbered
  committed := hCommitted
  conns {j t} hj := by
    change w.active j = some t at hj
    change ConnOk fts s.keynr t (update s.conn i c j)
    obtain rfl | hNe := eq_or_ne j i
    · rw [update_self]
      exact hHere t hj
    · rw [update_of_ne hNe]
      exact h.conns (hOthers j hNe ▸ hj)
  idle {j} hj := by
    change w.active j = none at hj
    change (update s.conn i c j).ftsMetaPending = [] ∧ (update s.conn i c j).stmt = none
    obtain rfl | hNe := eq_or_ne j i
    · rw [update_self]
      exact hIdle hj
    · rw [update_of_ne hNe]
      exact h.idle (hOthers j hNe ▸ hj)

theorem Inv.setTxn {i : τ} {x : Option (Txn (Key κ) (Val ι))} {c : Conn κ}
    (hCoherent : ∃ s₀, Coherent s₀ (s.world.set i x)) (hHere : ∀ t, x = some t → ConnOk fts s.keynr t c)
    (hIdle : x = none → c.ftsMetaPending = [] ∧ c.stmt = none) : Inv fts (s.set (s.world.set i x) i c) := by
  have hThere : (s.world.set i x).active i = x := update_self ..
  exact h.set hCoherent h.committed (fun j hNe => update_of_ne hNe ..)
    (fun t ht => hHere t (hThere.symm.trans ht)) fun hNone => hIdle (hThere.symm.trans hNone)

theorem Inv.coherent_step {a : Snapshot.Action τ (Key κ) (Val ι)} (hStep : Snapshot.step s.world a = some w) :
    ∃ s₀, Coherent s₀ w := by
  obtain ⟨s₀, hCoherent⟩ := h.coherent
  exact ⟨s₀, hCoherent.step hStep⟩

theorem Inv.setConn {i : τ} {t : Txn (Key κ) (Val ι)} {c : Conn κ} (ht : s.world.active i = some t)
    (hConn : ConnOk fts s.keynr t c) : Inv fts (s.set s.world i c) := by
  refine h.set h.coherent h.committed (fun _ _ => rfl) (fun u hu => ?_) fun hNone => ?_
  · cases ht.symm.trans hu
    exact hConn
  · cases ht.symm.trans hNone

theorem Inv.write {i : τ} {t : Txn (Key κ) (Val ι)} {ops : List (Op (Key κ) (Val ι))} {c : Conn κ}
    (hStep : Snapshot.step s.world (.write i ops) = some w) (ht : s.world.active i = some t)
    (hConn : ConnOk fts s.keynr { t with batches := ops :: t.batches } c) : Inv fts (s.set w i c) := by
  have hCoherent := h.coherent_step hStep
  cases stepped_of_step hStep with
  | write _ _ t' ht' =>
    cases ht.symm.trans ht'
    exact h.setTxn hCoherent (fun u hu => some.inj hu ▸ hConn) nofun

theorem Inv.undo {i : τ} {t : Txn (Key κ) (Val ι)} {n : Nat} {c : Conn κ}
    (hStep : Snapshot.step s.world (.undo i n) = some w) (ht : s.world.active i = some t)
    (hConn : ConnOk fts s.keynr { t with batches := t.batches.drop n } c) : Inv fts (s.set w i c) := by
  have hCoherent := h.coherent_step hStep
  cases stepped_of_step hStep with
  | undo _ _ t' ht' =>
    cases ht.symm.trans ht'
    exact h.setTxn hCoherent (fun u hu => some.inj hu ▸ hConn) nofun

theorem Inv.abort {i : τ} (hStep : Snapshot.step s.world (.abort i) = some w) : Inv fts (s.set w i .idle) := by
  have hCoherent := h.coherent_step hStep
  cases stepped_of_step hStep with
  | abort i t ht => exact h.setTxn hCoherent nofun fun _ => ⟨rfl, rfl⟩

theorem flushAndCommit_spec {i : τ} (hStep : flushAndCommit s i = some w) :
    (∃ s₀, Coherent s₀ w) ∧ Tallied fts s.keynr w.committed ∧ w.active i = none ∧
      ∀ j, j ≠ i → w.active j = s.world.active j := by
  obtain ⟨t, ht, hStep⟩ := bind_eq_some_iff.mp hStep
  obtain ⟨w₁, hWrite, hCommit⟩ := bind_eq_some_iff.mp hStep
  have hConn := h.conns ht
  obtain ⟨s₀, hCoherent⟩ := h.coherent_step hWrite
  rw [flush_eq hConn] at hWrite
  refine ⟨⟨s₀, hCoherent.step hCommit⟩, ?_⟩
  cases stepped_of_step hWrite with
  | write _ _ t' ht' =>
    rw [ht] at ht'
    cases ht'
    set t₁ := { t with batches := flushAll t.view (s.conn i).ftsMetaPending :: t.batches }
    have hOps : t₁.ops = t.ops ++ flushAll t.view (s.conn i).ftsMetaPending := opsOf_cons ..
    have hHere : (s.world.set i (some t₁)).active i = some t₁ := update_self ..
    have hGone (w : World τ (Key κ) (Val ι)) : (w.set i none).active i = none := update_self ..
    have hOthers {j : τ} (hNe : j ≠ i) :
        update (update s.world.active i (some t₁)) i none j = s.world.active j := by
      rw [update_of_ne hNe, update_of_ne hNe]
    cases stepped_of_step hCommit with
    | refused _ u hu => exact ⟨h.committed, hGone _, fun j hNe => hOthers hNe⟩
    | commit _ u hu hFree =>
      refine ⟨?_, hGone _, fun j hNe => hOthers hNe⟩
      rw [hHere] at hu
      cases hu
      refine hOps ▸ tallied_publish hConn h.committed fun k hk => ?_
      refine hCoherent.unchanged hHere fun ops hLogged o ho hKey => ?_
      refine key_notMem_of_free hFree hLogged ho ?_
      rw [hKey, hOps]
      exact hk

theorem Inv.start {i : τ} (hStep : step fts s (.start i) = some s') : Inv fts s' := by
  obtain ⟨w, hWorld, rfl⟩ := map_eq_some_iff.mp hStep
  have hCoherent := h.coherent_step hWorld
  cases stepped_of_step hWorld with
  | start _ hNone =>
    refine h.setTxn hCoherent (fun t ht => ?_) nofun
    cases ht
    exact connOk_start h.committed _ (h.idle hNone).1 (h.idle hNone).2

theorem Inv.lock {i : τ} (hStep : step fts s (.lock i) = some s') : Inv fts s' := by
  obtain ⟨t, ht, rfl⟩ := map_eq_some_iff.mp hStep
  split
  · exact h
  · exact h.setConn ht (h.conns ht).lock

theorem Inv.row {i : τ} {cf : κ} {checked : Bool} {c : RowCall ι} (hCondition : Condition fts s (.row i cf checked c))
    (hStep : step fts s (.row i cf checked c) = some s') : Inv fts s' := by
  rw [step] at hStep
  split at hStep
  · cases hStep
  · rename_i t ht
    split at hStep
    · cases hStep
      exact h
    · rename_i ops ds hCall
      obtain ⟨w, hWorld, rfl⟩ := map_eq_some_iff.mp hStep
      exact h.write hWorld ht ((h.conns ht).row (rowCall_accounts (h.numbered cf) (hCondition t ht) hCall))

theorem Inv.stmtCommit {i : τ} (hStep : step fts s (.stmtCommit i) = some s') : Inv fts s' := by
  cases hStep
  refine h.set h.coherent h.committed (fun _ _ => rfl) (fun t ht => (h.conns ht).released _) fun hNone => ?_
  exact ⟨(h.idle hNone).1, rfl⟩

theorem Inv.stmtRollback {i : τ} (hStep : step fts s (.stmtRollback i) = some s') : Inv fts s' := by
  rw [step] at hStep
  split at hStep
  · cases hStep
  · rename_i t ht
    split at hStep
    · rename_i n pending dirty hStmt
      obtain ⟨w, hWorld, rfl⟩ := map_eq_some_iff.mp hStep
      obtain ⟨-, hBalanced, hDistinct, hDirty⟩ := (h.conns ht).stmt hStmt
      exact h.undo hWorld ht ((h.conns ht).back _ rfl hBalanced hDistinct hDirty)
    · obtain ⟨w, hWorld, rfl⟩ := map_eq_some_iff.mp hStep
      exact h.abort hWorld

theorem Inv.savepointSet {i : τ} {slot : Nat} (hStep : step fts s (.savepointSet i slot) = some s') : Inv fts s' := by
  obtain ⟨t, ht, rfl⟩ := map_eq_some_iff.mp hStep
  have hConn := h.conns ht
  exact h.setConn ht ⟨hConn.tallied, hConn.rows, hConn.balanced, hConn.distinct, hConn.dirty, hConn.stmt⟩

theorem Inv.savepointRollback {i : τ} {slot : Nat} (hCondition : Condition fts s (.savepointRollback i slot))
    (hStep : step fts s (.savepointRollback i slot) = some s') : Inv fts s' := by
  rw [step] at hStep
  split at hStep
  · cases hStep
  · rename_i hBetween
    split at hStep
    · rename_i t m n older ht hFound
      obtain ⟨w, hWorld, rfl⟩ := map_eq_some_iff.mp hStep
      have hConn := h.conns ht
      refine h.undo hWorld ht (hConn.back _ (not_isSome_iff_eq_none.mp hBetween) ?_ hConn.distinct hConn.dirty)
      intro cf k f hf p
      rw [hCondition t m n older ht hFound cf f (List.mem_of_getElem? hf) p]
      exact hConn.balanced cf k f hf p
    · cases hStep

theorem Inv.bulkCommit {i : τ} (hStep : step fts s (.bulkCommit i) = some s') : Inv fts s' := by
  obtain ⟨w, hWorld, rfl⟩ := map_eq_some_iff.mp hStep
  obtain ⟨w₁, hCommit, hStart⟩ := bind_eq_some_iff.mp hWorld
  obtain ⟨⟨s₀, hCoherent⟩, hCommitted, -, hOthers⟩ := flushAndCommit_spec h hCommit
  have hCoherent' := hCoherent.step hStart
  cases stepped_of_step hStart with
  | start _ hNone =>
    have hThere : (w₁.set i (some ⟨w₁.log.length, w₁.committed, []⟩)).active i =
        some ⟨w₁.log.length, w₁.committed, []⟩ := update_self ..
    refine h.set ⟨s₀, hCoherent'⟩ hCommitted (fun j hNe => ?_) (fun t ht => ?_) fun hGone => ?_
    · exact (update_of_ne hNe ..).trans (hOthers j hNe)
    · rw [hThere] at ht
      cases ht
      exact connOk_start hCommitted _ rfl rfl
    · exact ⟨rfl, rfl⟩

theorem Inv.commit {i : τ} (hStep : step fts s (.commit i) = some s') : Inv fts s' := by
  obtain ⟨w, hWorld, rfl⟩ := map_eq_some_iff.mp hStep
  split at hWorld
  · obtain ⟨hCoherent, hCommitted, hGone, hOthers⟩ := flushAndCommit_spec h hWorld
    refine h.set hCoherent hCommitted hOthers (fun t ht => ?_) fun _ => ⟨rfl, rfl⟩
    rw [hGone] at ht
    cases ht
  · exact h.abort hWorld

theorem Inv.rollback {i : τ} (hStep : step fts s (.rollback i) = some s') : Inv fts s' := by
  obtain ⟨w, hWorld, rfl⟩ := map_eq_some_iff.mp hStep
  exact h.abort hWorld

theorem Inv.alter {cf : κ} {keynr : Nat → Nat} (hCondition : Condition fts s (.alter cf keynr))
    (hStep : step fts s (.alter cf keynr) = some s') : Inv fts s' := by
  cases hStep
  have hSame : ∀ cf', ∀ n < (fts cf').length, update s.keynr cf keynr cf' n = s.keynr cf' n := by
    intro cf' n hn
    obtain rfl | hNe := eq_or_ne cf' cf
    · rw [update_self]
      exact hCondition n hn
    · rw [update_of_ne hNe]
  refine ⟨h.coherent, fun cf' a ha b hb hEq => ?_, h.committed.congr hSame, fun ht => (h.conns ht).congr hSame,
    h.idle⟩
  dsimp only at hEq
  rw [hSame cf' a ha, hSame cf' b hb] at hEq
  exact h.numbered cf' ha hb hEq

theorem Inv.step {a : Action τ κ ι} (hCondition : Condition fts s a) (hStep : step fts s a = some s') : Inv fts s' := by
  cases a with
  | start i => exact h.start hStep
  | lock i => exact h.lock hStep
  | row i cf checked c => exact h.row hCondition hStep
  | stmtCommit i => exact h.stmtCommit hStep
  | stmtRollback i => exact h.stmtRollback hStep
  | savepointSet i slot => exact h.savepointSet hStep
  | savepointRollback i slot => exact h.savepointRollback hCondition hStep
  | bulkCommit i => exact h.bulkCommit hStep
  | commit i => exact h.commit hStep
  | rollback i => exact h.rollback hStep
  | alter cf keynr => exact h.alter hCondition hStep

end

def init (store : Store (Key κ) (Val ι)) (keynr : κ → Nat → Nat) : State τ κ ι :=
  ⟨Snapshot.init store, fun _ => .idle, keynr⟩

/-- The totals are those of the rows in every run in which a rollback to a savepoint takes back nothing that they
count and the indexes keep their numbers. -/
theorem totals_match_rows {store : Store (Key κ) (Val ι)} {keynr : κ → Nat → Nat}
    (hNumbered : ∀ cf, Set.InjOn (keynr cf) (Set.Iio (fts cf).length)) (hFirst : Tallied fts keynr store)
    (hReach : Reach (step fts) (Condition fts) (init store keynr : State τ κ ι) s) :
    Tallied fts s.keynr s.world.committed := by
  have hInit : Inv fts (init store keynr : State τ κ ι) :=
    ⟨⟨store, coherent_init store⟩, hNumbered, hFirst, nofun, fun _ => ⟨rfl, rfl⟩⟩
  exact (hReach.invariant (Inv fts) hInit fun _ _ _ h hCondition hStep => h.step hCondition hStep).committed

end Runs

section Samples

/-- What the server itself keeps to: the row calls are in order, and no two indexes of a table have one number. -/
def Contract {τ κ ι : Type} [DecidableEq κ] (fts : κ → List (FtsIndex ι)) (s : State τ κ ι) : Action τ κ ι → Prop
  | .row i cf checked c => ∀ t, s.world.active i = some t → CallOk t.view cf checked c
  | .alter cf keynr => ∀ m < (fts cf).length, ∀ n < (fts cf).length, keynr m = keynr n → m = n
  | _ => True

instance instFintypePart : Fintype Part := ⟨{.docs, .words}, fun p => by cases p <;> decide⟩

variable {τ κ ι : Type} [DecidableEq κ]

def undone (s : State τ κ ι) (i : τ) (slot : Nat) : Option (Txn (Key κ) (Val ι) × Nat) :=
  (s.world.active i).bind fun t => ((s.conn i).savepoints.dropWhile fun e => e.1 ≠ slot).head?.map fun e => (t, e.2)

theorem condition_savepointRollback_iff {fts : κ → List (FtsIndex ι)} {s : State τ κ ι} {i : τ} {slot : Nat} :
    Condition fts s (.savepointRollback i slot) ↔ ∀ x ∈ undone s i slot, ∀ cf, ∀ f ∈ fts cf, ∀ p,
      tally (weight cf f p) (applyAll x.1.snapshot (opsOf (x.1.batches.drop (x.1.batches.length - x.2)))) =
        tally (weight cf f p) x.1.view := by
  constructor
  · intro h x hx
    obtain ⟨t, ht, hHead⟩ := bind_eq_some_iff.mp hx
    obtain ⟨e, he, rfl⟩ := map_eq_some_iff.mp hHead
    obtain ⟨older, hOlder⟩ := List.head?_eq_some_iff.mp he
    exact h t e.1 e.2 older ht hOlder
  · intro h t m n older ht hOlder
    refine h (t, n) ?_
    rw [undone, ht, bind_some, hOlder]
    rfl

variable [Fintype κ] [Fintype ι]

instance instDecidableCallOk (view : Store (Key κ) (Val ι)) (cf : κ) (checked : Bool) (c : RowCall ι) :
    Decidable (CallOk view cf checked c) :=
  match c with
  | .insert pk _ => decidable_of_iff (checked = false → (rowAt view cf pk).isNone) (by rw [CallOk, isNone_iff_eq_none])
  | .update pk pk' r' writeSet =>
    decidable_of_iff ((checked = false → pk ≠ pk' → (rowAt view cf pk').isNone) ∧
      ∀ r ∈ rowAt view cf pk, ∀ c, writeSet c = false → r' c = r c) (by rw [CallOk, isNone_iff_eq_none]; rfl)
  | .delete _ => .isTrue trivial

instance instDecidableContract (fts : κ → List (FtsIndex ι)) (s : State τ κ ι) (a : Action τ κ ι) :
    Decidable (Contract fts s a) :=
  match a with
  | .row i cf checked c =>
    inferInstanceAs (Decidable (∀ t ∈ s.world.active i, CallOk t.view cf checked c))
  | .alter cf keynr =>
    inferInstanceAs (Decidable (∀ m < (fts cf).length, ∀ n < (fts cf).length, keynr m = keynr n → m = n))
  | .start _ | .lock _ | .stmtCommit _ | .stmtRollback _ | .savepointSet _ _ | .savepointRollback _ _
  | .bulkCommit _ | .commit _ | .rollback _ => .isTrue trivial

instance instDecidableCondition (fts : κ → List (FtsIndex ι)) (s : State τ κ ι) (a : Action τ κ ι) :
    Decidable (Condition fts s a) :=
  match a with
  | .row i cf checked c =>
    inferInstanceAs (Decidable (∀ t ∈ s.world.active i, CallOk t.view cf checked c))
  | .savepointRollback _ _ => decidable_of_iff _ condition_savepointRollback_iff.symm
  | .alter cf keynr => inferInstanceAs (Decidable (∀ n < (fts cf).length, keynr n = s.keynr cf n))
  | .start _ | .lock _ | .stmtCommit _ | .stmtRollback _ | .savepointSet _ _
  | .bulkCommit _ | .commit _ | .rollback _ => .isTrue trivial

def textIndex : Unit → List (FtsIndex Unit) := fun _ => [⟨[()], fun text => text.map fun b => [b]⟩]

def text (words : Bytes) : Row Unit := fun _ => some words

def insertRow (i : Bool) (pk : UInt8) (words : Bytes) : List (Action Bool Unit Unit) :=
  [.lock i, .row i () true (.insert [pk] (text words)), .stmtCommit i]

def careful : List (Action Bool Unit Unit) :=
  [.start false] ++ insertRow false 1 [5, 6, 7] ++ [.savepointSet false 0, .savepointRollback false 0] ++
    [.lock false, .row false () true (.insert [2] (text [5])), .stmtRollback false, .commit false] ++
    [.start true, .lock true, .row true () true (.update [1] [3] (text [5, 6]) fun _ => true), .bulkCommit true,
      .row true () true (.insert [4] (text [8])), .stmtCommit true, .commit true]

theorem careful_totals : ∃ s : State Bool Unit Unit,
    Reach (step textIndex) (Condition textIndex) (init Store.empty fun _ n => n) s ∧
      ftsLoadMeta s.world.committed () 0 = (2, 3) ∧ Tallied textIndex s.keynr s.world.committed := by
  have hEnds : (guardedRun (step textIndex) (Condition textIndex) (init Store.empty fun _ n => n) careful).any
      (fun s => ftsLoadMeta s.world.committed () 0 = (2, 3)) = true := by decide +kernel
  obtain ⟨s, hReach, hTotals⟩ := reach_of_any_guardedRun hEnds
  have hFirst : Tallied textIndex (fun _ n => n) Store.empty := by
    intro cf n f _ p
    cases p with
    | docs | words => rfl
  exact ⟨s, hReach, of_decide_eq_true hTotals, totals_match_rows (fun _ _ _ _ _ hEq => hEq) hFirst hReach⟩

def savepointRun : List (Action Bool Unit Unit) :=
  [.start false] ++ insertRow false 1 [5, 6, 7] ++ [.savepointSet false 0] ++ insertRow false 2 [5] ++
    [.savepointRollback false 0, .commit false]

/-- A row that a rollback to a savepoint has taken back is counted all the same. -/
theorem undone_row_counted : ¬ ∀ s : State Bool Unit Unit,
    Reach (step textIndex) (Contract textIndex) (init Store.empty fun _ n => n) s →
      Tallied textIndex s.keynr s.world.committed := by
  intro hAll
  have hEnds : (guardedRun (step textIndex) (Contract textIndex) (init Store.empty fun _ n => n) savepointRun).any
      (fun s => Part.docs.of (ftsLoadMeta s.world.committed () (s.keynr () 0)) ≠
        tally (weight () ⟨[()], fun text => text.map fun b => [b]⟩ .docs) s.world.committed) = true := by
    decide +kernel
  obtain ⟨s, hReach, hWrong⟩ := reach_of_any_guardedRun hEnds
  exact of_decide_eq_true hWrong (hAll s hReach () 0 _ rfl .docs)

end Samples

end TideSql.FtsTotals
