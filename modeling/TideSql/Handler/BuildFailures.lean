import TideSql.Handler.IndexBuild
import TideSql.Handler.IndexRead

/-!
# Failures during an in-place build

The scan of the data family fills the added indexes and commits them batch by batch. Most failed calls end the
statement.
-/

namespace TideSql.BuildFailures
open SortKey IndexBuild InplaceCheck Lib List Prod
open IndexRead (keyNsData)

/-- Which calls succeed, of those whose failure ends the statement. -/
structure Loud where
  begin : Bool
  iterNew : Bool
  put : Bytes → Nat → Bool
  killed : Nat → Bool
  commit : Nat → Bool
  reset : Nat → Bool
  beginAgain : Nat → Bool
  iterNewAgain : Nat → Bool
  finalCommit : Bool

/-- Which calls succeed, of those whose failure goes by: by the key of the entry, and by the batch. -/
structure Silent where
  seekToFirst : Bool
  keyValue : Bytes → Bool
  /-- By the entry the iterator is to move on from. -/
  next : Bytes → Bool
  seek : Nat → Bool

def isData (key : Bytes) : Bool := key.head? = some keyNsData

def Silent.readable (silent : Silent) (key : Bytes) : Bool := silent.keyValue key && isData key

/-- What is ahead of the iterator after `tidesdb_iter_next`, whose result the build does not look at: a move that
fails leaves it without a position. -/
def iterNext {ρ : Type} (silent : Silent) (key : Bytes) (rest : List (Bytes × ρ)) : List (Bytes × ρ) :=
  if silent.next key then rest else []

section Model

variable {ρ κ : Type} [DecidableEq κ] (content : SortedMap Bytes ρ) (adds : List (IndexDef ρ κ)) (loud : Loud)
  (silent : Silent)

structure Build (ρ κ : Type) where
  remaining : List (Bytes × ρ)
  rowsProcessed : Nat
  index : List (IndexEntry κ Bytes)
  pending : List (IndexEntry κ Bytes)
  seen : List (Nat × κ)

inductive Outcome (κ : Type) where
  | failed
  | built (index : List (IndexEntry κ Bytes))

/-- The loop over the added indexes: the keys a UNIQUE index has seen and the entries of the batch, or
nothing for a duplicate or a failed put. -/
def addEntries (put : Nat → Bool) (pk : Bytes) (r : ρ) :
    List (IndexDef ρ κ × Nat) → List (Nat × κ) → List (IndexEntry κ Bytes) →
      Option (List (Nat × κ) × List (IndexEntry κ Bytes))
  | [], seen, pending => some (seen, pending)
  | (d, a) :: ds, seen, pending =>
    let constrains := d.unique && !d.hasNull r
    if constrains && seen.any (· = (a, d.key r)) then none
    else if !put a then none
    else addEntries put pk r ds (if constrains then seen ++ [(a, d.key r)] else seen) (pending ++ [(a, d.key r, pk)])

def inplaceAddRowEntries (b : Build ρ κ) (key : Bytes) (r : ρ) : Option (List (Nat × κ) × List (IndexEntry κ Bytes)) :=
  addEntries (loud.put key) (key.drop 1) r (filled adds) b.seen b.pending

inductive BatchResult (ρ κ : Type) where
  | abort
  | endScan (b : Build ρ κ)
  | resume (b : Build ρ κ)

omit [DecidableEq κ] in
def inplaceBatchCommitReseek (n : Nat) (lastDataKey : Bytes) (b : Build ρ κ) : BatchResult ρ κ :=
  if !loud.commit n then .abort
  else if !loud.reset n && !loud.beginAgain n then .abort
  else if !loud.iterNewAgain n then .abort
  else
    let b := { b with index := b.index ++ b.pending, pending := [] }
    if !silent.seek n then .endScan b
    else .resume { b with remaining := iterNext silent lastDataKey (content.seek lastDataKey).tail }

def finalCommit (b : Build ρ κ) : Outcome κ := if loud.finalCommit then .built (b.index ++ b.pending) else .failed

def inplaceScanAndBuild : Nat → Build ρ κ → Option (Outcome κ)
  | 0, _ => none
  | fuel + 1, b =>
    match b.remaining with
    | [] => some (finalCommit loud b)
    | (key, r) :: rest =>
      if !silent.readable key then inplaceScanAndBuild fuel { b with remaining := iterNext silent key rest }
      else
        match inplaceAddRowEntries adds loud b key r with
        | none => some .failed
        | some (seen, pending) =>
          let b := { b with remaining := rest, rowsProcessed := b.rowsProcessed + 1, seen := seen, pending := pending }
          if b.rowsProcessed % indexBuildBatch = 0 then
            if loud.killed (b.rowsProcessed / indexBuildBatch) then some .failed
            else
              match inplaceBatchCommitReseek content loud silent (b.rowsProcessed / indexBuildBatch) key b with
              | .abort => some .failed
              | .endScan b => some (finalCommit loud b)
              | .resume b => inplaceScanAndBuild fuel b
          else inplaceScanAndBuild fuel { b with remaining := iterNext silent key rest }

def inplaceAlterTable : Option (Outcome κ) :=
  if adds.isEmpty then some (.built [])
  else if !loud.begin || !loud.iterNew then some .failed
  else
    inplaceScanAndBuild content adds loud silent (content.entries.length + 1)
      ⟨if silent.seekToFirst then content.entries else [], 0, [], [], []⟩

end Model

section Specification

variable {ρ κ : Type} (content : SortedMap Bytes ρ) (adds : List (IndexDef ρ κ)) (silent : Silent)

def rows : List (Bytes × ρ) := content.entries.filter fun e => isData e.1

/-- How many of the entries up to a key are rows that can be read. -/
def readUpTo (silent : Silent) (l : List (Bytes × ρ)) (key : Bytes) : Nat :=
  (l.filter fun e => silent.readable e.1 && decide (e.1 ≤ key)).length

/-- The build comes to a row and can read it: the first seek succeeds, every entry before the row is moved on from,
and so is the end of every batch before it. -/
structure Reached (e : Bytes × ρ) : Prop where
  mem : e ∈ content.entries
  read : silent.readable e.1 = true
  first : silent.seekToFirst = true
  passed : ∀ e' ∈ content.entries, e'.1 < e.1 → silent.next e'.1 = true ∧
    (silent.readable e'.1 = true → readUpTo silent content.entries e'.1 % indexBuildBatch = 0 →
      silent.seek (readUpTo silent content.entries e'.1 / indexBuildBatch) = true)

/-- Two of the rows the build comes to have the same key in a UNIQUE index. -/
def Clash : Prop :=
  ∃ e e', Reached content silent e ∧ Reached content silent e' ∧ e ≠ e' ∧
    ∃ c ∈ constrained adds e.2, c ∈ constrained adds e'.2

/-- The rows one after the other as the loop reads them. -/
def rowsSeen : Nat → List (Bytes × ρ) → List (Bytes × ρ)
  | _, [] => []
  | n, e :: rest =>
    if !silent.readable e.1 then if silent.next e.1 then rowsSeen n rest else []
    else
      e :: if ((n + 1) % indexBuildBatch = 0 ∧ silent.seek ((n + 1) / indexBuildBatch) = false) ∨
          silent.next e.1 = false then [] else rowsSeen (n + 1) rest

def scanned : List (Bytes × ρ) := rowsSeen silent 0 (if silent.seekToFirst then content.entries else [])

def entriesOf (l : List (Bytes × ρ)) : List (IndexEntry κ Bytes) := l.flatMap fun e => rowEntries adds (e.1.drop 1) e.2

def Complete (index : List (IndexEntry κ Bytes)) : Prop :=
  ∀ e ∈ rows content, ∀ x ∈ rowEntries adds (e.1.drop 1) e.2, x ∈ index

def Distinct (l : List (Bytes × ρ)) : Prop :=
  l.Pairwise fun e e' => ∀ c ∈ constrained adds e'.2, c ∉ constrained adds e.2

end Specification

section Row

variable {ρ κ : Type} {put : Nat → Bool} {pk : Bytes} {r : ρ}

def constrainedBy (r : ρ) (ds : List (IndexDef ρ κ × Nat)) : List (Nat × κ) :=
  (ds.filter fun d => d.1.unique && !d.1.hasNull r).map fun d => (d.2, d.1.key r)

theorem constrainedBy_cons (d : IndexDef ρ κ × Nat) (ds : List (IndexDef ρ κ × Nat)) :
    constrainedBy r (d :: ds) = (if d.1.unique && !d.1.hasNull r then [(d.2, d.1.key r)] else []) ++
      constrainedBy r ds := by
  rw [constrainedBy, filter_cons]
  split
  · rfl
  · rfl

theorem snd_of_constrainedBy {ds : List (IndexDef ρ κ × Nat)} {c : Nat × κ} (h : c ∈ constrainedBy r ds) :
    c.1 ∈ ds.map snd := by
  obtain ⟨d, hd, rfl⟩ := mem_map.mp h
  exact mem_map_of_mem (mem_of_mem_filter hd)

variable [DecidableEq κ]

theorem addEntries_eq_some {ds : List (IndexDef ρ κ × Nat)} (hTags : (ds.map snd).Nodup)
    {seen seen' : List (Nat × κ)} {pending pending' : List (IndexEntry κ Bytes)} :
    addEntries put pk r ds seen pending = some (seen', pending') ↔
      (∀ c ∈ constrainedBy r ds, c ∉ seen) ∧ (∀ d ∈ ds, put d.2 = true) ∧ seen' = seen ++ constrainedBy r ds ∧
        pending' = pending ++ ds.map fun d => (d.2, d.1.key r, pk) := by
  induction ds generalizing seen pending with
  | nil =>
    rw [addEntries, Option.some_inj, mk.injEq]
    simp only [constrainedBy, filter_nil, map_nil, not_mem_nil, false_implies, implies_true, true_and, append_nil]
    exact and_congr eq_comm eq_comm
  | cons d ds ih =>
    obtain ⟨d, a⟩ := d
    obtain ⟨hTag, hRestTags⟩ := nodup_cons.mp hTags
    have hOther : ∀ c ∈ constrainedBy r ds, c ≠ (a, d.key r) := by
      rintro c hc rfl
      exact hTag (snd_of_constrainedBy hc)
    rw [addEntries, constrainedBy_cons, map_cons, forall_mem_cons]
    dsimp only
    cases hPut : put a with
    | false => simp
    | true =>
      cases hConstrains : d.unique && !d.hasNull r with
      | false =>
        simp only [Bool.false_and, Bool.false_eq_true, if_false, Bool.not_true, nil_append, true_and]
        rw [ih hRestTags, append_assoc]
        rfl
      | true =>
        by_cases hSeen : (a, d.key r) ∈ seen
        · simp [hSeen]
        · have hAny : seen.any (· = (a, d.key r)) = false := by
            rw [any_eq_false]
            rintro c hc hEq
            exact hSeen (of_decide_eq_true hEq ▸ hc)
          simp only [hAny, Bool.and_false, Bool.false_eq_true, if_false, Bool.not_true, if_true, true_and]
          rw [ih hRestTags, append_assoc, append_assoc, singleton_append, singleton_append, forall_mem_cons]
          simp only [mem_append, mem_singleton, not_or]
          constructor
          · rintro ⟨hFresh, hRest⟩
            exact ⟨⟨hSeen, fun c hc => (hFresh c hc).1⟩, hRest⟩
          · rintro ⟨⟨-, hFresh⟩, hRest⟩
            exact ⟨fun c hc => ⟨hFresh c hc, hOther c hc⟩, hRest⟩

omit [DecidableEq κ] in
theorem nodup_filled (adds : List (IndexDef ρ κ)) : ((filled adds).map snd).Nodup := by
  refine Nodup.sublist (filter_sublist.map snd) ?_
  rw [zipIdx_map_snd]
  exact nodup_range'

theorem inplaceAddRowEntries_eq_some {adds : List (IndexDef ρ κ)} {loud : Loud} {b : Build ρ κ} {key : Bytes}
    {seen : List (Nat × κ)} {pending : List (IndexEntry κ Bytes)} :
    inplaceAddRowEntries adds loud b key r = some (seen, pending) ↔
      (∀ c ∈ constrained adds r, c ∉ b.seen) ∧ (∀ d ∈ filled adds, loud.put key d.2 = true) ∧
        seen = b.seen ++ constrained adds r ∧ pending = b.pending ++ rowEntries adds (key.drop 1) r :=
  addEntries_eq_some (nodup_filled adds)

end Row

section Scan

variable {ρ κ : Type} {adds : List (IndexDef ρ κ)} {silent : Silent}

structure Fresh (adds : List (IndexDef ρ κ)) (seen : List (Nat × κ)) (l : List (Bytes × ρ)) : Prop where
  unseen : ∀ e ∈ l, ∀ c ∈ constrained adds e.2, c ∉ seen
  distinct : Distinct adds l

theorem fresh_nil (seen : List (Nat × κ)) : Fresh adds seen [] := ⟨fun _ h => absurd h not_mem_nil, .nil⟩

theorem fresh_cons {seen : List (Nat × κ)} {e : Bytes × ρ} {l : List (Bytes × ρ)} : Fresh adds seen (e :: l) ↔
      (∀ c ∈ constrained adds e.2, c ∉ seen) ∧ Fresh adds (seen ++ constrained adds e.2) l := by
  constructor
  · rintro ⟨hUnseen, hDistinct⟩
    obtain ⟨hHead, hTail⟩ := pairwise_cons.mp hDistinct
    refine ⟨hUnseen e mem_cons_self, fun e' he' c hc hMem => ?_, hTail⟩
    obtain hMem | hMem := mem_append.mp hMem
    · exact hUnseen e' (mem_cons_of_mem e he') c hc hMem
    · exact hHead e' he' c hc hMem
  · rintro ⟨hHead, hUnseen, hDistinct⟩
    refine ⟨fun e' he' c hc hMem => ?_, pairwise_cons.mpr ⟨fun e' he' c hc hMem => ?_, hDistinct⟩⟩
    · obtain rfl | he' := mem_cons.mp he'
      · exact hHead c hc hMem
      · exact hUnseen e' he' c hc (mem_append_left _ hMem)
    · exact hUnseen e' he' c hc (mem_append_right _ hMem)

theorem entriesOf_cons (e : Bytes × ρ) (l : List (Bytes × ρ)) :
    entriesOf adds (e :: l) = rowEntries adds (e.1.drop 1) e.2 ++ entriesOf adds l := flatMap_cons

theorem rowsSeen_skip {n : Nat} {e : Bytes × ρ} {rest : List (Bytes × ρ)} (h : (!silent.readable e.1) = true) :
    rowsSeen silent n (e :: rest) = rowsSeen silent n (iterNext silent e.1 rest) := by
  rw [rowsSeen, if_pos h, iterNext]
  split
  · rfl
  · rfl

theorem rowsSeen_read {n : Nat} {e : Bytes × ρ} {rest : List (Bytes × ρ)} (h : ¬(!silent.readable e.1) = true)
    (hSeek : (n + 1) % indexBuildBatch = 0 → silent.seek ((n + 1) / indexBuildBatch) = true) :
    rowsSeen silent n (e :: rest) = e :: rowsSeen silent (n + 1) (iterNext silent e.1 rest) := by
  rw [rowsSeen, if_neg h, iterNext, List.cons_inj_right]
  cases hNext : silent.next e.1 with
  | false => rw [if_pos (.inr rfl), if_neg Bool.false_ne_true, rowsSeen]
  | true =>
    rw [if_pos rfl, if_neg]
    rintro (⟨hBatch, hStops⟩ | hStops)
    · exact Bool.false_ne_true (hStops.symm.trans (hSeek hBatch))
    · exact Bool.false_ne_true hStops.symm

def calm : Loud :=
  ⟨true, true, fun _ _ => true, fun _ => false, fun _ => true, fun _ => true, fun _ => true, fun _ => true, true⟩

structure Ends (adds : List (IndexDef ρ κ)) (loud : Loud) (seen : List (Nat × κ)) (behind : List (IndexEntry κ Bytes))
    (ahead : List (Bytes × ρ)) (o : Outcome κ) : Prop where
  built : ∀ index, o = .built index → Fresh adds seen ahead ∧ index = behind ++ entriesOf adds ahead
  calm : loud = calm → Fresh adds seen ahead → o = .built (behind ++ entriesOf adds ahead)

variable {loud : Loud} {seen : List (Nat × κ)} {behind : List (IndexEntry κ Bytes)} {ahead : List (Bytes × ρ)}

theorem ends_failed (h : loud = calm → ¬Fresh adds seen ahead) : Ends adds loud seen behind ahead .failed where
  built _ hBuilt := by cases hBuilt
  calm hCalm hFresh := absurd hFresh (h hCalm)

theorem ends_finalCommit {b : Build ρ κ} (hBehind : behind = b.index ++ b.pending) :
    Ends adds loud seen behind [] (finalCommit loud b) where
  built index hBuilt := by
    rw [finalCommit] at hBuilt
    split at hBuilt
    · cases hBuilt
      exact ⟨fresh_nil _, hBehind ▸ (append_nil _).symm⟩
    · cases hBuilt
  calm hCalm _ := by
    rw [finalCommit, hCalm, hBehind]
    exact congrArg Outcome.built (append_nil _).symm

theorem Ends.cons {e : Bytes × ρ} {o : Outcome κ} (hUnseen : ∀ c ∈ constrained adds e.2, c ∉ seen)
    (h : Ends adds loud (seen ++ constrained adds e.2) (behind ++ rowEntries adds (e.1.drop 1) e.2) ahead o) :
    Ends adds loud seen behind (e :: ahead) o where
  built index hBuilt := by
    obtain ⟨hFresh, rfl⟩ := h.built index hBuilt
    refine ⟨fresh_cons.mpr ⟨hUnseen, hFresh⟩, ?_⟩
    rw [entriesOf_cons, append_assoc]
  calm hCalm hFresh := by
    rw [h.calm hCalm (fresh_cons.mp hFresh).2, entriesOf_cons, append_assoc]

variable {content : SortedMap Bytes ρ}

theorem inplaceBatchCommitReseek_cases (loud : Loud) (silent : Silent) (n : Nat) {e : Bytes × ρ}
    {done : List (Bytes × ρ)} {b : Build ρ κ} (hSplit : content.entries = done ++ e :: b.remaining) :
    (inplaceBatchCommitReseek content loud silent n e.1 b = .abort ∧ loud ≠ calm) ∨
      (silent.seek n = false ∧ inplaceBatchCommitReseek content loud silent n e.1 b =
        .endScan { b with index := b.index ++ b.pending, pending := [] }) ∨
      (silent.seek n = true ∧ inplaceBatchCommitReseek content loud silent n e.1 b =
        .resume { b with
          index := b.index ++ b.pending, pending := [], remaining := iterNext silent e.1 b.remaining }) := by
  rw [inplaceBatchCommitReseek, SortedMap.tail_seek_of_split hSplit]
  by_cases hCommit : loud.commit n = true
  · by_cases hBegun : (!loud.reset n && !loud.beginAgain n) = true
    · refine .inl ⟨by simp [hCommit, hBegun], ?_⟩
      rintro rfl
      cases hBegun
    · by_cases hIter : loud.iterNewAgain n = true
      · refine .inr ?_
        cases hSeek : silent.seek n with
        | false => exact .inl ⟨rfl, by simp [hCommit, hBegun, hIter]⟩
        | true => exact .inr ⟨rfl, by simp [hCommit, hBegun, hIter]⟩
      · refine .inl ⟨by simp [hCommit, hBegun, hIter], ?_⟩
        rintro rfl
        exact hIter rfl
  · refine .inl ⟨by simp [hCommit], ?_⟩
    rintro rfl
    exact hCommit rfl

theorem iterNext_suffix (silent : Silent) (key : Bytes) (rest : List (Bytes × ρ)) :
    iterNext silent key rest <:+ rest := by
  rw [iterNext]
  split
  · exact suffix_refl rest
  · exact nil_suffix

theorem scan_ends [DecidableEq κ] {fuel : Nat} {b : Build ρ κ} (hAhead : b.remaining <:+ content.entries)
    (hFuel : b.remaining.length < fuel) :
    ∃ o, inplaceScanAndBuild content adds loud silent fuel b = some o ∧
      Ends adds loud b.seen (b.index ++ b.pending) (rowsSeen silent b.rowsProcessed b.remaining) o := by
  induction fuel generalizing b with
  | zero => exact absurd hFuel (Nat.not_lt_zero _)
  | succ fuel ih =>
    obtain ⟨remaining, n, index, pending, seen⟩ := b
    cases remaining with
    | nil => exact ⟨_, rfl, ends_finalCommit rfl⟩
    | cons e rest =>
      have hNext := iterNext_suffix silent e.1 rest
      have hRest : iterNext silent e.1 rest <:+ content.entries := hNext.trans ((suffix_cons e rest).trans hAhead)
      have hLess : (iterNext silent e.1 rest).length < fuel :=
        Nat.lt_of_le_of_lt hNext.length_le (Nat.lt_of_succ_lt_succ hFuel)
      rw [inplaceScanAndBuild]
      dsimp only at hAhead ⊢
      by_cases hSkip : (!silent.readable e.1) = true
      · rw [if_pos hSkip, rowsSeen_skip hSkip]
        exact ih (b := ⟨iterNext silent e.1 rest, n, index, pending, seen⟩) hRest hLess
      · rw [if_neg hSkip]
        cases hAdd : inplaceAddRowEntries adds loud ⟨e :: rest, n, index, pending, seen⟩ e.1 e.2 with
        | none =>
          refine ⟨_, rfl, ends_failed fun hCalm hFresh => ?_⟩
          have hPuts : ∀ d ∈ filled adds, loud.put e.1 d.2 = true := fun d _ => by rw [hCalm]; rfl
          rw [rowsSeen, if_neg hSkip] at hFresh
          cases hAdd.symm.trans (inplaceAddRowEntries_eq_some.mpr ⟨(fresh_cons.mp hFresh).1, hPuts, rfl, rfl⟩)
        | some added =>
          obtain ⟨seen', pending'⟩ := added
          obtain ⟨hUnseen, -, rfl, rfl⟩ := inplaceAddRowEntries_eq_some.mp hAdd
          have hGoesOn (index' pending' : List (IndexEntry κ Bytes))
              (hSame : index' ++ pending' = index ++ (pending ++ rowEntries adds (e.1.drop 1) e.2))
              (hSeek : (n + 1) % indexBuildBatch = 0 → silent.seek ((n + 1) / indexBuildBatch) = true) :
              ∃ o, inplaceScanAndBuild content adds loud silent fuel
                  ⟨iterNext silent e.1 rest, n + 1, index', pending', seen ++ constrained adds e.2⟩ = some o ∧
                Ends adds loud seen (index ++ pending) (rowsSeen silent n (e :: rest)) o := by
            obtain ⟨o, ho, hEnds⟩ := ih (b := ⟨iterNext silent e.1 rest, n + 1, index', pending',
              seen ++ constrained adds e.2⟩) hRest hLess
            dsimp only at hEnds
            rw [hSame, ← append_assoc] at hEnds
            rw [rowsSeen_read hSkip hSeek]
            exact ⟨o, ho, hEnds.cons hUnseen⟩
          dsimp only
          by_cases hBatch : (n + 1) % indexBuildBatch = 0
          · rw [if_pos hBatch]
            by_cases hKilled : loud.killed ((n + 1) / indexBuildBatch) = true
            · refine ⟨.failed, if_pos hKilled, ends_failed fun hCalm => ?_⟩
              rw [hCalm] at hKilled
              cases hKilled
            · rw [if_neg hKilled]
              obtain ⟨done, hSplit⟩ := hAhead
              obtain ⟨hAbort, hLoud⟩ | ⟨hSeek, hEnd⟩ | ⟨hSeek, hResume⟩ := inplaceBatchCommitReseek_cases
                loud silent ((n + 1) / indexBuildBatch)
                (b := ⟨rest, n + 1, index, pending ++ rowEntries adds (e.1.drop 1) e.2, seen ++ constrained adds e.2⟩)
                hSplit.symm
              · rw [hAbort]
                exact ⟨_, rfl, ends_failed fun hCalm => absurd hCalm hLoud⟩
              · rw [hEnd, rowsSeen, if_neg hSkip, if_pos (.inl ⟨hBatch, hSeek⟩)]
                refine ⟨_, rfl, .cons hUnseen (ends_finalCommit ?_)⟩
                rw [append_nil, append_assoc]
              · rw [hResume]
                exact hGoesOn _ [] (append_nil _) fun _ => hSeek
          · rw [if_neg hBatch]
            exact hGoesOn _ _ rfl fun hStops => absurd hStops hBatch

theorem alter_ends [DecidableEq κ] (content : SortedMap Bytes ρ) (adds : List (IndexDef ρ κ)) (loud : Loud)
    (silent : Silent) :
    ∃ o, inplaceAlterTable content adds loud silent = some o ∧ Ends adds loud [] [] (scanned content silent) o := by
  rw [inplaceAlterTable]
  by_cases hNone : adds.isEmpty = true
  · obtain rfl := isEmpty_iff.mp hNone
    have hFresh (l : List (Bytes × ρ)) : Fresh ([] : List (IndexDef ρ κ)) [] l := by
      induction l with
      | nil => exact fresh_nil _
      | cons e l ih => exact fresh_cons.mpr ⟨fun _ hc => absurd hc not_mem_nil, ih⟩
    have hBare (l : List (Bytes × ρ)) : entriesOf ([] : List (IndexDef ρ κ)) l = [] := by
      induction l with
      | nil => rfl
      | cons e l ih => rw [entriesOf_cons, ih]; rfl
    refine ⟨_, if_pos hNone, fun index hBuilt => ⟨hFresh _, ?_⟩, fun _ _ => ?_⟩
    · cases hBuilt
      rw [hBare]
      rfl
    · rw [hBare]
      rfl
  · rw [if_neg hNone]
    by_cases hBegun : (!loud.begin || !loud.iterNew) = true
    · refine ⟨_, if_pos hBegun, ends_failed fun hCalm => ?_⟩
      rw [hCalm] at hBegun
      cases hBegun
    · rw [if_neg hBegun, scanned]
      cases silent.seekToFirst with
      | false => exact scan_ends nil_suffix (Nat.succ_pos _)
      | true => exact scan_ends (suffix_refl _) (Nat.lt_succ_self _)

end Scan

section Seen

variable {ρ κ : Type} {adds : List (IndexDef ρ κ)} {silent : Silent} {content : SortedMap Bytes ρ}

theorem readUpTo_cons {e e' : Bytes × ρ} {l : List (Bytes × ρ)} (hLt : e.1 < e'.1) :
    readUpTo silent (e :: l) e'.1 = (if silent.readable e.1 then 1 else 0) + readUpTo silent l e'.1 := by
  rw [readUpTo, filter_cons, readUpTo, decide_eq_true (le_of_lt hLt), Bool.and_true]
  split
  · rw [length_cons, Nat.add_comm]
  · rw [Nat.zero_add]

theorem readUpTo_head {e : Bytes × ρ} {l : List (Bytes × ρ)} (hLt : ∀ e' ∈ l, e.1 < e'.1)
    (hRead : silent.readable e.1 = true) : readUpTo silent (e :: l) e.1 = 1 := by
  have hNone : (l.filter fun e' => silent.readable e'.1 && decide (e'.1 ≤ e.1)) = [] := by
    rw [filter_eq_nil_iff]
    intro e' he' hLe
    exact absurd (of_decide_eq_true (Bool.and_eq_true_iff.mp hLe).2) (not_le_of_gt (hLt e' he'))
  rw [readUpTo, filter_cons, if_pos (by rw [hRead, decide_eq_true (le_refl _)]; rfl), hNone, length_singleton]

theorem mem_rowsSeen_cons {n : Nat} {a e : Bytes × ρ} {l : List (Bytes × ρ)} :
    e ∈ rowsSeen silent n (a :: l) ↔ (silent.readable a.1 = true ∧ e = a) ∨
      (silent.next a.1 = true ∧ (silent.readable a.1 = true → (n + 1) % indexBuildBatch = 0 →
        silent.seek ((n + 1) / indexBuildBatch) = true)) ∧
        e ∈ rowsSeen silent (n + if silent.readable a.1 then 1 else 0) l := by
  rw [rowsSeen]
  cases silent.readable a.1 with
  | false => cases silent.next a.1 <;> simp
  | true =>
    simp only [Bool.not_true, Bool.false_eq_true, if_false, mem_cons, true_and, if_true, true_imp_iff]
    refine or_congr_right ?_
    split
    · rename_i hStops
      refine ⟨fun h => absurd h not_mem_nil, fun ⟨⟨hNext, hSeek⟩, _⟩ => ?_⟩
      obtain ⟨hBatch, hFails⟩ | hFails := hStops
      · exact absurd (hFails.symm.trans (hSeek hBatch)) Bool.false_ne_true
      · exact absurd (hFails.symm.trans hNext) Bool.false_ne_true
    · rename_i hGoesOn
      obtain ⟨hSeek, hNext⟩ := not_or.mp hGoesOn
      refine (and_iff_right ⟨Bool.eq_true_of_not_eq_false hNext, fun hBatch => ?_⟩).symm
      exact Bool.eq_true_of_not_eq_false fun hFails => hSeek ⟨hBatch, hFails⟩

/-- The rows the loop reads are those it comes to; by induction on what is ahead, with the rows read so far. -/
theorem mem_rowsSeen_iff {n : Nat} {l : List (Bytes × ρ)} (hSorted : l.Pairwise fun a b => a.1 < b.1) {e : Bytes × ρ} :
    e ∈ rowsSeen silent n l ↔ e ∈ l ∧ silent.readable e.1 = true ∧ ∀ e' ∈ l, e'.1 < e.1 → silent.next e'.1 = true ∧
      (silent.readable e'.1 = true → (n + readUpTo silent l e'.1) % indexBuildBatch = 0 →
        silent.seek ((n + readUpTo silent l e'.1) / indexBuildBatch) = true) := by
  induction l generalizing n with
  | nil => simp [rowsSeen]
  | cons a l ih =>
    obtain ⟨hHead, hTail⟩ := pairwise_cons.mp hSorted
    have hCount : ∀ e' ∈ l, n + readUpTo silent (a :: l) e'.1 =
        n + (if silent.readable a.1 then 1 else 0) + readUpTo silent l e'.1 := fun e' he' => by
      rw [readUpTo_cons (hHead e' he'), Nat.add_assoc]
    rw [mem_rowsSeen_cons, ih hTail, mem_cons, forall_mem_cons]
    constructor
    · rintro (⟨hRead, rfl⟩ | ⟨⟨hNext, hSeek⟩, hIn, hRead, hPassed⟩)
      · refine ⟨.inl rfl, hRead, fun hLt => absurd hLt (lt_irrefl _), fun e' he' hLt => ?_⟩
        exact absurd hLt (lt_asymm (hHead e' he'))
      · refine ⟨.inr hIn, hRead, fun _ => ⟨hNext, fun hReadA => ?_⟩, fun e' he' hLt => ?_⟩
        · rw [readUpTo_head hHead hReadA]
          exact hSeek hReadA
        · rw [hCount e' he']
          exact hPassed e' he' hLt
    · rintro ⟨rfl | hIn, hRead, hFirst, hPassed⟩
      · exact .inl ⟨hRead, rfl⟩
      · obtain ⟨hNext, hSeek⟩ := hFirst (hHead e hIn)
        refine .inr ⟨⟨hNext, fun hReadA => ?_⟩, hIn, hRead, fun e' he' hLt => ?_⟩
        · have hAt := hSeek hReadA
          rwa [readUpTo_head hHead hReadA] at hAt
        · rw [← hCount e' he']
          exact hPassed e' he' hLt

theorem mem_scanned_iff {e : Bytes × ρ} : e ∈ scanned content silent ↔ Reached content silent e := by
  rw [scanned]
  constructor
  · intro h
    split at h
    · rename_i hFirst
      obtain ⟨hMem, hRead, hPassed⟩ := (mem_rowsSeen_iff content.sorted).mp h
      simp only [Nat.zero_add] at hPassed
      exact ⟨hMem, hRead, hFirst, hPassed⟩
    · cases h
  · intro h
    rw [if_pos h.first, mem_rowsSeen_iff content.sorted]
    simp only [Nat.zero_add]
    exact ⟨h.mem, h.read, h.passed⟩

theorem rowsSeen_sublist (n : Nat) (l : List (Bytes × ρ)) : (rowsSeen silent n l).Sublist l := by
  induction l generalizing n with
  | nil => exact Sublist.refl _
  | cons e l ih =>
    rw [rowsSeen]
    split
    · split
      · exact (ih n).cons e
      · exact nil_sublist _
    · refine Sublist.cons_cons e ?_
      split
      · exact nil_sublist _
      · exact ih (n + 1)

theorem nodup_scanned : (scanned content silent).Nodup := by
  have hAll : content.entries.Nodup := content.sorted.imp fun hLt => ne_of_apply_ne fst (ne_of_lt hLt)
  rw [scanned]
  split
  · exact hAll.sublist (rowsSeen_sublist 0 _)
  · exact nodup_nil

theorem distinct_scanned_iff : Distinct adds (scanned content silent) ↔ ¬Clash content adds silent := by
  have hSymm : Std.Symm fun e e' : Bytes × ρ => ∀ c ∈ constrained adds e'.2, c ∉ constrained adds e.2 :=
    ⟨fun _ _ h c hc hc' => h c hc' hc⟩
  constructor
  · rintro h ⟨e, e', he, he', hNe, c, hc, hc'⟩
    exact Pairwise.forall h (mem_scanned_iff.mpr he) (mem_scanned_iff.mpr he') hNe c hc' hc
  · intro h
    refine nodup_scanned.pairwise_of_forall_ne fun e he e' he' hNe c hc' hc => h ?_
    exact ⟨e, e', mem_scanned_iff.mp he, mem_scanned_iff.mp he', hNe, c, hc, hc'⟩

theorem eq_of_drop {e e' : Bytes × ρ} (he : e ∈ rows content) (he' : e' ∈ rows content)
    (hDrop : e.1.drop 1 = e'.1.drop 1) : e = e' := by
  obtain ⟨hMem, hData⟩ := mem_filter.mp he
  obtain ⟨hMem', hData'⟩ := mem_filter.mp he'
  have hKey (k : Bytes) (hk : isData k = true) : k = keyNsData :: k.drop 1 := by
    obtain ⟨rest, rfl⟩ := head?_eq_some_iff.mp (of_decide_eq_true hk)
    rfl
  obtain ⟨k, r⟩ := e
  obtain ⟨k', r'⟩ := e'
  obtain rfl : k = k' := by rw [hKey k hData, hKey k' hData', hDrop]
  rw [SortedMap.eq_of_mem hMem hMem']

theorem Reached.mem_rows {e : Bytes × ρ} (h : Reached content silent e) : e ∈ rows content :=
  mem_filter.mpr ⟨h.mem, (Bool.and_eq_true_iff.mp h.read).2⟩

theorem reached_of_complete (hSome : filled adds ≠ [])
    (h : Complete content adds (entriesOf adds (scanned content silent))) {e : Bytes × ρ} (he : e ∈ rows content) :
    Reached content silent e := by
  obtain ⟨d, hd⟩ := exists_mem_of_ne_nil _ hSome
  obtain ⟨e', he', hEntry⟩ := mem_flatMap.mp (h e he _ (mem_map_of_mem hd))
  obtain ⟨d', -, hEq⟩ := mem_map.mp hEntry
  have hDrop : e'.1.drop 1 = e.1.drop 1 := (mk.inj (mk.inj hEq).2).2
  have hReached := mem_scanned_iff.mp he'
  rwa [eq_of_drop hReached.mem_rows he hDrop] at hReached

/-- A build that reports success has an entry for every row exactly when no index is filled, the build comes to
every row, or two of the rows it comes to are refused as duplicates. -/
theorem build_complete_iff [DecidableEq κ] (content : SortedMap Bytes ρ) (adds : List (IndexDef ρ κ))
    (silent : Silent) :
    (∀ loud index, inplaceAlterTable content adds loud silent = some (.built index) → Complete content adds index) ↔
      filled adds = [] ∨ (∀ e ∈ rows content, Reached content silent e) ∨ Clash content adds silent := by
  constructor
  · intro h
    rw [or_iff_not_imp_left, or_iff_not_imp_right, ← distinct_scanned_iff]
    intro hSome hDistinct e he
    obtain ⟨o, ho, hEnds⟩ := alter_ends content adds calm silent
    rw [hEnds.calm rfl ⟨fun _ _ _ _ => not_mem_nil, hDistinct⟩] at ho
    exact reached_of_complete hSome (h calm _ ho) he
  · intro h loud index hBuilt
    obtain ⟨o, ho, hEnds⟩ := alter_ends content adds loud silent
    obtain ⟨hFresh, rfl⟩ := hEnds.built index (Option.some.inj (ho.symm.trans hBuilt))
    obtain hNone | hReached | hClash := h
    · intro e _ x hx
      rw [rowEntries, hNone] at hx
      cases hx
    · exact fun e he x hx => mem_flatMap.mpr ⟨e, mem_scanned_iff.mpr (hReached e he), hx⟩
    · exact absurd hClash (distinct_scanned_iff.mp hFresh.distinct)

end Seen

def oneRow : SortedMap Bytes Nat := ⟨[([keyNsData, 1], 7)], pairwise_singleton _ _⟩

def valueIndex : List (IndexDef Nat Nat) := [⟨[], .ordinary, id, fun _ => false, false⟩]

def twoRows : SortedMap Bytes Nat := ⟨[([keyNsData, 1], 7), ([keyNsData, 2], 8)], by decide⟩

/-- The only row cannot be read, or the first seek fails, or the iterator cannot be moved to the second row: the
statement succeeds and the index lacks the row. -/
theorem unread_row_left_out : ¬(∀ (silent : Silent) (index : List (IndexEntry Nat Bytes)),
      inplaceAlterTable oneRow valueIndex calm silent = some (.built index) → Complete oneRow valueIndex index) ∧
    inplaceAlterTable oneRow valueIndex calm ⟨false, fun _ => true, fun _ => true, fun _ => true⟩ = some (.built []) ∧
    inplaceAlterTable twoRows valueIndex calm ⟨true, fun _ => true, fun _ => false, fun _ => true⟩ =
      some (.built [(0, 7, [1])]) := by
  refine ⟨fun h => ?_, rfl, rfl⟩
  have hComplete := h ⟨true, fun _ => false, fun _ => true, fun _ => true⟩ [] rfl
  exact not_mem_nil (hComplete _ mem_cons_self _ mem_cons_self)

end TideSql.BuildFailures
