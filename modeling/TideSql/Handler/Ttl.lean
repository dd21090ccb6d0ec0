import TideSql.Handler.UniqueIndex

/-!
# Time to live

A row and its index entries are separate entries of the library, each with the duration its own put was given.
-/

namespace TideSql.Ttl
open KeyCodec SortKey IndexRead Lib Lib.Bytes Lib.Snapshot Lib.Run Lib.Expiry Dml List Nat

section Model

variable {ι β : Type}

/-- `make_comparable_key` once more, except that every field is written by `sort_string`. -/
def inplaceBuildIndexKey (sortString : SortStrings ι) (parts : List (KeyPart ι)) (record : Row ι) : Bytes :=
  makeComparableKey sortString parts record

def inplaceAddRowEntries (sortString : SortStrings ι) (unique : Bool) (parts : List (KeyPart ι)) :
    List (Bytes × Row ι) → List Bytes → Option (List (Op Bytes (Val ι)))
  | [], _ => some []
  | (pk, r) :: rows, seen =>
    let ik := inplaceBuildIndexKey sortString parts r
    let constrained := unique && !anyNull parts r
    if constrained && seen.contains ik then none
    else (inplaceAddRowEntries sortString unique parts rows (if constrained then ik :: seen else seen)).map
      (.put (ik ++ pk) (.bytes tdbEmptyVal) :: ·)

structure State (ι β : Type) where
  now : Nat
  table : Table ι β
  cells : Store Key (Cell (Val ι))

def State.view (st : State ι β) : Store Key (Val ι) := visible st.now st.cells

inductive Action (ι : Type) where
  | row (s : Session) (cachedSessTtl : Nat) (c : Call ι)
  | addIndex (unique : Bool) (parts : List (KeyPart ι))
  | tick (seconds : Nat)

def addedIndex (T : Table ι β) (x : IndexShape ι) : Table ι β := { T with indexes := T.indexes ++ [x] }

def step (opts : TtlOptions ι) (sortString : SortStrings ι) (st : State ι β) : Action ι → Option (State ι β)
  | .row s cachedSessTtl c =>
    match rowCall st.table s st.view c with
    | .error _ => some st
    | .ok ops => some { st with cells := writeAll st.now (rowTtl opts cachedSessTtl c) st.cells ops }
  | .addIndex unique parts =>
    match inplaceAddRowEntries sortString unique parts (dataRows st.view) [] with
    | none => some st
    | some ops => some { st with
        table := addedIndex st.table (.regular unique parts)
        cells := writeAll st.now none st.cells (ops.map (tag st.table.indexes.length)) }
  | .tick seconds => some { st with now := st.now + seconds }

def init (T : Table ι β) : State ι β := ⟨0, T, Store.empty⟩

end Model

section Coherence

variable {ι β : Type}

/-- Rows and index entries are visible together. A UNIQUE check that fails names a row that is there. -/
structure TtlCoherent (st : State ι β) : Prop where
  found : ∀ pk r, st.view.get (dataKey pk) = some (.row r) → ∀ i x, st.table.indexes[i]? = some x →
    ∀ e ∈ entries st.table pk r x, st.view.get (.idx i, e.1) = some e.2
  backed : ∀ i x, st.table.indexes[i]? = some x → ∀ key v, st.view.get (.idx i, key) = some v →
    ∃ r, st.view.get (dataKey (pkOf x key)) = some (.row r) ∧ (key, v) ∈ entries st.table (pkOf x key) r x
  unique : ∀ s c d, rowCall st.table s st.view c = .error d → ∃ r, st.view.get (dataKey d.dupRef) = some (.row r)

def Refreshed (opts : TtlOptions ι) (st : State ι β) (cachedSessTtl : Nat) : Call ι → Prop
  | .update currentPk old new ws =>
    (∀ cell, st.cells.get (dataKey currentPk) = some cell →
      cell.deadline = expiresAt st.now (rowTtl opts cachedSessTtl (.update currentPk old new ws))) ∨
    ∀ x ∈ st.table.indexes, ∀ e ∈ entries st.table currentPk old x,
      e ∉ entries st.table (pkFromRecord st.table currentPk new) new x
  | _ => True

def Settled (opts : TtlOptions ι) (sortString : SortStrings ι) (st : State ι β) : Action ι → Prop
  | .row s cachedSessTtl c =>
    (∀ x ∈ st.table.indexes, CallSettled st.table x s st.view.get c) ∧ Refreshed opts st cachedSessTtl c
  | .addIndex _ parts =>
    (∀ p ∈ parts, sortString.write p.field = st.table.sorts.write p.field) ∧
      ∀ pk cell, st.cells.get (dataKey pk) = some cell → cell.live st.now = true → cell.deadline = none
  | .tick _ => True

structure Inv (st : State ι β) : Prop where
  own : ∀ pk v, st.view.get (dataKey pk) = some v → ∃ r, v = .row r ∧ pkFromRecord st.table pk r = pk
  good : ∀ i x, st.table.indexes[i]? = some x → ∀ pk, Good st.table i x pk st.view.get
  aligned : ∀ i x, st.table.indexes[i]? = some x → ∀ key cell rowCell, st.cells.get (.idx i, key) = some cell →
    cell.live st.now = true → st.cells.get (dataKey (pkOf x key)) = some rowCell → rowCell.deadline = cell.deadline
  fresh : ∀ i, st.table.indexes.length ≤ i → ∀ key, st.cells.get (.idx i, key) = none

end Coherence

section Rows

variable {ι β : Type} {opts : TtlOptions ι} {st : State ι β}

theorem rowTtl_ne_zero (opts : TtlOptions ι) (cachedSessTtl : Nat) (c : Call ι) :
    rowTtl opts cachedSessTtl c ≠ some 0 := by
  have hPositive : ∀ buf, computeRowTtl opts cachedSessTtl buf ≠ some 0 := by
    intro buf hZero
    rw [computeRowTtl] at hZero
    split at hZero
    · cases hZero
    · rename_i hPos
      rw [Option.some.injEq] at hZero
      omega
  intro hZero
  cases c with
  | delete currentPk buf => cases hZero
  | write gen rowId buf =>
    rw [rowTtl] at hZero
    split at hZero
    · exact hPositive buf hZero
    · cases hZero
  | update currentPk old new ws =>
    rw [rowTtl] at hZero
    split at hZero
    · exact hPositive new hZero
    · cases hZero

variable {ops : List (Op Key (Val ι))} {s : Session} {c : Call ι}

theorem rowCall_own {T : Table ι β} {view : Store Key (Val ι)} (hOk : rowCall T s view c = .ok ops) {pk : Bytes}
    {v : Val ι} (h : updateAll view.get ops (dataKey pk) = some v) :
    view.get (dataKey pk) = some v ∨ ∃ r, v = .row r ∧ pkFromRecord T pk r = pk := by
  cases c with
  | write gen rowId buf =>
    obtain ⟨-, -, rfl⟩ := writeRow_ok hOk
    rw [write_data] at h
    split at h
    · rename_i hPk
      cases h
      exact .inr ⟨buf, rfl, hPk ▸ writeBuildPk_own rowId buf⟩
    · exact .inl h
  | update currentPk old new ws =>
    obtain ⟨-, rfl⟩ := updateRow_ok hOk
    rw [update_data] at h
    split at h
    · rename_i hPk
      cases h
      exact .inr ⟨new, rfl, hPk ▸ pkFromRecord_pkFromRecord currentPk new⟩
    · split at h
      · cases h
      · exact .inl h
  | delete currentPk buf =>
    cases hOk
    rw [delete_data] at h
    split at h
    · cases h
    · exact .inl h

theorem index_of_rowCall {T : Table ι β} {view : Store Key (Val ι)} (hOk : rowCall T s view c = .ok ops) {i : Nat}
    {key : Bytes} (hMem : (Family.idx i, key) ∈ keys ops) : ∃ x, T.indexes[i]? = some x := by
  have hMaintain : ∀ (primary : List (Op Key (Val ι))) {f : IndexShape ι → List (Op Bytes (Val ι))},
      (∀ o ∈ primary, ∃ pk, o.key = dataKey pk) → (Family.idx i, key) ∈ keys (primary ++ maintain T f) →
        ∃ x, T.indexes[i]? = some x := by
    intro primary f hPrimary hMem
    obtain ⟨o, ho, hKey⟩ := mem_map.mp hMem
    obtain ho | ho := mem_append.mp ho
    · obtain ⟨pk, hPk⟩ := hPrimary o ho
      cases hPk.symm.trans hKey
    · obtain ⟨j, x, o', hx, -, rfl⟩ := mem_maintain ho
      cases o' <;> cases hKey <;> exact ⟨x, hx⟩
  cases c with
  | write gen rowId buf =>
    obtain ⟨-, -, rfl⟩ := writeRow_ok hOk
    exact hMaintain [.put _ _] (forall_mem_singleton.mpr ⟨_, rfl⟩) hMem
  | update currentPk old new ws =>
    obtain ⟨-, rfl⟩ := updateRow_ok hOk
    exact hMaintain _ (fun o ho => updateRewritePrimary_key ho) hMem
  | delete currentPk buf =>
    cases hOk
    exact hMaintain [.del _] (forall_mem_singleton.mpr ⟨_, rfl⟩) hMem

variable {cachedSessTtl : Nat}

theorem deadline_of_shared {i : Nat} {x : IndexShape ι} (hx : st.table.indexes[i]? = some x)
    (hOk : rowCall st.table s st.view c = .ok ops) (hGood : ∀ pk, Good st.table i x pk st.view.get)
    (hSettled : CallSettled st.table x s st.view.get c) (hRefreshed : Refreshed opts st cachedSessTtl c) {pk : Bytes}
    (hMem : dataKey pk ∈ keys ops) {e : Bytes × Val ι} (hBefore : e ∈ wanted st.table x st.view.get pk)
    (hAfter : e ∈ wanted st.table x (updateAll st.view.get ops) pk) {cell : Cell (Val ι)}
    (hCell : st.cells.get (dataKey pk) = some cell) :
    cell.deadline = expiresAt st.now (rowTtl opts cachedSessTtl c) := by
  cases c with
  | write gen rowId buf =>
    have hFresh := write_fresh hx hSettled hOk
    obtain ⟨-, -, rfl⟩ := writeRow_ok hOk
    have hKey : dataKey pk ∈ keys [Op.put (dataKey (writeBuildPk st.table rowId buf)) (Val.row buf)] :=
      dataKey_mem_primary hMem
    obtain rfl := dataKey_inj.mp (mem_singleton.mp hKey)
    rw [wanted_of_none hFresh] at hBefore
    cases hBefore
  | update currentPk old new ws =>
    obtain ⟨-, hFresh⟩ := update_carried hGood hSettled hOk
    obtain ⟨hRow, -⟩ := hSettled
    obtain ⟨-, rfl⟩ := updateRow_ok hOk
    have hData := update_data (T := st.table) st.view.get (toUpdate st.table currentPk old new ws) pk
    have hPk := dataKey_mem_updateRewritePrimary.mp (dataKey_mem_primary hMem)
    obtain rfl | hNew := eq_or_ne pk (pkFromRecord st.table currentPk new)
    · obtain hSame | hMoved := eq_or_ne currentPk (pkFromRecord st.table currentPk new)
      · rw [wanted_of_row (hData.trans (if_pos rfl))] at hAfter
        rw [← hSame] at hBefore hCell
        rw [wanted_of_row hRow] at hBefore
        obtain hKeeps | hApart := hRefreshed
        · exact hKeeps cell hCell
        · exact absurd hAfter (hApart x (mem_of_getElem? hx) e hBefore)
      · rw [wanted_of_none (hFresh hMoved)] at hBefore
        cases hBefore
    · rw [wanted_of_none (hData.trans ((if_neg hNew).trans (if_pos (hPk.resolve_right hNew))))] at hAfter
      cases hAfter
  | delete currentPk buf =>
    cases hOk
    have hKey : dataKey pk ∈ keys ([.del (dataKey currentPk)] : List (Op Key (Val ι))) := dataKey_mem_primary hMem
    obtain rfl := dataKey_inj.mp (mem_singleton.mp hKey)
    rw [wanted_of_none ((delete_data ..).trans (if_pos rfl))] at hAfter
    cases hAfter

theorem get_view_of_live {key : Key} {cell : Cell (Val ι)} (hGet : st.cells.get key = some cell)
    (hLive : cell.live st.now = true) : st.view.get key = some cell.value :=
  get_visible_iff.mpr ⟨cell, hGet, hLive, rfl⟩

theorem aligned_row (h : Inv st) {i : Nat} {x : IndexShape ι} (hx : st.table.indexes[i]? = some x)
    (hOk : rowCall st.table s st.view c = .ok ops) (hSettled : CallSettled st.table x s st.view.get c)
    (hRefreshed : Refreshed opts st cachedSessTtl c) {key : Bytes} {cell rowCell : Cell (Val ι)}
    (hCell : (writeAll st.now (rowTtl opts cachedSessTtl c) st.cells ops).get (.idx i, key) = some cell)
    (hLive : cell.live st.now = true)
    (hRowCell :
      (writeAll st.now (rowTtl opts cachedSessTtl c) st.cells ops).get (dataKey (pkOf x key)) = some rowCell) :
    rowCell.deadline = cell.deadline := by
  have hGood := h.good i x hx
  obtain ⟨hAnchored, hGood'⟩ := rowCall_good hx hGood hSettled hOk
  by_cases hMem : (Family.idx i, key) ∈ keys ops
  · have hRow : dataKey (pkOf x key) ∈ keys ops := by
      obtain ⟨o, ho, hKey⟩ := mem_map.mp hMem
      have hAnchor := hAnchored o ho
      rwa [hKey, group_idx st.table hx] at hAnchor
    rw [deadline_of_mem hRow hRowCell, deadline_of_mem hMem hCell]
  · have hAfter : updateAll st.view.get ops (.idx i, key) = some cell.value := by
      rw [State.view, ← visible_writeAll (rowTtl_ne_zero opts cachedSessTtl c)]
      exact get_visible_iff.mpr ⟨cell, hCell, hLive, rfl⟩
    rw [get_writeAll_of_notMem _ _ _ hMem] at hCell
    by_cases hRow : dataKey (pkOf x key) ∈ keys ops
    · -- The call has put the row and left the entry alone.
      have hBefore := ((hGood _).entry_iff key cell.value rfl).mp (get_view_of_live hCell hLive)
      have hWanted := ((hGood' _).entry_iff key cell.value rfl).mp hAfter
      obtain ⟨rowCell₀, hRowCell₀⟩ : ∃ rowCell₀, st.cells.get (dataKey (pkOf x key)) = some rowCell₀ := by
        rw [wanted] at hBefore
        split at hBefore
        · rename_i r hr
          obtain ⟨rowCell₀, hGet, -⟩ := get_visible_iff.mp hr
          exact ⟨rowCell₀, hGet⟩
        · cases hBefore
      calc
        rowCell.deadline = expiresAt st.now (rowTtl opts cachedSessTtl c) := deadline_of_mem hRow hRowCell
        _ = rowCell₀.deadline :=
          (deadline_of_shared hx hOk hGood hSettled hRefreshed hRow hBefore hWanted hRowCell₀).symm
        _ = cell.deadline := h.aligned i x hx key cell rowCell₀ hCell hLive hRowCell₀
    · rw [get_writeAll_of_notMem _ _ _ hRow] at hRowCell
      exact h.aligned i x hx key cell rowCell hCell hLive hRowCell

theorem Inv.row (h : Inv st) (hSettled : ∀ x ∈ st.table.indexes, CallSettled st.table x s st.view.get c)
    (hRefreshed : Refreshed opts st cachedSessTtl c) (hOk : rowCall st.table s st.view c = .ok ops) :
    Inv { st with cells := writeAll st.now (rowTtl opts cachedSessTtl c) st.cells ops } := by
  have hView : (State.view { st with cells := writeAll st.now (rowTtl opts cachedSessTtl c) st.cells ops }).get =
      updateAll st.view.get ops := visible_writeAll (rowTtl_ne_zero opts cachedSessTtl c) st.now st.cells ops
  refine ⟨fun pk v hv => ?_, fun i x hx pk => ?_, fun i x hx key cell rowCell hCell hLive hRowCell => ?_,
    fun i hi key => ?_⟩
  · rw [hView] at hv
    obtain hOld | hOwn := rowCall_own hOk hv
    · exact h.own pk v hOld
    · exact hOwn
  · rw [hView]
    exact (rowCall_good hx (h.good i x hx) (hSettled x (mem_of_getElem? hx)) hOk).2 pk
  · exact aligned_row h hx hOk (hSettled x (mem_of_getElem? hx)) hRefreshed hCell hLive hRowCell
  · refine (get_writeAll_of_notMem _ _ _ fun hMem => ?_).trans (h.fresh i hi key)
    obtain ⟨x, hx⟩ := index_of_rowCall hOk hMem
    exact absurd (List.getElem?_eq_some_iff.mp hx).1 (not_lt.mpr hi)

end Rows

section Build

variable {ι β : Type} {st : State ι β}

theorem Inv.tick (h : Inv st) (seconds : Nat) : Inv { st with now := st.now + seconds } := by
  have hEarlier : ∀ {key v}, (State.view { st with now := st.now + seconds }).get key = some v →
      st.view.get key = some v := get_visible_of_later (Nat.le_add_right ..)
  refine ⟨fun pk v hv => h.own pk v (hEarlier hv), fun i x hx pk => ⟨fun v hv => ?_, fun key v hKey => ?_⟩,
    fun i x hx key cell rowCell hCell hLive hRowCell => ?_, h.fresh⟩
  · exact (h.good i x hx pk).own v (hEarlier hv)
  · subst hKey
    have hEntry := (h.good i x hx (pkOf x key)).entry_iff key v rfl
    constructor
    · intro hv
      have hWanted := hEntry.mp (hEarlier hv)
      obtain ⟨cell, hCell, hLive, rfl⟩ := get_visible_iff.mp hv
      rw [wanted] at hWanted
      split at hWanted
      · rename_i r hr
        obtain ⟨rowCell, hRowCell, -, hValue⟩ := get_visible_iff.mp hr
        have hDeadline :=
          h.aligned i x hx key cell rowCell hCell (Cell.live_of_later (Nat.le_add_right ..) hLive) hRowCell
        have hRow : (State.view { st with now := st.now + seconds }).get (dataKey (pkOf x key)) = some (.row r) :=
          get_visible_iff.mpr ⟨rowCell, hRowCell, (Cell.live_congr hDeadline _).trans hLive, hValue⟩
        rw [wanted_of_row hRow]
        exact hWanted
      · cases hWanted
    · intro hWanted
      rw [wanted] at hWanted
      split at hWanted
      · rename_i r hr
        obtain ⟨rowCell, hRowCell, hLive, -⟩ := get_visible_iff.mp hr
        rw [← wanted_of_row (c := st.view.get) (hEarlier hr)] at hWanted
        obtain ⟨cell, hCell, hLive', hValue⟩ := get_visible_iff.mp (hEntry.mpr hWanted)
        have hDeadline := h.aligned i x hx key cell rowCell hCell hLive' hRowCell
        exact get_visible_iff.mpr ⟨cell, hCell, (Cell.live_congr hDeadline _).symm.trans hLive, hValue⟩
      · cases hWanted
  · exact h.aligned i x hx key cell rowCell hCell (Cell.live_of_later (Nat.le_add_right ..) hLive) hRowCell

theorem entries_addedIndex (T : Table ι β) (y : IndexShape ι) (pk : Bytes) (r : Row ι) (x : IndexShape ι) :
    entries (addedIndex T y) pk r x = entries T pk r x := by
  cases x <;> rfl

variable {T : Table ι β} {x : IndexShape ι}

theorem good_addedIndex {y : IndexShape ι} {i : Nat} {pk : Bytes} {c : Key → Option (Val ι)} (h : Good T i x pk c) :
    Good (addedIndex T y) i x pk c := by
  refine ⟨h.own, fun key v hKey => (h.entry_iff key v hKey).trans ?_⟩
  simp only [wanted, entries_addedIndex]

variable {parts : List (KeyPart ι)} {ops : List (Op Bytes (Val ι))} {sortString : SortStrings ι} {unique : Bool}

theorem inplaceAddRowEntries_eq {rows : List (Bytes × Row ι)} {seen : List Bytes}
    (h : inplaceAddRowEntries sortString unique parts rows seen = some ops) :
    ops = patch [] (rows.map fun e => (inplaceBuildIndexKey sortString parts e.2 ++ e.1, .bytes tdbEmptyVal)) := by
  induction rows generalizing seen ops with
  | nil =>
    cases h
    rfl
  | cons e rows ih =>
    rw [inplaceAddRowEntries] at h
    split at h
    · cases h
    · obtain ⟨ops', hRest, rfl⟩ := Option.map_eq_some_iff.mp h
      rw [ih hRest]
      rfl

theorem makeComparableKey_congr {S S' : SortStrings ι} (h : ∀ p ∈ parts, S.write p.field = S'.write p.field)
    (r : Row ι) : makeComparableKey S parts r = makeComparableKey S' parts r := by
  rw [makeComparableKey, makeComparableKey]
  refine flatMap_congr fun p hp => ?_
  simp only [comparablePart, comparableSpan, h p hp]

theorem good_congr {i : Nat} {pk : Bytes} {c c' : Key → Option (Val ι)} (hData : c (dataKey pk) = c' (dataKey pk))
    (hIdx : ∀ key, c (.idx i, key) = c' (.idx i, key)) (h : Good T i x pk c) : Good T i x pk c' := by
  refine ⟨fun v hv => h.own v (hData.trans hv), fun key v hKey => ?_⟩
  rw [← hIdx, ← wanted_congr hData]
  exact h.entry_iff key v hKey

theorem index_addedIndex {y : IndexShape ι} {i : Nat} (h : (addedIndex T y).indexes[i]? = some x) :
    T.indexes[i]? = some x ∨ i = T.indexes.length ∧ x = y := by
  obtain hLt | hLe := lt_or_ge i T.indexes.length
  · exact .inl ((getElem?_append_left hLt).symm.trans h)
  · rw [addedIndex, getElem?_append_right hLe, getElem?_singleton] at h
    split at h
    · cases h
      exact .inr ⟨by omega, rfl⟩
    · cases h

theorem good_build {n : Nat} {view : Store Key (Val ι)}
    (hOwn : ∀ pk v, view.get (dataKey pk) = some v → ∃ r, v = .row r ∧ pkFromRecord T pk r = pk)
    (hFresh : ∀ key, view.get (.idx n, key) = none)
    (hSorts : ∀ p ∈ parts, sortString.write p.field = T.sorts.write p.field)
    (hOk : inplaceAddRowEntries sortString unique parts (dataRows view) [] = some ops) {c : Key → Option (Val ι)}
    (hData : ∀ pk, c (dataKey pk) = view.get (dataKey pk))
    (hIdx : ∀ key, c (.idx n, key) = updateAll (fun k => view.get (.idx n, k)) ops key) (pk : Bytes) :
    Good T n (.regular unique parts) pk c := by
  refine ⟨fun v hv => ?_, fun key v hKey => ?_⟩
  · obtain ⟨r, rfl, hPk⟩ := hOwn pk v ((hData pk).symm.trans hv)
    exact ⟨r, rfl, hPk, trivial⟩
  have hFunctional : Functional ((dataRows view).map fun e =>
      (inplaceBuildIndexKey sortString parts e.2 ++ e.1, (Val.bytes tdbEmptyVal : Val ι))) := by
    intro k w w' hw hw'
    obtain ⟨e, -, he⟩ := mem_map.mp hw
    obtain ⟨e', -, he'⟩ := mem_map.mp hw'
    exact (congrArg Prod.snd he).symm.trans (congrArg Prod.snd he')
  rw [hIdx, inplaceAddRowEntries_eq hOk, updateAll_patch _ _ hFunctional, wanted_congr (hData pk)]
  simp only [hFresh, reduceCtorEq, and_false, or_false, mem_map, Prod.exists, Prod.mk.injEq, mem_dataRows]
  constructor
  · rintro ⟨pk', r, hRow, rfl, rfl⟩
    rw [inplaceBuildIndexKey, makeComparableKey_congr hSorts] at hKey ⊢
    obtain rfl : pk' = pk := (drop_left' (length_makeComparableKey parts r)).symm.trans hKey
    rw [wanted_of_row hRow]
    exact mem_singleton.mpr rfl
  · intro hWanted
    rw [wanted] at hWanted
    split at hWanted
    · rename_i r hRow
      cases mem_singleton.mp hWanted
      exact ⟨pk, r, hRow, by rw [inplaceBuildIndexKey, makeComparableKey_congr hSorts], rfl⟩
    · cases hWanted

theorem Inv.addIndex (h : Inv st) (hSorts : ∀ p ∈ parts, sortString.write p.field = st.table.sorts.write p.field)
    (hNever : ∀ pk cell, st.cells.get (dataKey pk) = some cell → cell.live st.now = true → cell.deadline = none)
    (hOk : inplaceAddRowEntries sortString unique parts (dataRows st.view) [] = some ops) : Inv { st with
      table := addedIndex st.table (.regular unique parts)
      cells := writeAll st.now none st.cells (ops.map (tag st.table.indexes.length)) } := by
  set n := st.table.indexes.length
  have hOthers : ∀ {f key}, f ≠ Family.idx n → (f, key) ∉ keys (ops.map (tag n)) := fun hNe hMem =>
    hNe (mem_keys_tag hMem).1
  have hView : (State.view ⟨st.now, addedIndex st.table (.regular unique parts),
      writeAll st.now none st.cells (ops.map (tag n))⟩).get = updateAll st.view.get (ops.map (tag n)) :=
    visible_writeAll (Option.some_ne_none 0).symm st.now st.cells _
  have hData : ∀ pk, updateAll st.view.get (ops.map (tag n)) (dataKey pk) = st.view.get (dataKey pk) := fun pk =>
    updateAll_of_notMem _ (hOthers Family.noConfusion)
  have hFresh : ∀ key, st.view.get (.idx n, key) = none := by
    intro key
    rw [State.view, get_visible, h.fresh n (le_refl n), Option.bind_none]
  have hGood : ∀ i x, (addedIndex st.table (.regular unique parts)).indexes[i]? = some x → ∀ pk,
      Good (addedIndex st.table (.regular unique parts)) i x pk (updateAll st.view.get (ops.map (tag n))) := by
    intro i x hx pk
    obtain hOld | ⟨rfl, rfl⟩ := index_addedIndex hx
    · have hNe : i ≠ n := Nat.ne_of_lt (List.getElem?_eq_some_iff.mp hOld).1
      refine good_addedIndex (good_congr (hData pk).symm (fun key => ?_) (h.good i x hOld pk))
      exact (updateAll_tag_ne _ hNe ops key).symm
    · exact good_addedIndex (good_build h.own hFresh hSorts hOk hData (updateAll_tag_self _ n ops) pk)
  refine ⟨fun pk v hv => ?_, fun i x hx pk => ?_, fun i x hx key cell rowCell hCell hLive hRowCell => ?_,
    fun i hi key => ?_⟩
  · rw [hView, hData] at hv
    exact h.own pk v hv
  · rw [hView]
    exact hGood i x hx pk
  · have hRowBefore : st.cells.get (dataKey (pkOf x key)) = some rowCell :=
      (get_writeAll_of_notMem _ _ _ (hOthers Family.noConfusion)).symm.trans hRowCell
    obtain hOld | ⟨rfl, -⟩ := index_addedIndex hx
    · have hNe : Family.idx i ≠ .idx n := fun hEq => by
        cases hEq
        exact lt_irrefl _ (List.getElem?_eq_some_iff.mp hOld).1
      have hBefore := (get_writeAll_of_notMem _ _ _ (hOthers hNe)).symm.trans hCell
      exact h.aligned i x hOld key cell rowCell hBefore hLive hRowBefore
    · -- The build gives its entries no deadline, and no row it has seen has one.
      have hMem : (Family.idx n, key) ∈ keys (ops.map (tag n)) := by
        refine Classical.byContradiction fun hNot => ?_
        rw [get_writeAll_of_notMem _ _ _ hNot, h.fresh n (le_refl n)] at hCell
        cases hCell
      have hEntry : updateAll st.view.get (ops.map (tag n)) (.idx n, key) = some cell.value :=
        hView ▸ get_view_of_live hCell hLive
      have hWanted := ((hGood n x hx _).entry_iff key cell.value rfl).mp hEntry
      rw [wanted_congr (hData _), wanted] at hWanted
      split at hWanted
      · rename_i r hRow
        obtain ⟨rowCell', hGet, hRowLive, -⟩ := get_visible_iff.mp hRow
        cases hGet.symm.trans hRowBefore
        rw [hNever _ _ hGet hRowLive, deadline_of_mem hMem hCell]
        rfl
      · cases hWanted
  · have hLt : n < i := by
      have hLength : (addedIndex st.table (.regular unique parts)).indexes.length = n + 1 := length_append
      exact hLength.symm.le.trans hi
    refine (get_writeAll_of_notMem _ _ _ (hOthers fun hEq => ?_)).trans (h.fresh i (le_of_lt hLt) key)
    cases hEq
    exact lt_irrefl _ hLt

end Build

section Runs

variable {ι β : Type} {opts : TtlOptions ι} {sortString : SortStrings ι} {st : State ι β}

theorem dupEntry_eq_some {view : Store Key (Val ι)} {i : Nat} {key ref : Bytes} (h : dupEntry view i key = some ref) :
    ∃ k, view.get (.idx i, k) ≠ none ∧ ref = k.drop key.length := by
  rw [dupEntry] at h
  split at h
  · rename_i k hSeek
    split at h
    · cases h
      exact ⟨k, mem_familyKeys.mp ((mem_insertionSort _).mp (mem_of_find?_eq_some hSeek)), rfl⟩
    · cases h
  · cases h

theorem Inv.dupEntry_row (h : Inv st) {i : Nat} {parts : List (KeyPart ι)}
    (hx : st.table.indexes[i]? = some (.regular true parts)) {buf : Row ι} {ref : Bytes}
    (hDup : dupEntry st.view i (makeComparableKey st.table.sorts parts buf) = some ref) :
    ∃ r, st.view.get (dataKey ref) = some (.row r) := by
  obtain ⟨k, hEntry, rfl⟩ := dupEntry_eq_some hDup
  obtain ⟨v, hv⟩ := Option.ne_none_iff_exists'.mp hEntry
  have hWanted := ((h.good i _ hx _).entry_iff k v rfl).mp hv
  rw [wanted] at hWanted
  split at hWanted
  · rename_i r hRow
    rw [pkOf, ← length_makeComparableKey parts buf] at hRow
    exact ⟨r, hRow⟩
  · cases hWanted

theorem Inv.probe_row (h : Inv st) {pk : Bytes} (hProbe : probePkExists st.view pk = true) :
    ∃ r, st.view.get (dataKey pk) = some (.row r) := by
  obtain ⟨v, hv⟩ := Option.isSome_iff_exists.mp hProbe
  obtain ⟨r, rfl, -⟩ := h.own pk v hv
  exact ⟨r, hv⟩

theorem Inv.writeCheck_row (h : Inv st) {s : Session} {buf : Row ι} {d : DupKey}
    (hErr : writeCheckSecondaryUnique st.table s st.view buf = some d) :
    ∃ r, st.view.get (dataKey d.dupRef) = some (.row r) := by
  rw [writeCheckSecondaryUnique] at hErr
  split at hErr
  · cases hErr
  · obtain ⟨⟨x, i⟩, hMem, hFound⟩ := exists_of_findSome?_eq_some hErr
    have hx := mem_zipIdx_iff_getElem?.mp hMem
    split at hFound
    · rename_i parts hEq
      split at hFound
      · cases hFound
      · obtain ⟨ref, hDup, rfl⟩ := Option.map_eq_some_iff.mp hFound
        cases hEq
        exact h.dupEntry_row hx hDup
    · cases hFound

theorem Inv.updateCheck_row (h : Inv st) {u : Update ι} {d : DupKey}
    (hErr : updateCheckUnique st.table st.view u = some d) : ∃ r, st.view.get (dataKey d.dupRef) = some (.row r) := by
  rw [updateCheckUnique] at hErr
  split at hErr
  · rename_i hProbe
    cases hErr
    exact h.probe_row (Bool.and_eq_true_iff.mp hProbe).2
  · obtain ⟨⟨x, i⟩, hMem, hFound⟩ := exists_of_findSome?_eq_some hErr
    have hx := mem_zipIdx_iff_getElem?.mp hMem
    split at hFound
    · rename_i parts hEq
      split at hFound
      · cases hFound
      · split at hFound
        · cases hFound
        · obtain ⟨ref, hDup, rfl⟩ := Option.map_eq_some_iff.mp hFound
          cases hEq
          exact h.dupEntry_row hx hDup
    · cases hFound

theorem Inv.dup_row (h : Inv st) {s : Session} {c : Call ι} {d : DupKey}
    (hErr : rowCall st.table s st.view c = .error d) :
    ∃ r, st.view.get (dataKey d.dupRef) = some (.row r) := by
  cases c with
  | delete currentPk buf => cases hErr
  | write gen rowId buf =>
    simp only [rowCall, writeRow] at hErr
    split at hErr
    · rename_i d' hPk
      cases hErr
      rw [writeCheckPkUnique] at hPk
      split at hPk
      · cases hPk
      · split at hPk
        · rename_i hProbe
          cases hPk
          exact h.probe_row hProbe
        · cases hPk
    · split at hErr
      · rename_i d' hSecondary
        cases hErr
        exact h.writeCheck_row hSecondary
      · cases hErr
  | update currentPk old new ws =>
    simp only [rowCall, updateRow] at hErr
    split at hErr
    · rename_i d' hCheck
      cases hErr
      split at hCheck
      · cases hCheck
      · exact h.updateCheck_row hCheck
    · cases hErr

theorem inv_init (T : Table ι β) : Inv (init T) where
  own _ _ h := by cases h
  good _ _ _ pk := good_empty pk
  aligned _ _ _ _ _ _ h := by cases h
  fresh _ _ _ := rfl

theorem inv_step {st' : State ι β} {a : Action ι} (h : Inv st) (hSettled : Settled opts sortString st a)
    (hStep : step opts sortString st a = some st') : Inv st' := by
  cases a with
  | tick seconds =>
    cases hStep
    exact h.tick seconds
  | row s cachedSessTtl c =>
    rw [step] at hStep
    split at hStep
    · cases hStep
      exact h
    · rename_i ops hOk
      cases hStep
      exact h.row hSettled.1 hSettled.2 hOk
  | addIndex unique parts =>
    rw [step] at hStep
    split at hStep
    · cases hStep
      exact h
    · rename_i ops hOk
      cases hStep
      exact h.addIndex hSettled.1 hSettled.2 hOk

theorem Inv.coherent (h : Inv st) : TtlCoherent st where
  found pk r hRow i x hx e he := by
    refine ((h.good i x hx pk).entry_iff e.1 e.2 (pkOf_entries he)).mpr ?_
    rw [wanted_of_row hRow]
    exact he
  backed i x hx key v hv := by
    have hWanted := ((h.good i x hx (pkOf x key)).entry_iff key v rfl).mp hv
    rw [wanted] at hWanted
    split at hWanted
    · rename_i r hRow
      exact ⟨r, hRow, hWanted⟩
    · cases hWanted
  unique s c d hErr := h.dup_row hErr

/-- Rows and entries expire together when updates keep the deadline or put every entry anew and index builds find no
row that will expire. -/
theorem ttl_coherent (T : Table ι β) (h : Reach (step opts sortString) (Settled opts sortString) (init T) st) :
    TtlCoherent st :=
  (h.invariant Inv (inv_init T) fun _ _ _ => inv_step).coherent

def tenSeconds : TtlOptions Column := ⟨none, fun _ => 0, 10⟩

def after (T : Table Column Unit) (acts : List (Action Column)) : State Column Unit :=
  (run (step tenSeconds places.sorts) (init T) acts).getD (init T)

def refreshing (new : Row Column) (ws : Column → Bool) : List (Action Column) :=
  [.row checked 0 (.write false 0 (place 1 1)), .tick 5, .row checked 0 (.update [1] (place 1 1) new ws), .tick 6]

def indexing : List (Action Column) :=
  [.row checked 0 (.write false 0 (place 1 1)), .addIndex true [tinyPart .n], .tick 11]

/-- An update of another column leaves the index entry with its old deadline. An index that is built
keeps the entry of a row that has expired. -/
theorem entry_outlived_and_outliving : (run (step tenSeconds places.sorts) (init members)
        (refreshing (Function.update (place 1 1) .doc none) (· = .doc)) =
        some (after members (refreshing (Function.update (place 1 1) .doc none) (· = .doc))) ∧
      ¬TtlCoherent (after members (refreshing (Function.update (place 1 1) .doc none) (· = .doc)))) ∧
    run (step tenSeconds places.sorts) (init { places with indexes := [] }) indexing =
        some (after { places with indexes := [] } indexing) ∧
      ¬TtlCoherent (after { places with indexes := [] } indexing) := by
  refine ⟨⟨rfl, fun h => ?_⟩, rfl, fun h => ?_⟩
  · have hEntry := h.found [1] _ rfl 0 _ rfl ([1, 1], .bytes tdbEmptyVal) (mem_singleton.mpr rfl)
    cases hEntry
  · obtain ⟨r, hRow⟩ := h.unique checked (.write false 0 (place 2 1)) ⟨some 0, [1]⟩ rfl
    cases hRow

theorem coherent_refreshing : (after members (refreshing (place 1 2) fun _ => true)).view.get (dataKey [1]) ≠ none ∧
      TtlCoherent (after members (refreshing (place 1 2) fun _ => true)) := by
  have h₁ : Reach (step tenSeconds places.sorts) (Settled tenSeconds places.sorts) (init members)
      (after members ((refreshing (place 1 2) fun _ => true).take 1)) := by
    refine .step (.row checked 0 (.write false 0 (place 1 1))) .init ⟨fun x hx => ?_, trivial⟩ rfl
    rw [mem_singleton.mp hx]
    exact ⟨trivial, .inl ⟨rfl, rfl, rfl⟩⟩
  have h₂ : Reach (step tenSeconds places.sorts) (Settled tenSeconds places.sorts) (init members)
      (after members ((refreshing (place 1 2) fun _ => true).take 2)) := h₁.step (.tick 5) trivial rfl
  have h₃ : Reach (step tenSeconds places.sorts) (Settled tenSeconds places.sorts) (init members)
      (after members ((refreshing (place 1 2) fun _ => true).take 3)) := by
    refine h₂.step (.row checked 0 (.update [1] (place 1 1) (place 1 2) fun _ => true))
      ⟨fun x hx => ?_, .inr fun x hx e he hNew => ?_⟩ rfl
    · rw [mem_singleton.mp hx]
      exact ⟨rfl, fun _ hSet => (by cases hSet), trivial, trivial, .inl rfl⟩
    · rw [mem_singleton.mp hx] at he hNew
      cases (mem_singleton.mp he).symm.trans (mem_singleton.mp hNew)
  exact ⟨by decide, ttl_coherent members (h₃.step (.tick 6) trivial rfl)⟩

end Runs

end TideSql.Ttl
