import TideSql.Handler.XaResolve

/-!
# Prepared in the coordinator

After a restart the server keeps an in-doubt transaction whose XID is reported as prepared in the coordinator
and rolls back every other.
-/

namespace TideSql.XaMarkers
open XidKey XaCalls Lib Lib.Run Lib.Custody Function

variable {τ : Type}

/-- The XIDs with the tables to lock; a key that does not parse is passed over. -/
def tidesdbRecoverPreparedInTc (markers : Store Key (List TableName)) : List (Xid × List TableName) :=
  markers.entries.filterMap fun e => (tdbXidFromKey e.1).map fun xid => (xid, e.2)

theorem mem_recoverPreparedInTc {markers : Store Key (List TableName)} {xid : Xid} {modTables : List TableName} :
    (xid, modTables) ∈ tidesdbRecoverPreparedInTc markers ↔ markers.get (tdbXidKey xid) = some modTables := by
  rw [tidesdbRecoverPreparedInTc, List.mem_filterMap, ← Store.mem_entries_iff]
  constructor
  · rintro ⟨⟨key, tables⟩, hEntry, hMap⟩
    obtain ⟨xid', hXid, hEq⟩ := Option.map_eq_some_iff.mp hMap
    cases hEq
    rw [tdbXidKey_of_tdbXidFromKey hXid]
    exact hEntry
  · intro hEntry
    exact ⟨_, hEntry, by rw [tdbXidFromKey_tdbXidKey]; rfl⟩

/-- An XID in doubt is reported exactly when its transaction has been recorded as prepared in the coordinator. -/
def Exact (s : State τ) : Prop :=
  ∀ xid txn, s.inDoubt.get (tdbXidKey xid) = some txn →
    (xid ∈ (tidesdbRecoverPreparedInTc s.markers).map Prod.fst ↔ txn ∈ s.marked)

/-- No marker of an earlier transaction stands when a transaction is prepared under its XID. -/
def Condition (s : State τ) : Action τ → Prop
  | .prepare _ xid _ => s.markers.get (tdbXidKey xid) = none
  | _ => True

def Matched (inDoubt : Key → Option Nat) (markers : Key → Option (List TableName)) (marked : List Nat) : Prop :=
  ∀ key txn, inDoubt key = some txn → (markers key ≠ none ↔ txn ∈ marked)

variable {s s' : State τ}

theorem reported_iff (markers : Store Key (List TableName)) (xid : Xid) :
    xid ∈ (tidesdbRecoverPreparedInTc markers).map Prod.fst ↔ markers.get (tdbXidKey xid) ≠ none := by
  rw [Option.ne_none_iff_exists', List.mem_map]
  constructor
  · rintro ⟨⟨xid', modTables⟩, hMem, rfl⟩
    exact ⟨modTables, mem_recoverPreparedInTc.mp hMem⟩
  · rintro ⟨modTables, hGet⟩
    exact ⟨(xid, modTables), mem_recoverPreparedInTc.mpr hGet, rfl⟩

theorem Matched.exact (h : Matched s.inDoubt.get s.markers.get s.marked) : Exact s := by
  intro xid txn hDoubt
  rw [reported_iff]
  exact h _ txn hDoubt

structure Calls (thread : τ → Pc) (inDoubt : Key → Option Nat) : Prop where
  apart {i j : τ} {key : Key} : (thread i).preparing = true → (thread i).key = some key → (thread j).key = some key →
    i = j
  marking {i : τ} {key : Key} {txn : Nat} {modTables : List TableName} :
    thread i = .marking key txn modTables → inDoubt key = some txn
  closed {i : τ} {key : Key} : (thread i).settled.isSome = true → (thread i).key = some key → inDoubt key = none

theorem calls_idle (inDoubt : Key → Option Nat) : Calls (fun _ : τ => .idle) inDoubt where
  apart h := by cases h
  marking h := by cases h
  closed h := by cases h

section Threads

variable [DecidableEq τ] {thread : τ → Pc} {inDoubt : Key → Option Nat} {i : τ} {pc : Pc} {key : Key}

section

variable (h : Calls thread inDoubt)
include h

theorem Calls.goto (hKey : ∀ key, pc.key = some key → (thread i).key = some key)
    (hPreparing : pc.preparing = true → (thread i).preparing = true)
    (hMarking : ∀ key txn modTables, pc = .marking key txn modTables → inDoubt key = some txn)
    (hClosed : ∀ key, pc.settled.isSome = true → pc.key = some key → inDoubt key = none) :
    Calls (update thread i pc) inDoubt := by
  have hAt {j : τ} {key : Key} (hj : (update thread i pc j).key = some key) : (thread j).key = some key := by
    obtain ⟨rfl, hPc⟩ | hj' := thread_cases (rfl : update thread i pc j = _)
    · rw [← hPc] at hj
      exact hKey key hj
    · rwa [← hj'] at hj
  refine ⟨fun {j j' key} hj hKey' hj' => ?_, fun {j key txn modTables} hj => ?_, fun {j key} hj hKey' => ?_⟩
  · refine h.apart ?_ (hAt hKey') (hAt hj')
    obtain ⟨rfl, hPc⟩ | hSame := thread_cases (rfl : update thread i pc j = _)
    · rw [← hPc] at hj
      exact hPreparing hj
    · rwa [← hSame] at hj
  · obtain ⟨-, hPc⟩ | hj := thread_cases hj
    · exact hMarking key txn modTables hPc
    · exact h.marking hj
  · obtain ⟨-, hPc⟩ | hSame := thread_cases (rfl : update thread i pc j = _)
    · rw [← hPc] at hj hKey'
      exact hClosed key hj hKey'
    · rw [← hSame] at hj hKey'
      exact h.closed hj hKey'

theorem Calls.prepare (hFree : ∀ j, (thread j).key ≠ some key) (txn : Nat) (modTables : List TableName) :
    Calls (update thread i (.publishing key txn modTables)) (update inDoubt key (some txn)) := by
  have hOther {j : τ} {key' : Key} (hj : (thread j).key = some key') : key' ≠ key := by
    rintro rfl
    exact hFree j hj
  refine ⟨fun {j j' key'} hj hKey hj' => ?_, fun {j key' txn' _} hj => ?_, fun {j key'} hj hKey => ?_⟩
  · obtain ⟨hi, hPc⟩ | hSame := thread_cases (rfl : update thread i (.publishing key txn modTables) j = _) <;>
      obtain ⟨hi', hPc'⟩ | hSame' := thread_cases (rfl : update thread i (.publishing key txn modTables) j' = _)
    · exact hi.trans hi'.symm
    · rw [← hPc] at hKey
      rw [← hSame'] at hj'
      cases hKey
      exact absurd hj' (hFree j')
    · rw [← hPc'] at hj'
      rw [← hSame] at hKey
      cases hj'
      exact absurd hKey (hFree j)
    · rw [← hSame] at hj hKey
      rw [← hSame'] at hj'
      exact h.apart hj hKey hj'
  · obtain ⟨-, hPc⟩ | hj := thread_cases hj
    · cases hPc
    · rw [update_of_ne (hOther (congrArg Pc.key hj))]
      exact h.marking hj
  · obtain ⟨-, hPc⟩ | hSame := thread_cases (rfl : update thread i (.publishing key txn modTables) j = _)
    · rw [← hPc] at hj
      cases hj
    · rw [← hSame] at hj hKey
      rw [update_of_ne (hOther hKey)]
      exact h.closed hj hKey

theorem Calls.take (hPrepared : ∀ j, (thread j).key = some key → (thread j).preparing = false) (txn : Nat)
    (d : Decision) : Calls (update thread i (.resolving key txn d)) inDoubt := by
  refine ⟨fun {j j' key'} hj hKey hj' => ?_, fun {j key' txn' _} hj => ?_, fun {j key'} hj hKey => ?_⟩
  · obtain ⟨-, hPc⟩ | hSame := thread_cases (rfl : update thread i (.resolving key txn d) j = _)
    · rw [← hPc] at hj
      cases hj
    · rw [← hSame] at hj hKey
      obtain ⟨-, hPc'⟩ | hSame' := thread_cases (rfl : update thread i (.resolving key txn d) j' = _)
      · rw [← hPc'] at hj'
        cases hj'
        exact absurd ((hPrepared j hKey).symm.trans hj) Bool.false_ne_true
      · rw [← hSame'] at hj'
        exact h.apart hj hKey hj'
  · obtain ⟨-, hPc⟩ | hj := thread_cases hj
    · cases hPc
    · exact h.marking hj
  · obtain ⟨-, hPc⟩ | hSame := thread_cases (rfl : update thread i (.resolving key txn d) j = _)
    · rw [← hPc] at hj
      cases hj
    · rw [← hSame] at hj hKey
      exact h.closed hj hKey

theorem Calls.resolve {txn : Nat} {d : Decision} (hPc : thread i = .resolving key txn d) :
    Calls (update thread i (.freeing key txn d)) (update inDoubt key none) := by
  have hKey : (thread i).key = some key := congrArg Pc.key hPc
  have hDropped : Calls thread (update inDoubt key none) := by
    refine ⟨h.apart, fun {j key' txn' _} hj => ?_, fun {j key'} hj hKey' => ?_⟩
    · have hNe : key' ≠ key := by
        rintro rfl
        have hSame : j = i := h.apart (congrArg Pc.preparing hj) (congrArg Pc.key hj) hKey
        rw [hSame, hPc] at hj
        cases hj
      rw [update_of_ne hNe]
      exact h.marking hj
    · rw [update_apply]
      split
      · rfl
      · exact h.closed hj hKey'
  refine hDropped.goto (fun key' hk => ?_) (fun hNo => by cases hNo) (fun _ _ _ hNo => by cases hNo) fun key' _ hk => ?_
  · cases hk
    exact hKey
  · cases hk
    exact update_self ..

end

end Threads

section Marks

variable {inDoubt : Key → Option Nat} {markers : Key → Option (List TableName)} {marked : List Nat} {key : Key}
    {txn : Nat}

section

variable (h : Matched inDoubt markers marked)
include h

theorem matched_prepare_iff (hNew : txn ∉ marked) :
    Matched (update inDoubt key (some txn)) markers marked ↔ markers key = none := by
  constructor
  · intro h'
    by_contra hMarker
    exact hNew ((h' key txn (update_self ..)).mp hMarker)
  · intro hNone key' txn' hDoubt
    rw [update_apply] at hDoubt
    split at hDoubt
    · rename_i hKey
      cases hDoubt
      rw [hKey, hNone]
      exact ⟨fun hNe => absurd rfl hNe, fun hMem => absurd hMem hNew⟩
    · exact h key' txn' hDoubt

theorem Matched.mark (hDoubt : inDoubt key = some txn) (hKeyed : ∀ key', inDoubt key' = some txn → key' = key)
    (modTables : List TableName) : Matched inDoubt (update markers key (some modTables)) (txn :: marked) := by
  intro key' txn' hDoubt'
  rw [List.mem_cons]
  obtain rfl | hNe := eq_or_ne key' key
  · rw [hDoubt] at hDoubt'
    cases hDoubt'
    rw [update_self]
    exact ⟨fun _ => .inl rfl, fun _ => Option.some_ne_none _⟩
  · have hOther : txn' ≠ txn := by
      rintro rfl
      exact hNe (hKeyed key' hDoubt')
    rw [update_of_ne hNe, or_iff_right hOther]
    exact h key' txn' hDoubt'

theorem Matched.resolve : Matched (update inDoubt key none) markers marked := by
  intro key' txn' hDoubt
  rw [update_apply] at hDoubt
  split at hDoubt
  · cases hDoubt
  · exact h key' txn' hDoubt

theorem Matched.clear (hGone : inDoubt key = none) : Matched inDoubt (update markers key none) marked := by
  intro key' txn' hDoubt
  have hNe : key' ≠ key := by
    rintro rfl
    rw [hGone] at hDoubt
    cases hDoubt
  rw [update_of_ne hNe]
  exact h key' txn' hDoubt

end

end Marks

structure MarkInv (s : State τ) : Prop where
  core : Inv s.toCore
  calls : Calls s.thread s.inDoubt.get
  past {txn : Nat} : txn ∈ s.marked → txn < s.next
  matched : Matched s.inDoubt.get s.markers.get s.marked

theorem markInv_init : MarkInv (init : State τ) where
  core := inv_init
  calls := calls_idle _
  past h := by cases h
  matched _ _ h := by cases h

section Steps

variable [DecidableEq τ]

theorem MarkInv.goto (h : MarkInv s) {i : τ} {pc : Pc} (hCore : Inv s'.toCore)
    (hThread : s'.thread = update s.thread i pc) (hDoubt : s'.inDoubt = s.inDoubt)
    (hNext : s'.next = s.next) (hMarked : s'.marked = s.marked) (hMarkers : s'.markers = s.markers)
    (hKey : ∀ key, pc.key = some key → (s.thread i).key = some key)
    (hPreparing : pc.preparing = true → (s.thread i).preparing = true)
    (hMarking : ∀ key txn modTables, pc = .marking key txn modTables → s.inDoubt.get key = some txn)
    (hSettled : pc.settled.isSome = true → (s.thread i).settled.isSome = true) : MarkInv s' where
  core := hCore
  calls := by
    rw [hThread, hDoubt]
    exact h.calls.goto hKey hPreparing hMarking fun key hPc hk => h.calls.closed (hSettled hPc) (hKey key hk)
  past hMem := by
    rw [hMarked] at hMem
    rw [hNext]
    exact h.past hMem
  matched := by
    rw [hDoubt, hMarkers, hMarked]
    exact h.matched

theorem MarkInv.step (h : MarkInv s) {a : Action τ} (hContract : Contract s a) (hCondition : Condition s a)
    (hStep : step s a = some s') : MarkInv s' := by
  have hCore := h.core.step hContract hStep
  cases stepped_of_step hStep with
  | prepare xid modTables hPc =>
    have hNew : s.next ∉ s.marked := fun hMem => absurd (h.past hMem) (Nat.lt_irrefl _)
    refine ⟨hCore, ?_, fun hMem => Nat.lt_succ_of_lt (h.past hMem), ?_⟩
    · dsimp only [State.prepare, State.goto]
      rw [get_put_eq]
      exact h.calls.prepare hContract.2 _ _
    · dsimp only [State.prepare, State.goto]
      rw [get_put_eq]
      exact (matched_prepare_iff h.matched hNew).mpr hCondition
  | publish hPc =>
    rename_i i key txn modTables
    refine h.goto hCore rfl rfl rfl rfl rfl (fun key' hk => ?_) (fun _ => congrArg Pc.preparing hPc)
      (fun key' txn' _ hEq => ?_) fun hNo => by cases hNo
    · cases hk
      exact congrArg Pc.key hPc
    · cases hEq
      exact h.core.split.held (congrArg Pc.hand hPc)
  | mark hPc =>
    rename_i i key txn modTables
    have hDoubt := h.calls.marking hPc
    have hBefore : txn < s.next := h.core.ledger.dated (h.core.ledger.newest hDoubt)
    refine ⟨hCore, ?_, fun hMem => ?_, ?_⟩
    · exact h.calls.goto (fun _ hk => by cases hk) (fun hNo => by cases hNo) (fun _ _ _ hNo => by cases hNo)
        fun _ hNo => by cases hNo
    · obtain rfl | hMem := List.mem_cons.mp hMem
      · exact hBefore
      · exact h.past hMem
    · dsimp only [State.mark, State.goto]
      rw [tdbXaTcMark, get_put_eq]
      exact h.matched.mark hDoubt (fun key' hDoubt' => h.core.ledger.keyed hDoubt' hDoubt) modTables
  | unmarked hPc =>
    exact h.goto hCore rfl rfl rfl rfl rfl (fun _ hk => by cases hk) (fun hNo => by cases hNo)
      (fun _ _ _ hNo => by cases hNo) fun hNo => by cases hNo
  | miss d hPc hMiss => exact ⟨hCore, h.calls, h.past, h.matched⟩
  | take d hPc hGet => exact ⟨hCore, h.calls.take hContract _ d, h.past, h.matched⟩
  | resolve hPc =>
    refine ⟨hCore, ?_, h.past, ?_⟩
    · dsimp only [State.resolve, State.goto]
      rw [get_drop_eq]
      exact h.calls.resolve hPc
    · dsimp only [State.resolve, State.goto]
      rw [get_drop_eq]
      exact h.matched.resolve
  | fail hPc =>
    refine h.goto hCore rfl rfl rfl rfl rfl (fun key' hk => ?_) (fun hNo => by cases hNo)
      (fun _ _ _ hNo => by cases hNo) fun hNo => by cases hNo
    cases hk
    exact congrArg Pc.key hPc
  | register hPc =>
    exact h.goto hCore rfl rfl rfl rfl rfl (fun _ hk => by cases hk) (fun hNo => by cases hNo)
      (fun _ _ _ hNo => by cases hNo) fun hNo => by cases hNo
  | free hPc =>
    refine h.goto hCore rfl rfl rfl rfl rfl (fun key' hk => ?_) (fun hNo => by cases hNo)
      (fun _ _ _ hNo => by cases hNo) fun _ => ?_
    · cases hk
      exact congrArg Pc.key hPc
    · rw [hPc]
      rfl
  | clear ok hPc =>
    rename_i i key txn d
    have hGone : s.inDoubt.get key = none := h.calls.closed (by rw [hPc]; rfl) (congrArg Pc.key hPc)
    refine ⟨hCore, ?_, h.past, ?_⟩
    · exact h.calls.goto (fun _ hk => by cases hk) (fun hNo => by cases hNo) (fun _ _ _ hNo => by cases hNo)
        fun _ hNo => by cases hNo
    · dsimp only [State.clear, State.answer, State.goto]
      rw [tdbXaTcClear]
      split
      · rw [get_drop_eq]
        exact h.matched.clear hGone
      · exact h.matched
  | crash => exact ⟨hCore, calls_idle _, h.past, h.matched⟩

/-- An in-doubt XID is reported exactly when its own transaction was prepared in the coordinator, if no XID is used
again while a marker stands under it. -/
theorem prepared_in_tc_exact (hReach : Reach step (fun s a => Contract s a ∧ Condition s a) init s) : Exact s := by
  have hInv := hReach.invariant MarkInv markInv_init
    fun _ _ _ h hGuard hStep => h.step hGuard.1 hGuard.2 hStep
  exact hInv.matched.exact

end Steps

section Samples

instance instDecidableCondition (s : State τ) (a : Action τ) : Decidable (Condition s a) :=
  match a with
  | .prepare _ xid _ => inferInstanceAs (Decidable (s.markers.get (tdbXidKey xid) = none))
  | .publish _ | .setPreparedInTc _ _ | .byXid _ _ _ | .phaseTwo _ _ | .register _ | .free _ | .clear _ _ | .crash =>
    .isTrue trivial

open XaResolve

def cleared : List (Action Worker) :=
  xaPrepare .first ++ [.byXid .second .commit xid₀, .phaseTwo .second true, .free .second, .clear .second true] ++
    [.prepare .first xid₀ [], .publish .first, .crash]

theorem cleared_exact : ∃ s : State Worker, Reach step (fun s a => Contract s a ∧ Condition s a) init s ∧
    s.inDoubt.get (tdbXidKey xid₀) = some 1 ∧ Exact s := by
  have hEnds : (guardedRun step (fun s a => Contract s a ∧ Condition s a) init cleared).any (fun s : State Worker =>
      s.inDoubt.get (tdbXidKey xid₀) = some 1) = true := by decide +kernel
  obtain ⟨s, hReach, hDoubt⟩ := reach_of_any_guardedRun hEnds
  exact ⟨s, hReach, of_decide_eq_true hDoubt, prepared_in_tc_exact hReach⟩

def uncleared : List (Action Worker) :=
  xaPrepare .first ++ [.byXid .second .commit xid₀, .phaseTwo .second true, .crash, .prepare .first xid₀ [], .crash]

theorem earlier_marker_reported : ¬ ∀ s : State Worker, Reach step Contract init s → Exact s := by
  intro hAll
  have hEnds : (guardedRun step Contract init uncleared).any (fun s : State Worker =>
      decide (s.inDoubt.get (tdbXidKey xid₀) = some 1) && decide (s.markers.get (tdbXidKey xid₀) ≠ none) &&
        decide (1 ∉ s.marked)) = true := by decide +kernel
  obtain ⟨s, hReach, hWrong⟩ := reach_of_any_guardedRun hEnds
  simp only [Bool.and_eq_true, decide_eq_true_eq] at hWrong
  exact hWrong.2 ((hAll s hReach xid₀ 1 hWrong.1.1).mp ((reported_iff _ _).mpr hWrong.1.2))

end Samples

end TideSql.XaMarkers
