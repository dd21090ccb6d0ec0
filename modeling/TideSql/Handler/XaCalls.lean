import TideSql.Lib.Run
import TideSql.Lib.Custody
import TideSql.Handler.XidKey

/-!
# Prepared transactions and the calls that resolve them

`XA PREPARE` makes a batch durable under its XID, publishes the transaction in `tdb_prepared_txns` and then
records that the coordinator has it.
-/

namespace TideSql.XaCalls
open XidKey Lib Lib.Run Lib.Custody List Function Prod

inductive Decision where
  | commit
  | rollback
  deriving DecidableEq, Repr

abbrev TableName := String × String

/-- Where a thread is. The transactions have numbers of their own, since an XID may be used again. -/
inductive Pc where
  | idle
  /-- In `tidesdb_prepare`, once the library has prepared the transaction. -/
  | publishing (key : Key) (txn : Nat) (modTables : List TableName)
  /-- Between `tidesdb_prepare` and the end of `tidesdb_set_prepared_in_tc`. -/
  | marking (key : Key) (txn : Nat) (modTables : List TableName)
  /-- In a by-XID call that has taken the transaction out. -/
  | resolving (key : Key) (txn : Nat) (d : Decision)
  | registering (key : Key) (txn : Nat) (d : Decision)
  | freeing (key : Key) (txn : Nat) (d : Decision)
  | clearing (key : Key) (txn : Nat) (d : Decision)
  deriving DecidableEq

def Pc.hand : Pc → Option (Key × Nat)
  | .publishing key txn _ | .resolving key txn _ | .registering key txn _ => some (key, txn)
  | _ => none

def Pc.settled : Pc → Option (Nat × Decision)
  | .freeing _ txn d | .clearing _ txn d => some (txn, d)
  | _ => none

def Pc.key : Pc → Option Key
  | .idle => none
  | .publishing key _ _ | .marking key _ _ | .resolving key _ _ | .registering key _ _ | .freeing key _ _
  | .clearing key _ _ => some key

def Pc.preparing : Pc → Bool
  | .publishing _ _ _ | .marking _ _ _ => true
  | _ => false

/-- What a by-XID call has answered: `about` is the transaction last prepared here under its XID. -/
structure Answer where
  about : Option Nat
  d : Decision
  ok : Bool
  deriving DecidableEq

structure Core (τ : Type) where
  registry : Store Key Nat
  thread : τ → Pc
  inDoubt : Store Key Nat
  next : Nat
  latest : Key → Option Nat
  resolved : List (Nat × Decision)
  freed : List Nat

structure State (τ : Type) extends Core τ where
  /-- The reserved family `__tidesql_xa_tc`. -/
  markers : Store Key (List TableName)
  marked : List Nat
  answers : List Answer

inductive Action (τ : Type) where
  /-- `tidesdb_txn_prepare` succeeds. -/
  | prepare (i : τ) (xid : Xid) (modTables : List TableName)
  | publish (i : τ)
  | setPreparedInTc (i : τ) (ok : Bool)
  /-- `tidesdb_commit_by_xid` or `tidesdb_rollback_by_xid`, up to the end of the first lock. -/
  | byXid (i : τ) (d : Decision) (xid : Xid)
  /-- `tidesdb_txn_commit_prepared` or `tidesdb_txn_rollback_prepared`. -/
  | phaseTwo (i : τ) (ok : Bool)
  | register (i : τ)
  | free (i : τ)
  | clear (i : τ) (ok : Bool)
  | crash

variable {τ : Type} [DecidableEq τ]

def State.goto (s : State τ) (i : τ) (pc : Pc) : State τ := { s with thread := update s.thread i pc }

def State.answer (s : State τ) (about : Option Nat) (d : Decision) (ok : Bool) : State τ :=
  { s with answers := ⟨about, d, ok⟩ :: s.answers }

def State.prepare (s : State τ) (i : τ) (key : Key) (modTables : List TableName) : State τ :=
  { s with
    inDoubt := s.inDoubt.put key s.next
    next := s.next + 1
    latest := update s.latest key (some s.next) }.goto i (.publishing key s.next modTables)

def State.publish (s : State τ) (i : τ) (key : Key) (txn : Nat) (modTables : List TableName) : State τ :=
  { s with registry := s.registry.put key txn }.goto i (.marking key txn modTables)

def tdbXaTcMark (markers : Store Key (List TableName)) (key : Key) (modTables : List TableName) :
    Store Key (List TableName) :=
  markers.put key modTables

def State.mark (s : State τ) (i : τ) (key : Key) (txn : Nat) (modTables : List TableName) : State τ :=
  { s with markers := tdbXaTcMark s.markers key modTables, marked := txn :: s.marked }.goto i .idle

def State.take (s : State τ) (i : τ) (key : Key) (txn : Nat) (d : Decision) : State τ :=
  { s with registry := s.registry.drop key }.goto i (.resolving key txn d)

def State.resolve (s : State τ) (i : τ) (key : Key) (txn : Nat) (d : Decision) : State τ :=
  { s with inDoubt := s.inDoubt.drop key, resolved := (txn, d) :: s.resolved }.goto i (.freeing key txn d)

def State.register (s : State τ) (i : τ) (key : Key) (txn : Nat) (d : Decision) : State τ :=
  ({ s with registry := s.registry.put key txn }.answer (some txn) d false).goto i .idle

def State.free (s : State τ) (i : τ) (key : Key) (txn : Nat) (d : Decision) : State τ :=
  { s with freed := txn :: s.freed }.goto i (.clearing key txn d)

def tdbXaTcClear (markers : Store Key (List TableName)) (key : Key) (ok : Bool) : Store Key (List TableName) :=
  if ok then markers.drop key else markers

def State.clear (s : State τ) (i : τ) (key : Key) (txn : Nat) (d : Decision) (ok : Bool) : State τ :=
  ({ s with markers := tdbXaTcClear s.markers key ok }.answer (some txn) d true).goto i .idle

def tdbLoadRecoveredPrepared (recovered : Store Key Nat) : Store Key Nat := Store.empty.putAll recovered.entries

def State.restart (s : State τ) : State τ :=
  { s with registry := tdbLoadRecoveredPrepared s.inDoubt, thread := fun _ => .idle }

def step (s : State τ) : Action τ → Option (State τ)
  | .prepare i xid modTables =>
    match s.thread i with
    | .idle => some (s.prepare i (tdbXidKey xid) modTables)
    | _ => none
  | .publish i =>
    match s.thread i with
    | .publishing key txn modTables => some (s.publish i key txn modTables)
    | _ => none
  | .setPreparedInTc i ok =>
    match s.thread i with
    | .marking key txn modTables => if ok then some (s.mark i key txn modTables) else some (s.goto i .idle)
    | _ => none
  | .byXid i d xid =>
    match s.thread i with
    | .idle =>
      match s.registry.get (tdbXidKey xid) with
      -- not one of ours
      | none => some (s.answer (s.latest (tdbXidKey xid)) d true)
      | some txn => some (s.take i (tdbXidKey xid) txn d)
    | _ => none
  | .phaseTwo i ok =>
    match s.thread i with
    | .resolving key txn d => if ok then some (s.resolve i key txn d) else some (s.goto i (.registering key txn d))
    | _ => none
  | .register i =>
    match s.thread i with
    | .registering key txn d => some (s.register i key txn d)
    | _ => none
  | .free i =>
    match s.thread i with
    | .freeing key txn d => some (s.free i key txn d)
    | _ => none
  | .clear i ok =>
    match s.thread i with
    | .clearing key txn d => some (s.clear i key txn d ok)
    | _ => none
  | .crash => some s.restart

def init : State τ where
  registry := Store.empty
  thread _ := .idle
  inDoubt := Store.empty
  next := 0
  latest _ := none
  resolved := []
  freed := []
  markers := Store.empty
  marked := []
  answers := []

/-- An XID is not used again before the call that resolves it has returned, nor a transaction resolved before its `XA
PREPARE` has. -/
def Contract (s : State τ) : Action τ → Prop
  | .prepare _ xid _ => s.inDoubt.get (tdbXidKey xid) = none ∧ ∀ j, (s.thread j).key ≠ some (tdbXidKey xid)
  | .byXid _ _ xid => ∀ j, (s.thread j).key = some (tdbXidKey xid) → (s.thread j).preparing = false
  | _ => True

inductive Stepped (s : State τ) : Action τ → State τ → Prop where
  | prepare {i : τ} (xid : Xid) (modTables : List TableName) : s.thread i = .idle →
    Stepped s (.prepare i xid modTables) (s.prepare i (tdbXidKey xid) modTables)
  | publish {i : τ} {key : Key} {txn : Nat} {modTables : List TableName} : s.thread i = .publishing key txn modTables →
    Stepped s (.publish i) (s.publish i key txn modTables)
  | mark {i : τ} {key : Key} {txn : Nat} {modTables : List TableName} : s.thread i = .marking key txn modTables →
    Stepped s (.setPreparedInTc i true) (s.mark i key txn modTables)
  | unmarked {i : τ} {key : Key} {txn : Nat} {modTables : List TableName} : s.thread i = .marking key txn modTables →
    Stepped s (.setPreparedInTc i false) (s.goto i .idle)
  | miss {i : τ} (d : Decision) {xid : Xid} : s.thread i = .idle → s.registry.get (tdbXidKey xid) = none →
    Stepped s (.byXid i d xid) (s.answer (s.latest (tdbXidKey xid)) d true)
  | take {i : τ} (d : Decision) {xid : Xid} {txn : Nat} : s.thread i = .idle →
    s.registry.get (tdbXidKey xid) = some txn → Stepped s (.byXid i d xid) (s.take i (tdbXidKey xid) txn d)
  | resolve {i : τ} {key : Key} {txn : Nat} {d : Decision} : s.thread i = .resolving key txn d →
    Stepped s (.phaseTwo i true) (s.resolve i key txn d)
  | fail {i : τ} {key : Key} {txn : Nat} {d : Decision} : s.thread i = .resolving key txn d →
    Stepped s (.phaseTwo i false) (s.goto i (.registering key txn d))
  | register {i : τ} {key : Key} {txn : Nat} {d : Decision} : s.thread i = .registering key txn d →
    Stepped s (.register i) (s.register i key txn d)
  | free {i : τ} {key : Key} {txn : Nat} {d : Decision} : s.thread i = .freeing key txn d →
    Stepped s (.free i) (s.free i key txn d)
  | clear {i : τ} {key : Key} {txn : Nat} {d : Decision} (ok : Bool) : s.thread i = .clearing key txn d →
    Stepped s (.clear i ok) (s.clear i key txn d ok)
  | crash : Stepped s .crash s.restart

theorem stepped_of_step {s s' : State τ} {a : Action τ} (h : step s a = some s') : Stepped s a s' := by
  cases a with
  | prepare i xid modTables =>
    rw [step] at h
    split at h
    · cases h
      exact .prepare xid modTables ‹_›
    · cases h
  | publish i =>
    rw [step] at h
    split at h
    · cases h
      exact .publish ‹_›
    · cases h
  | setPreparedInTc i ok =>
    rw [step] at h
    split at h
    · cases ok with
      | true =>
        cases h
        exact .mark ‹_›
      | false =>
        cases h
        exact .unmarked ‹_›
    · cases h
  | byXid i d xid =>
    rw [step] at h
    split at h
    · split at h
      · cases h
        exact .miss d ‹_› ‹_›
      · cases h
        exact .take d ‹_› ‹_›
    · cases h
  | phaseTwo i ok =>
    rw [step] at h
    split at h
    · cases ok with
      | true =>
        cases h
        exact .resolve ‹_›
      | false =>
        cases h
        exact .fail ‹_›
    · cases h
  | register i =>
    rw [step] at h
    split at h
    · cases h
      exact .register ‹_›
    · cases h
  | free i =>
    rw [step] at h
    split at h
    · cases h
      exact .free ‹_›
    · cases h
  | clear i ok =>
    rw [step] at h
    split at h
    · cases h
      exact .clear ok ‹_›
    · cases h
  | crash =>
    cases h
    exact .crash

structure Ledger (inDoubt latest : Key → Option Nat) (next : Nat) (resolved : List (Nat × Decision))
    (freed : List Nat) :
    Prop where
  keyed {key key' : Key} {txn : Nat} : inDoubt key = some txn → inDoubt key' = some txn → key = key'
  newest {key : Key} {txn : Nat} : inDoubt key = some txn → latest key = some txn
  ended {key : Key} {txn : Nat} : latest key = some txn → inDoubt key = some txn ∨ ∃ d, (txn, d) ∈ resolved
  dated {key : Key} {txn : Nat} : latest key = some txn → txn < next
  past {txn : Nat} : txn ∈ resolved.map fst → txn < next
  unresolved {key : Key} {txn : Nat} : inDoubt key = some txn → txn ∉ resolved.map fst
  freedAfter {txn : Nat} : txn ∈ freed → txn ∈ resolved.map fst
  resolvedOnce : (resolved.map fst).Nodup
  freedOnce : freed.Nodup

section Ledgers

variable {inDoubt latest : Key → Option Nat} {next : Nat} {resolved : List (Nat × Decision)} {freed : List Nat}
    {key : Key}
  {txn : Nat}

theorem ledger_empty : Ledger (fun _ => none) (fun _ => none) 0 [] [] where
  keyed h := by cases h
  newest h := by cases h
  ended h := by cases h
  dated h := by cases h
  past h := by cases h
  unresolved h := by cases h
  freedAfter h := by cases h
  resolvedOnce := nodup_nil
  freedOnce := nodup_nil

section

variable (h : Ledger inDoubt latest next resolved freed)
include h

theorem Ledger.prepare (key : Key) :
    Ledger (update inDoubt key (some next)) (update latest key (some next)) (next + 1) resolved freed := by
  have hOld {k : Key} {txn : Nat} (hk : inDoubt k = some txn) : txn < next := h.dated (h.newest hk)
  refine ⟨?_, ?_, ?_, ?_, ?_, ?_, h.freedAfter, h.resolvedOnce, h.freedOnce⟩
  · intro k k' txn hk hk'
    rw [update_apply] at hk hk'
    split at hk <;> split at hk'
    · rename_i hKey hKey'
      exact hKey.trans hKey'.symm
    · cases hk
      exact absurd (hOld hk') (Nat.lt_irrefl _)
    · cases hk'
      exact absurd (hOld hk) (Nat.lt_irrefl _)
    · exact h.keyed hk hk'
  · intro k txn hk
    obtain rfl | hNe := eq_or_ne k key
    · rwa [update_self] at hk ⊢
    · rw [update_of_ne hNe] at hk ⊢
      exact h.newest hk
  · intro k txn hk
    obtain rfl | hNe := eq_or_ne k key
    · rw [update_self] at hk ⊢
      exact .inl hk
    · rw [update_of_ne hNe] at hk ⊢
      exact h.ended hk
  · intro k txn hk
    rw [update_apply] at hk
    split at hk
    · cases hk
      exact Nat.lt_succ_self _
    · exact Nat.lt_succ_of_lt (h.dated hk)
  · exact fun hMem => Nat.lt_succ_of_lt (h.past hMem)
  · intro k txn hk
    rw [update_apply] at hk
    split at hk
    · cases hk
      exact fun hMem => absurd (h.past hMem) (Nat.lt_irrefl _)
    · exact h.unresolved hk

theorem Ledger.resolve (hKey : inDoubt key = some txn) (d : Decision) :
    Ledger (update inDoubt key none) latest next ((txn, d) :: resolved) freed := by
  have hOld {k : Key} {txn' : Nat} (hk : update inDoubt key none k = some txn') : k ≠ key ∧ inDoubt k = some txn' := by
    rw [update_apply] at hk
    split at hk
    · cases hk
    · exact ⟨‹_›, hk⟩
  refine ⟨?_, ?_, ?_, h.dated, ?_, ?_, ?_, ?_, h.freedOnce⟩
  · exact fun hk hk' => h.keyed (hOld hk).2 (hOld hk').2
  · exact fun hk => h.newest (hOld hk).2
  · intro k txn' hk
    obtain hIn | ⟨d', hd'⟩ := h.ended hk
    · obtain rfl | hNe := eq_or_ne k key
      · rw [hKey] at hIn
        cases hIn
        exact .inr ⟨d, mem_cons_self⟩
      · exact .inl ((update_of_ne hNe ..).trans hIn)
    · exact .inr ⟨d', mem_cons_of_mem _ hd'⟩
  · intro txn' hMem
    obtain rfl | hMem := mem_cons.mp hMem
    · exact h.dated (h.newest hKey)
    · exact h.past hMem
  · intro k txn' hk hMem
    obtain ⟨hNe, hk⟩ := hOld hk
    obtain rfl | hMem := mem_cons.mp hMem
    · exact hNe (h.keyed hk hKey)
    · exact h.unresolved hk hMem
  · exact fun hMem => mem_cons_of_mem _ (h.freedAfter hMem)
  · exact nodup_cons.mpr ⟨h.unresolved hKey, h.resolvedOnce⟩

theorem Ledger.free (hResolved : txn ∈ resolved.map fst) (hUnfreed : txn ∉ freed) :
    Ledger inDoubt latest next resolved (txn :: freed) where
  keyed := h.keyed
  newest := h.newest
  ended := h.ended
  dated := h.dated
  past := h.past
  unresolved := h.unresolved
  freedAfter hMem := by
    obtain rfl | hMem := mem_cons.mp hMem
    · exact hResolved
    · exact h.freedAfter hMem
  resolvedOnce := h.resolvedOnce
  freedOnce := nodup_cons.mpr ⟨hUnfreed, h.freedOnce⟩

end

end Ledgers

structure Threads (thread : τ → Pc) (resolved : List (Nat × Decision)) (freed : List Nat) : Prop where
  settled {i : τ} {x : Nat × Decision} : (thread i).settled = some x → x ∈ resolved
  unfreed {i : τ} {key : Key} {txn : Nat} {d : Decision} : thread i = .freeing key txn d → txn ∉ freed
  alone {i j : τ} {key key' : Key} {txn : Nat} {d d' : Decision} :
    thread i = .freeing key txn d → thread j = .freeing key' txn d' → i = j

section ThreadSteps

variable {thread : τ → Pc} {resolved : List (Nat × Decision)} {freed : List Nat} {i : τ} {pc : Pc} {key : Key}
    {txn : Nat}
  {d : Decision}

omit [DecidableEq τ] in
theorem threads_idle : Threads (fun _ : τ => .idle) resolved freed where
  settled h := by cases h
  unfreed h := by cases h
  alone h := by cases h

theorem thread_cases {j : τ} {pc' : Pc} (h : update thread i pc j = pc') : j = i ∧ pc = pc' ∨ thread j = pc' := by
  rw [update_apply] at h
  split at h
  · exact .inl ⟨‹_›, h⟩
  · exact .inr h

section

variable (h : Threads thread resolved freed)
include h

theorem Threads.goto (hPc : pc.settled = none) : Threads (update thread i pc) resolved freed := by
  have hOld {j : τ} {key : Key} {txn : Nat} {d : Decision} (hj : update thread i pc j = .freeing key txn d) :
      thread j = .freeing key txn d := by
    obtain ⟨-, rfl⟩ | hj := thread_cases hj
    · cases hPc
    · exact hj
  refine ⟨fun {j x} hj => ?_, fun hj => h.unfreed (hOld hj), fun hi hj => h.alone (hOld hi) (hOld hj)⟩
  obtain ⟨-, hPc'⟩ | hj' := thread_cases (rfl : update thread i pc j = _)
  · rw [← hPc', hPc] at hj
    cases hj
  · rw [← hj'] at hj
    exact h.settled hj

theorem Threads.resolve (hNew : txn ∉ resolved.map fst) (hUnfreed : txn ∉ freed) :
    Threads (update thread i (.freeing key txn d)) ((txn, d) :: resolved) freed := by
  have hOld {j : τ} {key' : Key} {d' : Decision} (hj : update thread i (.freeing key txn d) j = .freeing key' txn d') :
      j = i := by
    obtain ⟨rfl, -⟩ | hj := thread_cases hj
    · rfl
    · have hMem : (txn, d') ∈ resolved := h.settled (by rw [hj]; rfl)
      exact absurd (mem_map_of_mem hMem) hNew
  refine ⟨fun {j x} hj => ?_, fun {j _ txn' _} hj => ?_, fun {j j' key₁ key₂ txn' d₁ d₂} hj hj' => ?_⟩
  · obtain ⟨-, hPc⟩ | hj' := thread_cases (rfl : update thread i (.freeing key txn d) j = _)
    · rw [← hPc] at hj
      cases hj
      exact mem_cons_self
    · rw [← hj'] at hj
      exact mem_cons_of_mem _ (h.settled hj)
  · obtain ⟨-, hPc⟩ | hj := thread_cases hj
    · cases hPc
      exact hUnfreed
    · exact h.unfreed hj
  · obtain rfl | hNe := eq_or_ne txn' txn
    · exact (hOld hj).trans (hOld hj').symm
    · obtain ⟨-, hPc⟩ | hj := thread_cases hj
      · cases hPc
        exact absurd rfl hNe
      · obtain ⟨-, hPc⟩ | hj' := thread_cases hj'
        · cases hPc
          exact absurd rfl hNe
        · exact h.alone hj hj'

theorem Threads.free (hi : thread i = .freeing key txn d) :
    Threads (update thread i (.clearing key txn d)) resolved (txn :: freed) := by
  have hOld {j : τ} {key' : Key} {txn' : Nat} {d' : Decision}
      (hj : update thread i (.clearing key txn d) j = .freeing key' txn' d') :
      j ≠ i ∧ thread j = .freeing key' txn' d' := by
    rw [update_apply] at hj
    split at hj
    · cases hj
    · exact ⟨‹_›, hj⟩
  refine ⟨fun {j x} hj => ?_, fun {j _ txn' _} hj hMem => ?_, fun hj hj' => h.alone (hOld hj).2 (hOld hj').2⟩
  · obtain ⟨-, hPc⟩ | hj' := thread_cases (rfl : update thread i (.clearing key txn d) j = _)
    · rw [← hPc] at hj
      exact h.settled ((congrArg Pc.settled hi).trans hj)
    · rw [← hj'] at hj
      exact h.settled hj
  · obtain rfl | hMem := mem_cons.mp hMem
    · exact (hOld hj).1 (h.alone (hOld hj).2 hi)
    · exact h.unfreed (hOld hj).2 hMem

end

end ThreadSteps

structure Inv (s : Core τ) : Prop where
  split : Split s.inDoubt.get s.registry.get (Pc.hand ∘ s.thread)
  ledger : Ledger s.inDoubt.get s.latest s.next s.resolved s.freed
  threads : Threads s.thread s.resolved s.freed

omit [DecidableEq τ] in
theorem inv_init : Inv (init : State τ).toCore := ⟨split_shelf _, ledger_empty, threads_idle⟩

section Steps

variable {s s' : State τ} {i : τ} {pc : Pc}

theorem hand_goto : Pc.hand ∘ (s.goto i pc).thread = update (Pc.hand ∘ s.thread) i pc.hand :=
  comp_update ..

section

variable (h : Inv s.toCore)
include h

theorem Inv.goto (hHand : pc.hand = (s.thread i).hand) (hPc : pc.settled = none) : Inv (s.goto i pc).toCore where
  split := by
    rw [hand_goto, hHand]
    exact (update_eq_self i (Pc.hand ∘ s.thread)).symm ▸ h.split
  ledger := h.ledger
  threads := h.threads.goto hPc

theorem Inv.putBack {key : Key} {txn : Nat} (hHand : (s.thread i).hand = some (key, txn)) (hPc : pc.hand = none)
    (hPc' : pc.settled = none) : Inv ({ s with registry := s.registry.put key txn }.goto i pc).toCore where
  split := by
    rw [hand_goto, hPc]
    dsimp only [State.goto]
    rw [get_put_eq]
    exact h.split.putBack hHand
  ledger := h.ledger
  threads := h.threads.goto hPc'

theorem Inv.prepare {key : Key} (hIdle : s.thread i = .idle) (hUnused : s.inDoubt.get key = none)
    (modTables : List TableName) : Inv (s.prepare i key modTables).toCore where
  split := by
    rw [State.prepare, hand_goto]
    dsimp only [State.goto]
    rw [get_put_eq]
    exact h.split.add hUnused (congrArg Pc.hand hIdle)
  ledger := by
    dsimp only [State.prepare, State.goto]
    rw [get_put_eq]
    exact h.ledger.prepare key
  threads := h.threads.goto rfl

theorem Inv.take {key : Key} {txn : Nat} (hIdle : s.thread i = .idle) (hGet : s.registry.get key = some txn)
    (d : Decision) : Inv (s.take i key txn d).toCore where
  split := by
    rw [State.take, hand_goto]
    dsimp only [State.goto]
    rw [get_drop_eq]
    exact h.split.take hGet (congrArg Pc.hand hIdle)
  ledger := h.ledger
  threads := h.threads.goto rfl

theorem Inv.resolve {key : Key} {txn : Nat} {d : Decision} (hPc : s.thread i = .resolving key txn d) :
    Inv (s.resolve i key txn d).toCore := by
  have hHand : (s.thread i).hand = some (key, txn) := congrArg Pc.hand hPc
  have hKey : s.inDoubt.get key = some txn := h.split.held hHand
  have hNew := h.ledger.unresolved hKey
  refine ⟨?_, ?_, h.threads.resolve hNew fun hMem => hNew (h.ledger.freedAfter hMem)⟩
  · rw [State.resolve, hand_goto]
    dsimp only [State.goto]
    rw [get_drop_eq]
    exact h.split.remove hHand
  · dsimp only [State.resolve, State.goto]
    rw [get_drop_eq]
    exact h.ledger.resolve hKey d

theorem Inv.free {key : Key} {txn : Nat} {d : Decision} (hPc : s.thread i = .freeing key txn d) :
    Inv (s.free i key txn d).toCore := by
  have hResolved : (txn, d) ∈ s.resolved := h.threads.settled (congrArg Pc.settled hPc)
  refine ⟨?_, h.ledger.free (mem_map_of_mem hResolved) (h.threads.unfreed hPc), h.threads.free hPc⟩
  have hSame : Pc.hand (.clearing key txn d) = (s.thread i).hand := (congrArg Pc.hand hPc).symm
  rw [State.free, hand_goto, hSame]
  exact (update_eq_self i (Pc.hand ∘ s.thread)).symm ▸ h.split

omit [DecidableEq τ] in
theorem Inv.restart : Inv s.restart.toCore := by
  refine ⟨?_, h.ledger, threads_idle⟩
  rw [State.restart, tdbLoadRecoveredPrepared, get_putAll_entries]
  exact split_shelf _

theorem Inv.step {a : Action τ} (hContract : Contract s a) (hStep : step s a = some s') : Inv s'.toCore := by
  cases stepped_of_step hStep with
  | prepare xid modTables hPc => exact h.prepare hPc hContract.1 modTables
  | publish hPc => exact h.putBack (congrArg Pc.hand hPc) rfl rfl
  | mark hPc | unmarked hPc => exact h.goto (congrArg Pc.hand hPc).symm rfl
  | miss d hPc hMiss => exact h
  | take d hPc hGet => exact h.take hPc hGet d
  | resolve hPc => exact h.resolve hPc
  | fail hPc => exact h.goto (congrArg Pc.hand hPc).symm rfl
  | register hPc => exact h.putBack (congrArg Pc.hand hPc) rfl rfl
  | free hPc => exact h.free hPc
  | clear ok hPc => exact h.goto (congrArg Pc.hand hPc).symm rfl
  | crash => exact h.restart

end

end Steps

end TideSql.XaCalls
