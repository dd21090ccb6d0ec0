import Mathlib
import TideSql.Handler.XaCalls

/-!
# By-XID calls resolve a transaction once

Whatever the interleaving, a prepared transaction is resolved and freed at most once.
-/

namespace TideSql.XaResolve
open XidKey XaCalls Lib Lib.Run

variable {τ : Type}

def Once (s : State τ) : Prop := (s.resolved.map Prod.fst).Nodup ∧ s.freed.Nodup

def Answered (s : State τ) : Prop :=
  ∀ a ∈ s.answers, a.ok = true → ∀ txn, a.about = some txn → (txn, a.d) ∈ s.resolved

/-- A by-XID call starts when no other thread has the transaction in hand, and asks for what has been done if it has
been resolved already. -/
def Condition (s : State τ) : Action τ → Prop
  | .byXid _ d xid => (∀ j, (s.thread j).hand.map Prod.fst ≠ some (tdbXidKey xid)) ∧
    ∀ x ∈ s.resolved, s.latest (tdbXidKey xid) = some x.1 → x.2 = d
  | _ => True

variable {s s' : State τ}

theorem condition_iff (h : Inv s.toCore) {i : τ} {d : Decision} {xid : Xid}
    (hMiss : s.registry.get (tdbXidKey xid) = none) :
    Condition s (.byXid i d xid) ↔ ∀ txn, s.latest (tdbXidKey xid) = some txn → (txn, d) ∈ s.resolved := by
  constructor
  · rintro ⟨hHand, hAsked⟩ txn hLatest
    obtain hDoubt | ⟨d', hd'⟩ := h.ledger.ended hLatest
    · obtain hShelf | ⟨j, hj⟩ := h.split.found hDoubt
      · rw [hMiss] at hShelf
        cases hShelf
      · exact absurd (congrArg (Option.map Prod.fst) hj) (hHand j)
    · obtain rfl : d' = d := hAsked _ hd' hLatest
      exact hd'
  · intro hAll
    refine ⟨fun j hj => ?_, fun x hx hLatest => ?_⟩
    · obtain ⟨⟨key, txn⟩, hHand, rfl⟩ := Option.map_eq_some_iff.mp hj
      have hDoubt := h.split.held hHand
      exact h.ledger.unresolved hDoubt (List.mem_map_of_mem (hAll txn (h.ledger.newest hDoubt)))
    · have hEq := List.inj_on_of_nodup_map h.ledger.resolvedOnce hx (hAll x.1 hLatest) rfl
      exact congrArg Prod.snd hEq

theorem Answered.mono (h : Answered s) (hAnswers : s'.answers = s.answers) (hResolved : s.resolved ⊆ s'.resolved) :
    Answered s' := by
  intro a ha hOk txn hAbout
  rw [hAnswers] at ha
  exact hResolved (h a ha hOk txn hAbout)

theorem Answered.cons (h : Answered s) {a₀ : Answer} (hAnswers : s'.answers = a₀ :: s.answers)
    (hResolved : s'.resolved = s.resolved)
    (hNew : a₀.ok = true → ∀ txn, a₀.about = some txn → (txn, a₀.d) ∈ s.resolved) : Answered s' := by
  intro a ha hOk txn hAbout
  rw [hAnswers] at ha
  rw [hResolved]
  obtain rfl | ha := List.mem_cons.mp ha
  · exact hNew hOk txn hAbout
  · exact h a ha hOk txn hAbout

variable [DecidableEq τ]

theorem Answered.step (h : Answered s) (hInv : Inv s.toCore) {a : Action τ} (hCondition : Condition s a)
    (hStep : step s a = some s') : Answered s' := by
  cases stepped_of_step hStep with
  | miss d hPc hMiss => exact h.cons rfl rfl fun _ => (condition_iff hInv hMiss).mp hCondition
  | register hPc => exact h.cons rfl rfl fun hOk => by cases hOk
  | clear ok hPc =>
    refine h.cons rfl rfl fun _ txn hAbout => ?_
    cases hAbout
    exact hInv.threads.settled (congrArg Pc.settled hPc)
  | resolve hPc => exact h.mono rfl (List.subset_cons_self _ _)
  | prepare | publish | mark | unmarked | take | fail | free | crash => exact h.mono rfl (List.Subset.refl _)

theorem inv_of_reach (hReach : Reach step Contract init s) : Inv s.toCore :=
  hReach.invariant (fun s => Inv s.toCore) inv_init fun _ _ _ h hContract hStep => h.step hContract hStep

/-- Each transaction is resolved and freed at most once; where every by-XID call meets the condition, each answer OK
is right. -/
theorem resolved_once_as_asked (hReach : Reach step Contract init s) :
    Once s ∧ (Reach step (fun s a => Contract s a ∧ Condition s a) init s → Answered s) := by
  have hInv := inv_of_reach hReach
  refine ⟨⟨hInv.ledger.resolvedOnce, hInv.ledger.freedOnce⟩, fun hCareful => ?_⟩
  have hBoth := hCareful.invariant (fun s => Inv s.toCore ∧ Answered s) ⟨inv_init, nofun⟩
    fun _ _ _ h hGuard hStep => ⟨h.1.step hGuard.1 hStep, h.2.step h.1 hGuard.2 hStep⟩
  exact hBoth.2

section Samples

variable [Fintype τ]

instance instDecidableContract (s : State τ) (a : Action τ) : Decidable (Contract s a) :=
  match a with
  | .prepare _ xid _ =>
    inferInstanceAs (Decidable (s.inDoubt.get (tdbXidKey xid) = none ∧ ∀ j, (s.thread j).key ≠ some (tdbXidKey xid)))
  | .byXid _ _ xid =>
    inferInstanceAs (Decidable (∀ j, (s.thread j).key = some (tdbXidKey xid) → (s.thread j).preparing = false))
  | .publish _ | .setPreparedInTc _ _ | .phaseTwo _ _ | .register _ | .free _ | .clear _ _ | .crash => .isTrue trivial

instance instDecidableCondition (s : State τ) (a : Action τ) : Decidable (Condition s a) :=
  match a with
  | .byXid _ d xid =>
    inferInstanceAs (Decidable ((∀ j, (s.thread j).hand.map Prod.fst ≠ some (tdbXidKey xid)) ∧
      ∀ x ∈ s.resolved, s.latest (tdbXidKey xid) = some x.1 → x.2 = d))
  | .prepare _ _ _ | .publish _ | .setPreparedInTc _ _ | .phaseTwo _ _ | .register _ | .free _ | .clear _ _ | .crash =>
    .isTrue trivial

inductive Worker where
  | first
  | second
  deriving DecidableEq

instance instFintypeWorker : Fintype Worker := ⟨{.first, .second}, fun i => by cases i <;> decide⟩

def xid₀ : Xid := ⟨1, [1], [2], by decide⟩

def xaPrepare (i : Worker) : List (Action Worker) := [.prepare i xid₀ [], .publish i, .setPreparedInTc i true]

def retried : List (Action Worker) :=
  xaPrepare .first ++ [.byXid .second .commit xid₀, .phaseTwo .second false, .register .second] ++
    [.byXid .first .commit xid₀, .phaseTwo .first true, .byXid .second .commit xid₀, .free .first, .clear .first true]

theorem retried_as_asked : ∃ s : State Worker, Reach step Contract init s ∧
    s.answers = [⟨some 0, .commit, true⟩, ⟨some 0, .commit, true⟩, ⟨some 0, .commit, false⟩] ∧ Once s ∧ Answered s := by
  have hEnds : (guardedRun step (fun s a => Contract s a ∧ Condition s a) init retried).any (fun s : State Worker =>
      s.answers = [⟨some 0, .commit, true⟩, ⟨some 0, .commit, true⟩, ⟨some 0, .commit, false⟩]) = true := by
    decide +kernel
  obtain ⟨s, hCareful, hAnswers⟩ := reach_of_any_guardedRun hEnds
  have hReach : Reach step Contract init s := hCareful.mono fun _ _ h => h.1
  have hBoth := resolved_once_as_asked hReach
  exact ⟨s, hReach, of_decide_eq_true hAnswers, hBoth.1, hBoth.2 hCareful⟩

def overlapping : List (Action Worker) :=
  xaPrepare .first ++
    [.byXid .first .commit xid₀, .byXid .second .rollback xid₀, .phaseTwo .first true, .free .first, .clear .first true]

theorem rollback_answered_for_committed : ¬ ∀ s : State Worker, Reach step Contract init s → Answered s := by
  intro hAll
  have hEnds : (guardedRun step Contract init overlapping).any (fun s : State Worker =>
      decide (⟨some 0, .rollback, true⟩ ∈ s.answers) && decide ((0, .rollback) ∉ s.resolved)) = true := by
    decide +kernel
  obtain ⟨s, hReach, hWrong⟩ := reach_of_any_guardedRun hEnds
  rw [Bool.and_eq_true, decide_eq_true_eq, decide_eq_true_eq] at hWrong
  exact hWrong.2 (hAll s hReach _ hWrong.1 rfl 0 rfl)

end Samples

end TideSql.XaResolve
