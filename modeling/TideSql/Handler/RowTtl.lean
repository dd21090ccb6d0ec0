import TideSql.Lib.Run
import TideSql.Lib.Expiry
import TideSql.Handler.Dml

/-!
# The time to live of a row

`write_row` and `update_row` put everything they put with one duration, taken from the row, the session and the table.
Where no call has one, the transactions run as they do without a clock.
-/

namespace TideSql.Dml
open KeyCodec SortKey IndexRead Lib Lib.Bytes Lib.Snapshot Lib.Run Lib.Expiry

structure TtlOptions (ι : Type) where
  ttlField : Option ι
  valInt : Bytes → Int
  defaultTtl : Nat

section Durations

variable {ι : Type}

def ttlSeconds (opts : TtlOptions ι) (cachedSessTtl : Nat) (buf : Row ι) : Int :=
  let ttlSeconds : Int := (opts.ttlField.bind buf).elim 0 opts.valInt
  let ttlSeconds : Int := if ttlSeconds ≤ 0 ∧ cachedSessTtl > 0 then cachedSessTtl else ttlSeconds
  if ttlSeconds ≤ 0 ∧ opts.defaultTtl > 0 then opts.defaultTtl else ttlSeconds

def computeRowTtl (opts : TtlOptions ι) (cachedSessTtl : Nat) (buf : Row ι) : Option Nat :=
  if ttlSeconds opts cachedSessTtl buf ≤ 0 then none else some (ttlSeconds opts cachedSessTtl buf).toNat

def hasTtl (opts : TtlOptions ι) : Bool := decide (opts.defaultTtl > 0) || opts.ttlField.isSome

def rowTtl (opts : TtlOptions ι) (cachedSessTtl : Nat) : Call ι → Option Nat
  | .write _ _ buf | .update _ _ buf _ =>
    if hasTtl opts || decide (cachedSessTtl > 0) then computeRowTtl opts cachedSessTtl buf else none
  | .delete .. => none

end Durations

/-- The transactions on a table and the clock the library expires their entries by. -/
structure Timed (τ ι : Type) where
  now : Nat
  world : World τ Key (Cell (Val ι))

inductive TimedAction (τ ι : Type) where
  | call (cachedSessTtl : Nat) (a : Action τ ι)
  | tick (seconds : Nat)

section System

variable {τ ι β : Type} [DecidableEq τ]

/-- The calls of `step` on what has not expired: the checks of a row call read no expired entry, and its puts are given
the row's duration. -/
def timedCall (opts : TtlOptions ι) (T : Table ι β) (st : Timed τ ι) (cachedSessTtl : Nat) :
    Action τ ι → Option (World τ Key (Cell (Val ι)))
  | .start i => Snapshot.step st.world (.start i)
  | .row i s c =>
    match st.world.active i with
    | none => none
    | some t =>
      match rowCall T s (visible st.now t.view) c with
      | .error _ => some st.world
      | .ok ops => Snapshot.step st.world (.write i (ops.map (stamp st.now (rowTtl opts cachedSessTtl c))))
  | .undo i n => Snapshot.step st.world (.undo i n)
  | .commit i => Snapshot.step st.world (.commit i)
  | .abort i => Snapshot.step st.world (.abort i)

def timedStep (opts : TtlOptions ι) (T : Table ι β) (st : Timed τ ι) : TimedAction τ ι → Option (Timed τ ι)
  | .call cachedSessTtl a => (timedCall opts T st cachedSessTtl a).map fun w => { st with world := w }
  | .tick seconds => some { st with now := st.now + seconds }

def timedInit : Timed τ ι := ⟨0, init Store.empty⟩

/-- What is committed and has not expired. -/
def Timed.committed (st : Timed τ ι) : Store Key (Val ι) := visible st.now st.world.committed

/-- The transactions with the deadlines left out. -/
def Timed.plain (st : Timed τ ι) : World τ Key (Val ι) := st.world.map Cell.value

def Timed.untimed (now : Nat) (w : World τ Key (Val ι)) : Timed τ ι := ⟨now, w.map everlasting⟩

/-- No call gives its row a duration, and every call meets the condition. -/
def NoTtl (opts : TtlOptions ι) (guard : World τ Key (Val ι) → Action τ ι → Prop) (st : Timed τ ι) :
    TimedAction τ ι → Prop
  | .call cachedSessTtl a => (∀ i s c, a = .row i s c → rowTtl opts cachedSessTtl c = none) ∧ guard st.plain a
  | .tick _ => True

end System

section Untimed

variable {τ ι β : Type} [DecidableEq τ] {opts : TtlOptions ι} {T : Table ι β}
  {guard : World τ Key (Val ι) → Action τ ι → Prop}

omit [DecidableEq τ] in
theorem plain_untimed (now : Nat) (w : World τ Key (Val ι)) : (Timed.untimed now w).plain = w :=
  map_map_of_leftInverse everlasting (fun _ => rfl) w

theorem timedCall_untimed (now : Nat) (w : World τ Key (Val ι)) {cachedSessTtl : Nat} {a : Action τ ι}
    (hTtl : ∀ i s c, a = .row i s c → rowTtl opts cachedSessTtl c = none) :
    timedCall opts T (Timed.untimed now w) cachedSessTtl a = (step T w a).map (World.map everlasting) := by
  have hStep := Snapshot.step_map (τ := τ) (κ := Key) (everlasting (ν := Val ι)) w
  cases a with
  | start i => exact hStep (.start i)
  | row i s c =>
    have hActive : (w.map everlasting).active i = (w.active i).map (Txn.map everlasting) := rfl
    rw [timedCall, step, Timed.untimed, hActive]
    cases w.active i with
    | none => rfl
    | some t =>
      simp only [Option.map_some, view_map, visible_everlasting]
      cases rowCall T s t.view c with
      | error d => rfl
      | ok ops =>
        rw [hTtl i s c rfl]
        exact hStep (.write i ops)
  | undo i n => exact hStep (.undo i n)
  | commit i => exact hStep (.commit i)
  | abort i => exact hStep (.abort i)

/-- A run in which no row has a duration is a run of `step`, whatever the clock says. -/
theorem reach_plain {st : Timed τ ι} (h : Reach (timedStep opts T) (NoTtl opts guard) timedInit st) :
    st = .untimed st.now st.plain ∧ Reach (step T) guard (init Store.empty) st.plain := by
  induction h with
  | init => exact ⟨rfl, .init⟩
  | @step st st' a _ hGuard hStep ih =>
    obtain ⟨hUntimed, hReach⟩ := ih
    cases a with
    | tick seconds =>
      cases hStep
      exact ⟨congrArg (fun st : Timed τ ι => { st with now := st.now + seconds }) hUntimed, hReach⟩
    | call cachedSessTtl a =>
      obtain ⟨hTtl, hGuard⟩ := hGuard
      obtain ⟨w', hCall, rfl⟩ := Option.map_eq_some_iff.mp hStep
      rw [hUntimed, timedCall_untimed _ _ hTtl] at hCall
      obtain ⟨w, hNext, rfl⟩ := Option.map_eq_some_iff.mp hCall
      have hPlain : Timed.plain { st with world := w.map everlasting } = w := plain_untimed st.now w
      rw [hPlain]
      exact ⟨rfl, hReach.step a hGuard hNext⟩

theorem shows_visible {st : Timed τ ι} (h : Reach (timedStep opts T) (NoTtl opts guard) timedInit st)
    {s : Store Key (Cell (Val ι))} (hs : st.world.Shows s) : st.plain.Shows (visible st.now s) := by
  rw [(reach_plain h).1] at hs
  obtain ⟨s', hs', rfl⟩ := shows_map everlasting hs
  rwa [visible_everlasting]

theorem committed_eq {st : Timed τ ι} (h : Reach (timedStep opts T) (NoTtl opts guard) timedInit st) :
    st.committed = st.plain.committed := by
  rw [Timed.committed, (reach_plain h).1, plain_untimed]
  exact visible_everlasting ..

/-- Every run of `step` is one of the table with a clock. -/
theorem timedStep_untimed (hOff : ∀ c, rowTtl opts 0 c = none) (now : Nat) (w : World τ Key (Val ι)) (a : Action τ ι) :
    timedStep opts T (.untimed now w) (.call 0 a) = (step T w a).map (.untimed now) := by
  rw [timedStep, timedCall_untimed now w fun _ _ c _ => hOff c, Option.map_map]
  rfl

theorem reach_untimed (hOff : ∀ c, rowTtl opts 0 c = none) {w : World τ Key (Val ι)}
    (h : Reach (step T) guard (init Store.empty) w) (now : Nat) :
    Reach (timedStep opts T) (NoTtl opts guard) timedInit (.untimed now w) := by
  induction h with
  | init =>
    refine .step (.tick now) .init trivial ?_
    rw [timedStep, timedInit, Nat.zero_add]
    rfl
  | @step w w' a _ hGuard hNext ih =>
    have hPlain : (Timed.untimed now w).plain = w := plain_untimed ..
    refine ih.step (.call 0 a) ⟨fun _ _ c _ => hOff c, hPlain.symm ▸ hGuard⟩ ?_
    rw [timedStep_untimed hOff, hNext, Option.map_some]

end Untimed

end TideSql.Dml
