import Mathlib
import TideSql.Lib.Run

/-!
# The auto-increment counter of a share

Sessions reserve values and raise the counter past explicit ones, each by a loop around one
compare-and-exchange of the shared counter.
-/

namespace TideSql.AutoIncrement
open Lib.Run List Nat Function

structure Variables where
  offset : Nat
  increment : Nat
  positive : 0 < increment

structure Reservation where
  firstValue : UInt64
  nbReservedValues : UInt64
  vars : Variables

/-- `compute_next_insert_id` of the server, which makes the first value of a reservation. -/
structure Rounding where
  next : Nat → Variables → Nat
  lt_next : ∀ nr v, nr < next nr v
  next_one : ∀ nr v, v.increment = 1 → next nr v = nr + 1

def Reservation.values (R : Rounding) (r : Reservation) : List Nat :=
  (range r.nbReservedValues.toNat).map fun k => R.next (r.firstValue.toNat - 1) r.vars + k * r.vars.increment

inductive Local where
  | idle
  | reserving (cur nbDesiredValues : UInt64) (v : Variables)
  | bumping (cur val : UInt64) (explicit : Bool)

inductive Event where
  | reserved (r : Reservation)
  | inserted (val : UInt64)

structure Counter (τ : Type) where
  autoIncVal : UInt64
  sessions : τ → Local
  history : List Event

inductive Action (τ : Type) where
  | getAutoIncrement (i : τ) (nbDesiredValues : UInt64) (v : Variables)
  | bump (i : τ) (val : UInt64) (explicit : Bool)
  | turn (i : τ) (spurious : Bool)

section Exec

variable {τ : Type} [DecidableEq τ]

def Counter.enter (s : Counter τ) (i : τ) (l : Local) : Counter τ :=
  { s with sessions := update s.sessions i l }

def inserted (val : UInt64) (explicit : Bool) : List Event := if explicit then [.inserted val] else []

def step (s : Counter τ) : Action τ → Option (Counter τ)
  | .getAutoIncrement i nb v =>
    match s.sessions i with
    | .idle => some (s.enter i (.reserving s.autoIncVal nb v))
    | _ => none
  | .bump i val explicit =>
    match s.sessions i with
    | .idle => some (s.enter i (.bumping s.autoIncVal val explicit))
    | _ => none
  | .turn i spurious =>
    match s.sessions i with
    | .idle => none
    | .reserving cur nb v =>
      if s.autoIncVal = cur ∧ spurious = false then
        some { s.enter i .idle with autoIncVal := cur + nb, history := .reserved ⟨cur + 1, nb, v⟩ :: s.history }
      else some (s.enter i (.reserving s.autoIncVal nb v))
    | .bumping cur val explicit =>
      if val ≤ cur then some { s.enter i .idle with history := inserted val explicit ++ s.history }
      else if s.autoIncVal = cur ∧ spurious = false then
        some { s.enter i .idle with autoIncVal := val, history := inserted val explicit ++ s.history }
      else some (s.enter i (.bumping s.autoIncVal val explicit))

def start (autoIncVal : UInt64) : Counter τ := ⟨autoIncVal, fun _ => .idle, []⟩

end Exec

section Values

variable {R : Rounding} {r : Reservation}

theorem le_of_mem_values {n : Nat} (h : n ∈ r.values R) : r.firstValue.toNat ≤ n := by
  obtain ⟨k, -, rfl⟩ := mem_map.mp h
  have hFirst := R.lt_next (r.firstValue.toNat - 1) r.vars
  omega

theorem ne_zero_of_mem_values {n : Nat} (h : n ∈ r.values R) : 0 < r.nbReservedValues.toNat := by
  obtain ⟨k, hk, -⟩ := mem_map.mp h
  have hLt := mem_range.mp hk
  omega

theorem le_of_mem_values_one (hOne : r.vars.increment = 1) {n : Nat} (h : n ∈ r.values R) :
    n ≤ r.firstValue.toNat - 1 + r.nbReservedValues.toNat := by
  obtain ⟨k, hk, rfl⟩ := mem_map.mp h
  have hLt := mem_range.mp hk
  rw [R.next_one _ _ hOne, hOne]
  omega

end Values

section Runs

variable {τ : Type} [DecidableEq τ]

/-- A reservation shares no value with an earlier one, nor with what was inserted before it. -/
def Apart (R : Rounding) : Event → Event → Prop
  | .reserved r, .reserved r' => (r.values R).Disjoint (r'.values R)
  | .reserved r, .inserted val => val.toNat ∉ r.values R
  | .inserted _, _ => True

/-- A reservation is made in front of all values made of the earlier ones, and does not run past the end. -/
def Spaced (R : Rounding) (s : Counter τ) : Action τ → Prop
  | .turn i _ => ∀ cur nb v, s.sessions i = .reserving cur nb v → s.autoIncVal = cur →
      cur.toNat + nb.toNat < 2 ^ 64 ∧ ∀ r, .reserved r ∈ s.history → ∀ n ∈ r.values R, n ≤ cur.toNat
  | _ => True

structure Inv (R : Rounding) (s : Counter τ) : Prop where
  apart : s.history.Pairwise (Apart R)
  inserted_le : ∀ val, .inserted val ∈ s.history → val.toNat ≤ s.autoIncVal.toNat
  bumping_le : ∀ i cur val explicit, s.sessions i = .bumping cur val explicit → cur.toNat ≤ s.autoIncVal.toNat

variable {R : Rounding}

omit [DecidableEq τ] in
theorem inv_start (autoIncVal : UInt64) : Inv R (start autoIncVal : Counter τ) where
  apart := .nil
  inserted_le _ h := by cases h
  bumping_le _ _ _ _ h := by cases h

variable {a : Action τ}

theorem step_cases {s s' : Counter τ} (h : step s a = some s') :
    (∃ i l, s' = s.enter i l ∧ (∀ cur val explicit, l = .bumping cur val explicit → cur = s.autoIncVal) ∧
      ∀ cur nb v, l = .reserving cur nb v → a = .getAutoIncrement i nb v ∨
        ∃ cur', s.sessions i = .reserving cur' nb v) ∨
    (∃ i spurious nb v, a = .turn i spurious ∧ s.sessions i = .reserving s.autoIncVal nb v ∧ s' = { s.enter i .idle with
        autoIncVal := s.autoIncVal + nb, history := .reserved ⟨s.autoIncVal + 1, nb, v⟩ :: s.history }) ∨
    (∃ i cur val explicit, s.sessions i = .bumping cur val explicit ∧ val ≤ cur ∧
      s' = { s.enter i .idle with history := inserted val explicit ++ s.history }) ∨
    ∃ i val explicit, s.autoIncVal < val ∧
      s' = { s.enter i .idle with autoIncVal := val, history := inserted val explicit ++ s.history } := by
  cases a with
  | getAutoIncrement i nb v =>
    rw [step] at h
    split at h
    · cases h
      exact .inl ⟨i, _, rfl, fun _ _ _ hEq => (by cases hEq), fun _ _ _ hEq => by cases hEq; exact .inl rfl⟩
    · cases h
  | bump i val explicit =>
    rw [step] at h
    split at h
    · cases h
      exact .inl ⟨i, _, rfl, fun _ _ _ hEq => (by cases hEq; rfl), fun _ _ _ hEq => by cases hEq⟩
    · cases h
  | turn i spurious =>
    rw [step] at h
    split at h
    · cases h
    · rename_i cur nb v hLocal
      split at h
      · rename_i hWon
        obtain ⟨rfl, -⟩ := hWon
        cases h
        exact .inr (.inl ⟨i, spurious, nb, v, rfl, hLocal, rfl⟩)
      · cases h
        exact .inl ⟨i, _, rfl, fun _ _ _ hEq => (by cases hEq), fun _ _ _ hEq => by cases hEq; exact .inr ⟨cur, hLocal⟩⟩
    · rename_i cur val explicit hLocal
      split at h
      · rename_i hLe
        cases h
        exact .inr (.inr (.inl ⟨i, cur, val, explicit, hLocal, hLe, rfl⟩))
      · rename_i hLt
        split at h
        · rename_i hWon
          obtain ⟨rfl, -⟩ := hWon
          cases h
          exact .inr (.inr (.inr ⟨i, val, explicit, UInt64.not_le.mp hLt, rfl⟩))
        · cases h
          exact .inl ⟨i, _, rfl, fun _ _ _ hEq => (by cases hEq; rfl), fun _ _ _ hEq => by cases hEq⟩

variable {explicit : Bool}

theorem mem_inserted {val : UInt64} {e : Event} (h : e ∈ inserted val explicit) : e = .inserted val := by
  rw [inserted] at h
  split at h
  · exact mem_singleton.mp h
  · cases h

theorem pairwise_inserted {val : UInt64} {history : List Event} (h : history.Pairwise (Apart R)) :
    (inserted val explicit ++ history).Pairwise (Apart R) := by
  rw [inserted]
  split
  · exact pairwise_cons.mpr ⟨fun _ _ => trivial, h⟩
  · exact h

variable {s : Counter τ}

theorem Inv.raise (h : Inv R s) (i : τ) {c val : UInt64} (hRise : s.autoIncVal.toNat ≤ c.toNat)
    (hVal : val.toNat ≤ c.toNat) :
    Inv R { s.enter i .idle with autoIncVal := c, history := inserted val explicit ++ s.history } where
  apart := pairwise_inserted h.apart
  inserted_le val' hMem := by
    obtain hMem | hMem := mem_append.mp hMem
    · cases mem_inserted hMem
      exact hVal
    · exact le_trans (h.inserted_le val' hMem) hRise
  bumping_le j cur val' explicit' hLocal := by
    obtain rfl | hNe := eq_or_ne j i
    · simp [Counter.enter] at hLocal
    · simp only [Counter.enter, update_of_ne hNe] at hLocal
      exact le_trans (h.bumping_le j cur val' explicit' hLocal) hRise

theorem Inv.enter (h : Inv R s) (i : τ) {l : Local}
    (hLocal : ∀ cur val explicit, l = .bumping cur val explicit → cur = s.autoIncVal) : Inv R (s.enter i l) where
  apart := h.apart
  inserted_le := h.inserted_le
  bumping_le j cur val explicit hEq := by
    obtain rfl | hNe := eq_or_ne j i
    · simp only [Counter.enter, update_self] at hEq
      rw [hLocal cur val explicit hEq]
      exact le_refl _
    · simp only [Counter.enter, update_of_ne hNe] at hEq
      exact h.bumping_le j cur val explicit hEq

theorem Inv.reserve (h : Inv R s) (i : τ) {nb : UInt64} (v : Variables) (hFits : s.autoIncVal.toNat + nb.toNat < 2 ^ 64)
    (hFront : ∀ r, .reserved r ∈ s.history → ∀ n ∈ r.values R, n ≤ s.autoIncVal.toNat) : Inv R { s.enter i .idle with
      autoIncVal := s.autoIncVal + nb, history := .reserved ⟨s.autoIncVal + 1, nb, v⟩ :: s.history } := by
  have hRise : (s.autoIncVal + nb).toNat = s.autoIncVal.toNat + nb.toNat := by
    rw [UInt64.toNat_add, mod_eq_of_lt hFits]
  -- every value of the new reservation is above the counter
  have hAbove : ∀ n ∈ (Reservation.mk (s.autoIncVal + 1) nb v).values R, s.autoIncVal.toNat < n := by
    intro n hn
    have hPos : 0 < nb.toNat := ne_zero_of_mem_values hn
    have hLe : (s.autoIncVal + 1).toNat ≤ n := le_of_mem_values hn
    rw [UInt64.toNat_add, UInt64.toNat_one, mod_eq_of_lt (by omega)] at hLe
    omega
  refine ⟨pairwise_cons.mpr ⟨fun e he => ?_, h.apart⟩, fun val hMem => ?_, fun j cur val explicit hLocal => ?_⟩
  · cases e with
    | reserved r =>
      intro n hn hn'
      have hBelow := hFront r he n hn'
      have hOver := hAbove n hn
      omega
    | inserted val =>
      intro hn
      have hBelow := h.inserted_le val he
      have hOver := hAbove _ hn
      omega
  · obtain hEq | hMem := mem_cons.mp hMem
    · cases hEq
    · have hLe := h.inserted_le val hMem
      simp only [hRise]
      omega
  · obtain rfl | hNe := eq_or_ne j i
    · simp [Counter.enter] at hLocal
    · simp only [Counter.enter, update_of_ne hNe] at hLocal
      have hLe := h.bumping_le j cur val explicit hLocal
      simp only [hRise]
      omega

theorem Inv.step {s s' : Counter τ} (h : Inv R s) (hSpaced : Spaced R s a) (hStep : step s a = some s') : Inv R s' := by
  obtain ⟨i, l, rfl, hLocal, -⟩ | ⟨i, spurious, nb, v, rfl, hLocal, rfl⟩ |
    ⟨i, cur, val, explicit, hLocal, hLe, rfl⟩ | ⟨i, val, explicit, hLt, rfl⟩ := step_cases hStep
  · exact h.enter i hLocal
  · obtain ⟨hFits, hFront⟩ := hSpaced _ nb v hLocal rfl
    exact h.reserve i v hFits hFront
  · exact h.raise i (le_refl _) (le_trans (UInt64.le_iff_toNat_le.mp hLe) (h.bumping_le i cur val explicit hLocal))
  · exact h.raise i (le_of_lt (UInt64.lt_iff_toNat_lt.mp hLt)) (le_refl _)

def Local.Fits : Local → Prop
  | .reserving cur nb _ => cur.toNat + nb.toNat < 2 ^ 64
  | _ => True

instance decidableFits : DecidablePred Local.Fits
  | .reserving cur nb _ => inferInstanceAs (Decidable (cur.toNat + nb.toNat < 2 ^ 64))
  | .idle => isTrue trivial
  | .bumping .. => isTrue trivial

/-- Every session counts by one, and no reservation runs past the end. -/
def ByOne (s : Counter τ) : Action τ → Prop
  | .getAutoIncrement _ _ v => v.increment = 1
  | .turn i _ => (s.sessions i).Fits
  | .bump .. => True

instance decidableByOne (s : Counter τ) (a : Action τ) : Decidable (ByOne s a) :=
  match a with
  | .getAutoIncrement _ _ v => inferInstanceAs (Decidable (v.increment = 1))
  | .turn i _ => inferInstanceAs (Decidable (s.sessions i).Fits)
  | .bump .. => isTrue trivial

structure Covered (R : Rounding) (s : Counter τ) : Prop where
  le : ∀ r, .reserved r ∈ s.history → ∀ n ∈ r.values R, n ≤ s.autoIncVal.toNat
  one : ∀ i cur nb v, s.sessions i = .reserving cur nb v → v.increment = 1

theorem Covered.one_idle (h : Covered R s) (i : τ) (j : τ) (cur nb : UInt64) (v : Variables)
    (hLocal : (s.enter i .idle).sessions j = .reserving cur nb v) : v.increment = 1 := by
  obtain rfl | hNe := eq_or_ne j i
  · simp [Counter.enter] at hLocal
  · simp only [Counter.enter, update_of_ne hNe] at hLocal
    exact h.one j cur nb v hLocal

theorem Covered.raise (h : Covered R s) (i : τ) {c : UInt64} (val : UInt64) (explicit : Bool)
    (hRise : s.autoIncVal.toNat ≤ c.toNat) :
    Covered R { s.enter i .idle with autoIncVal := c, history := inserted val explicit ++ s.history } where
  le r hMem n hn := by
    obtain hMem | hMem := mem_append.mp hMem
    · cases mem_inserted hMem
    · exact le_trans (h.le r hMem n hn) hRise
  one := h.one_idle i

theorem Covered.step {s s' : Counter τ} (h : Covered R s) (hOne : ByOne s a) (hStep : step s a = some s') :
    Covered R s' := by
  obtain ⟨i, l, rfl, -, hReserving⟩ | ⟨i, spurious, nb, v, rfl, hLocal, rfl⟩ |
    ⟨i, cur, val, explicit, hLocal, hLe, rfl⟩ | ⟨i, val, explicit, hLt, rfl⟩ := step_cases hStep
  · refine ⟨h.le, fun j cur nb v hLocal => ?_⟩
    obtain rfl | hNe := eq_or_ne j i
    · simp only [Counter.enter, update_self] at hLocal
      obtain rfl | ⟨cur', hOld⟩ := hReserving cur nb v hLocal
      · exact hOne
      · exact h.one j cur' nb v hOld
    · simp only [Counter.enter, update_of_ne hNe] at hLocal
      exact h.one j cur nb v hLocal
  · have hFits : s.autoIncVal.toNat + nb.toNat < 2 ^ 64 := by
      rw [ByOne, hLocal] at hOne
      exact hOne
    have hRise : (s.autoIncVal + nb).toNat = s.autoIncVal.toNat + nb.toNat := by
      rw [UInt64.toNat_add, mod_eq_of_lt hFits]
    refine ⟨fun r hMem n hn => ?_, h.one_idle i⟩
    simp only [hRise]
    obtain hEq | hMem := mem_cons.mp hMem
    · cases hEq
      have hPos : 0 < nb.toNat := ne_zero_of_mem_values hn
      have hLe : n ≤ (s.autoIncVal + 1).toNat - 1 + nb.toNat := le_of_mem_values_one (h.one i _ nb v hLocal) hn
      rw [UInt64.toNat_add, UInt64.toNat_one, mod_eq_of_lt (by omega)] at hLe
      omega
    · have hLe := h.le r hMem n hn
      omega
  · exact h.raise i val explicit (le_refl _)
  · exact h.raise i val explicit (le_of_lt (UInt64.lt_iff_toNat_lt.mp hLt))

theorem spaced_of_byOne {autoIncVal : UInt64} (h : Reach step ByOne (start autoIncVal) s) :
    Reach step (Spaced R) (start autoIncVal) s := by
  have hBoth : Reach step (Spaced R) (start autoIncVal) s ∧ Covered R s := by
    induction h with
    | init => exact ⟨.init, fun _ hMem => (by cases hMem), fun _ _ _ _ hLocal => by cases hLocal⟩
    | step a _ hOne hNext ih =>
      refine ⟨ih.1.step a ?_ hNext, ih.2.step hOne hNext⟩
      cases a with
      | getAutoIncrement i nb v | bump i val explicit => trivial
      | turn i spurious =>
        intro cur nb v hLocal hCur
        rw [ByOne, hLocal] at hOne
        exact ⟨hOne, hCur ▸ ih.2.le⟩
  exact hBoth.1

/-- The values of a reservation are in no earlier one and not among the explicit values inserted before, when every
session has increment 1 and no reservation runs past the end; for other increments, when each reservation is made in
front of the values of the earlier ones. -/
theorem reservations_apart (R : Rounding) (autoIncVal : UInt64) (s : Counter τ) :
    (Reach step ByOne (start autoIncVal) s → s.history.Pairwise (Apart R)) ∧
      (Reach step (Spaced R) (start autoIncVal) s → s.history.Pairwise (Apart R)) := by
  have hSpaced : Reach step (Spaced R) (start autoIncVal) s → s.history.Pairwise (Apart R) := fun h =>
    (h.invariant (Inv R) (inv_start autoIncVal) fun _ _ _ hInv => hInv.step).apart
  exact ⟨fun h => hSpaced (spaced_of_byOne h), hSpaced⟩

def computeNextInsertId (nr : Nat) (v : Variables) : Nat :=
  if v.increment = 1 then nr + 1 else (nr + v.increment - v.offset) / v.increment * v.increment + v.offset

theorem lt_computeNextInsertId (nr : Nat) (v : Variables) : nr < computeNextInsertId nr v := by
  rw [computeNextInsertId]
  split
  · exact lt_succ_self nr
  · have hDiv := div_add_mod (nr + v.increment - v.offset) v.increment
    have hMod := mod_lt (nr + v.increment - v.offset) v.positive
    rw [mul_comm] at hDiv
    omega

def server : Rounding := ⟨computeNextInsertId, lt_computeNextInsertId, fun _ _ hOne => if_pos hOne⟩

def everyTenth : Variables := ⟨5, 10, by decide⟩

def overlapping : List (Action Bool) :=
  [.getAutoIncrement true 3 everyTenth, .turn true false, .getAutoIncrement false 1 everyTenth, .turn false false]

theorem reservations_overlap : ∃ s, run step (start 0) overlapping = some s ∧ ¬s.history.Pairwise (Apart server) := by
  refine ⟨_, rfl, fun h => ?_⟩
  have hDisjoint : [5].Disjoint [5, 15, 25] := (pairwise_cons.mp h).1 _ mem_cons_self
  exact hDisjoint mem_cons_self mem_cons_self

def ones : Variables := ⟨1, 1, one_pos⟩

def racing : List (Action Bool) :=
  [.getAutoIncrement true 2 ones, .getAutoIncrement false 3 ones, .turn false false, .bump false 7 true,
    .turn true false, .turn false false, .turn true false, .turn true false]

def raced : Counter Bool := (run step (start 0) racing).getD (start 0)

theorem reservations_apart_racing : run step (start 0) racing = some raced ∧ raced.history.length = 3 ∧
    raced.history.Pairwise (Apart server) := by
  have hReach : Reach step ByOne (start 0) raced := reach_of_guardedRun racing .init rfl
  exact ⟨rfl, rfl, (reservations_apart server 0 raced).1 hReach⟩

end Runs

end TideSql.AutoIncrement
