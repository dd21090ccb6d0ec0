import Mathlib.Data.List.Basic

/-!
# Computations with a bound on their nesting

A computation has reached its bound, has failed, or has succeeded; in the last two cases with a state.
-/

namespace Lib.Bounded
open List

variable {ε σ α : Type}

abbrev Comp (ε σ : Type) := Option (Option ε × σ)

def andThen (r : Comp ε σ) (f : σ → Comp ε σ) : Comp ε σ :=
  match r with
  | none => none
  | some (some e, s) => some (some e, s)
  | some (none, s) => f s

def walk (f : α → σ → Comp ε σ) : List α → σ → Comp ε σ
  | [], s => some (none, s)
  | x :: xs, s => andThen (f x s) (walk f xs)

def lastly (r : Comp ε σ) (g : σ → σ) : Comp ε σ := r.map fun x => (x.1, g x.2)

structure Meets (total : Prop) (r : Comp ε σ) (Q : σ → Prop) : Prop where
  returns : total → r ≠ none
  ensures : ∀ s, r = some (none, s) → Q s

variable {total : Prop} {r : Comp ε σ} {P Q : σ → Prop}

theorem meets_some {s : σ} (h : Q s) : Meets total (some (none, s) : Comp ε σ) Q where
  returns _ := Option.some_ne_none _
  ensures s' hs := by
    cases hs
    exact h

theorem meets_error {e : ε} {s : σ} : Meets total (some (some e, s)) Q := ⟨fun _ => Option.some_ne_none _, nofun⟩

theorem meets_none (h : ¬total) : Meets total (none : Comp ε σ) Q := ⟨fun hTotal => absurd hTotal h, nofun⟩

section

variable (h : Meets total r P)
include h

theorem Meets.mono (hPQ : ∀ s, P s → Q s) : Meets total r Q :=
  ⟨h.returns, fun s hs => hPQ s (h.ensures s hs)⟩

theorem Meets.of_imp {total' : Prop} (hImp : total' → total) : Meets total' r P :=
  ⟨fun hTotal => h.returns (hImp hTotal), h.ensures⟩

theorem Meets.andThen {f : σ → Comp ε σ} (hf : ∀ s, P s → Meets total (f s) Q) : Meets total (andThen r f) Q := by
  match r with
  | none => exact ⟨h.returns, nofun⟩
  | some (some e, s) => exact meets_error
  | some (none, s) => exact hf s (h.ensures s rfl)

end

theorem Meets.lastly {g : σ → σ} (h : Meets total r fun s => Q (g s)) : Meets total (lastly r g) Q := by
  match r with
  | none => exact ⟨h.returns, nofun⟩
  | some (some e, s) => exact meets_error
  | some (none, s) => exact meets_some (h.ensures s rfl)

theorem meets_walk {f : α → σ → Comp ε σ} (P : List α → σ → Prop) (l : List α) (s : σ) (h : P [] s)
    (hf : ∀ done x rest s, l = done ++ x :: rest → P done s → Meets total (f x s) (P (done ++ [x]))) :
    Meets total (walk f l s) (P l) := by
  -- generalised to a walk that has some of the list behind it
  suffices hMain : ∀ rest done s, l = done ++ rest → P done s → Meets total (walk f rest s) (P l) from
    hMain l [] s rfl h
  intro rest
  induction rest with
  | nil =>
    intro done s hl hP
    rw [append_nil] at hl
    subst hl
    exact meets_some hP
  | cons x rest ih =>
    intro done s hl hP
    refine (hf done x rest s hl hP).andThen fun s' hP' => ih (done ++ [x]) s' ?_ hP'
    rw [hl, append_assoc]
    rfl

theorem meets_walk_of_mem {f : α → σ → Comp ε σ} (I : σ → Prop) {l : List α}
    (hf : ∀ x ∈ l, ∀ s, I s → Meets total (f x s) I) (s : σ) (h : I s) : Meets total (walk f l s) I := by
  refine meets_walk (fun _ => I) l s h fun done x rest s hl hs => hf x ?_ s hs
  rw [hl]
  exact mem_append_right done mem_cons_self

/-- What the first computation comes to, the second comes to as well, unless the first stops with `e`. -/
def UpTo (e : ε) (r r' : Comp ε σ) : Prop := ∀ x, r = some x → x.1 ≠ some e → r' = some x

variable {e : ε} {r' : Comp ε σ}

theorem upTo_refl (e : ε) (r : Comp ε σ) : UpTo e r r := fun _ hx _ => hx

theorem UpTo.andThen (h : UpTo e r r') {f f' : σ → Comp ε σ} (hf : ∀ s, UpTo e (f s) (f' s)) :
    UpTo e (andThen r f) (Bounded.andThen r' f') := by
  intro x hx hNe
  match r with
  | none => cases hx
  | some (some e', s) =>
    cases hx
    rw [h _ rfl hNe]
    rfl
  | some (none, s) =>
    rw [h _ rfl nofun]
    exact hf s x hx hNe

theorem UpTo.lastly (h : UpTo e r r') (g : σ → σ) : UpTo e (lastly r g) (Bounded.lastly r' g) := by
  intro x hx hNe
  match r with
  | none => cases hx
  | some y =>
    cases hx
    rw [h y rfl hNe]
    rfl

theorem upTo_walk {f f' : α → σ → Comp ε σ} (hf : ∀ x s, UpTo e (f x s) (f' x s)) (l : List α) (s : σ) :
    UpTo e (walk f l s) (walk f' l s) := by
  induction l generalizing s with
  | nil => exact upTo_refl e _
  | cons x l ih => exact (hf x s).andThen ih

end Lib.Bounded
