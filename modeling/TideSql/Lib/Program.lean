import Mathlib.Data.List.Basic

/-!
# Programs that make calls

A program makes calls and goes on with their answers. It runs against an environment that replies to one call
after the other, and it is cut short where the replies end.
-/

namespace Lib.Program

inductive Prog (ε : Type) (ρ : ε → Type) (α : Type) where
  | ret (a : α)
  | call (e : ε) (next : ρ e → Prog ε ρ α)

variable {ε : Type} {ρ : ε → Type} {α β ι σ φ : Type}

def Prog.bind : Prog ε ρ α → (α → Prog ε ρ β) → Prog ε ρ β
  | .ret a, f => f a
  | .call e next, f => .call e fun r => (next r).bind f

instance instMonadProg : Monad (Prog ε ρ) where
  pure := .ret
  bind := .bind

def perform (e : ε) : Prog ε ρ (ρ e) := .call e .ret

def walk (f : ι → Prog ε ρ Bool) : List ι → Prog ε ρ Bool
  | [] => .ret true
  | x :: xs => (f x).bind fun ok => if ok then walk f xs else .ret false

/-- What is returned, if the replies last that long, and the state that is left. -/
def exec (handle : (e : ε) → φ → σ → ρ e × σ) : Prog ε ρ α → List φ → σ → Option α × σ
  | .ret a, _, s => (some a, s)
  | .call _ _, [], s => (none, s)
  | .call e next, reply :: replies, s => exec handle (next (handle e reply s).1) replies (handle e reply s).2

section Safe

variable (handle : (e : ε) → φ → σ → ρ e × σ) (I : σ → Prop)

def Safe (Q : α → σ → Prop) : Prog ε ρ α → σ → Prop
  | .ret a, s => Q a s
  | .call e next, s => ∀ reply, I (handle e reply s).2 ∧ Safe Q (next (handle e reply s).1) (handle e reply s).2

variable {handle I} {Q : α → σ → Prop} {p : Prog ε ρ α} {s : σ}

theorem Safe.exec (h : Safe handle I Q p s) (hStart : I s) (replies : List φ) :
    I (exec handle p replies s).2 ∧ ∀ a, (exec handle p replies s).1 = some a → Q a (exec handle p replies s).2 := by
  induction p generalizing s replies with
  | ret a => exact ⟨hStart, fun a' ha => Option.some.inj ha ▸ h⟩
  | call e next ih =>
    cases replies with
    | nil => exact ⟨hStart, nofun⟩
    | cons reply replies => exact ih _ (h reply).2 (h reply).1 replies

theorem Safe.mono {I' : σ → Prop} {Q' : α → σ → Prop} (h : Safe handle I Q p s) (hI : ∀ s, I s → I' s)
    (hQ : ∀ a s, Q a s → Q' a s) : Safe handle I' Q' p s := by
  induction p generalizing s with
  | ret a => exact hQ a s h
  | call e next ih => exact fun reply => ⟨hI _ (h reply).1, ih _ (h reply).2⟩

theorem Safe.imp {Q' : α → σ → Prop} (h : Safe handle I Q p s) (hQ : ∀ a s, Q a s → Q' a s) : Safe handle I Q' p s :=
  h.mono (fun _ hs => hs) hQ

theorem Safe.bind {R : β → σ → Prop} {f : α → Prog ε ρ β} (h : Safe handle I Q p s)
    (hf : ∀ a s, Q a s → Safe handle I R (f a) s) : Safe handle I R (p >>= f) s := by
  induction p generalizing s with
  | ret a => exact hf a s h
  | call e next ih => exact fun reply => ⟨(h reply).1, ih _ (h reply).2⟩

theorem safe_perform {e : ε} {Q : ρ e → σ → Prop}
    (h : ∀ reply, I (handle e reply s).2 ∧ Q (handle e reply s).1 (handle e reply s).2) :
    Safe handle I Q (perform e) s := h

theorem safe_walk {f : ι → Prog ε ρ Bool} {J : σ → Prop} {l : List ι}
    (hf : ∀ x ∈ l, ∀ s, J s → Safe handle I (fun _ => J) (f x) s) (hStart : J s) :
    Safe handle I (fun _ => J) (walk f l) s := by
  induction l generalizing s with
  | nil => exact hStart
  | cons x xs ih =>
    refine Safe.bind (hf x List.mem_cons_self s hStart) fun ok s' hs' => ?_
    cases ok with
    | false => exact hs'
    | true => exact ih (fun y hy => hf y (List.mem_cons_of_mem x hy)) hs'

end Safe

section Can

variable (handle : (e : ε) → φ → σ → ρ e × σ)

def Can (Q : α → σ → Prop) : Prog ε ρ α → σ → Prop
  | .ret a, s => Q a s
  | .call e next, s => ∃ reply, Can Q (next (handle e reply s).1) (handle e reply s).2

def Visits (P : σ → Prop) (p : Prog ε ρ α) (s : σ) : Prop := ∃ replies, P (exec handle p replies s).2

variable {handle} {Q : α → σ → Prop} {P : σ → Prop} {p : Prog ε ρ α} {s : σ}

theorem Can.imp {Q' : α → σ → Prop} (h : Can handle Q p s) (hQ : ∀ a s, Q a s → Q' a s) : Can handle Q' p s := by
  induction p generalizing s with
  | ret a => exact hQ a s h
  | call e next ih =>
    obtain ⟨reply, h⟩ := h
    exact ⟨reply, ih _ h⟩

theorem Can.bind {R : β → σ → Prop} {f : α → Prog ε ρ β} (h : Can handle Q p s)
    (hf : ∀ a s, Q a s → Can handle R (f a) s) : Can handle R (p >>= f) s := by
  induction p generalizing s with
  | ret a => exact hf a s h
  | call e next ih =>
    obtain ⟨reply, h⟩ := h
    exact ⟨reply, ih _ h⟩

theorem Can.exec (h : Can handle Q p s) :
    ∃ replies a, (exec handle p replies s).1 = some a ∧ Q a (exec handle p replies s).2 := by
  induction p generalizing s with
  | ret a => exact ⟨[], a, rfl, h⟩
  | call e next ih =>
    obtain ⟨reply, h⟩ := h
    obtain ⟨replies, hReplies⟩ := ih _ h
    exact ⟨reply :: replies, hReplies⟩

theorem can_walk_skip {f : ι → Prog ε ρ Bool} (hSkip : ∀ x s, Can handle (fun ok s' => ok = true ∧ s' = s) (f x) s)
    (l : List ι) (s : σ) : Can handle (fun ok s' => ok = true ∧ s' = s) (walk f l) s := by
  induction l with
  | nil => exact ⟨rfl, rfl⟩
  | cons x xs ih =>
    refine Can.bind (hSkip x s) ?_
    rintro ok s' ⟨rfl, rfl⟩
    exact ih

theorem can_walk_one {f : ι → Prog ε ρ Bool} (hSkip : ∀ x s, Can handle (fun ok s' => ok = true ∧ s' = s) (f x) s)
    {l : List ι} {x : ι} (hMem : x ∈ l) (hx : Can handle (fun ok s' => ok = true ∧ P s') (f x) s) :
    Can handle (fun ok s' => ok = true ∧ P s') (walk f l) s := by
  induction l with
  | nil => cases hMem
  | cons y ys ih =>
    obtain rfl | hMem := List.mem_cons.mp hMem
    · refine Can.bind hx ?_
      rintro ok s' ⟨rfl, hP⟩
      refine (can_walk_skip hSkip ys s').imp ?_
      rintro ok s'' ⟨rfl, rfl⟩
      exact ⟨rfl, hP⟩
    · refine Can.bind (hSkip y s) ?_
      rintro ok s' ⟨rfl, rfl⟩
      exact ih hMem

theorem visits_here (h : P s) : Visits handle P p s := by
  cases p with
  | ret a | call e next => exact ⟨[], h⟩

theorem Can.visits (h : Can handle (fun _ => P) p s) : Visits handle P p s := by
  induction p generalizing s with
  | ret a => exact ⟨[], h⟩
  | call e next ih =>
    obtain ⟨reply, h⟩ := h
    obtain ⟨replies, hReplies⟩ := ih _ h
    exact ⟨reply :: replies, hReplies⟩

theorem Can.visits_bind {f : α → Prog ε ρ β} (h : Can handle Q p s) (hf : ∀ a s, Q a s → Visits handle P (f a) s) :
    Visits handle P (p >>= f) s := by
  induction p generalizing s with
  | ret a => exact hf a s h
  | call e next ih =>
    obtain ⟨reply, h⟩ := h
    obtain ⟨replies, hReplies⟩ := ih _ h
    exact ⟨reply :: replies, hReplies⟩

theorem Visits.bind {f : α → Prog ε ρ β} (h : Visits handle P p s) : Visits handle P (p >>= f) s := by
  obtain ⟨replies, h⟩ := h
  induction p generalizing s replies with
  | ret a => exact visits_here h
  | call e next ih =>
    cases replies with
    | nil => exact visits_here h
    | cons reply replies =>
      obtain ⟨replies', hReplies⟩ := ih _ replies h
      exact ⟨reply :: replies', hReplies⟩

end Can

end Lib.Program
