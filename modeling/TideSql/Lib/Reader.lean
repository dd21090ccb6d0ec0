import Mathlib.Data.List.Basic

/-!
# Readers of a list

A reader takes a value off the front of its input, or fails. What a writer
produced is read back by a reader that follows it part by part.
-/

namespace Lib
open List

abbrev Reader (α σ : Type) := StateT (List α) Option σ

namespace Reader

variable {α σ τ : Type}

def item : Reader α α := fun
  | [] => none
  | x :: rest => some (x, rest)

def take (n : Nat) : Reader α (List α) := fun input =>
  if input.length < n then none else some (input.take n, input.drop n)

def times (r : Reader α σ) : Nat → Reader α (List σ)
  | 0 => pure []
  | n + 1 => do
    let v ← r
    let vs ← times r n
    return v :: vs

/-- The reader takes exactly `l` off the front of any input that begins with it. -/
def Reads (r : Reader α σ) (l : List α) (v : σ) : Prop := ∀ rest, r (l ++ rest) = some (v, rest)

theorem Reads.pure (v : σ) : Reads (pure v : Reader α σ) [] v := fun _ => rfl

theorem Reads.bind {r : Reader α σ} {k : σ → Reader α τ} {l l' : List α} {v : σ} {w : τ} (h : Reads r l v)
    (h' : Reads (k v) l' w) : Reads (r >>= k) (l ++ l') w := by
  intro rest
  change (r (l ++ l' ++ rest)).bind (fun p => k p.1 p.2) = some (w, rest)
  rw [append_assoc, h, Option.bind_some, h']

theorem reads_item (x : α) : Reads item [x] x := fun _ => rfl

theorem reads_take {n : Nat} {l : List α} (h : l.length = n) : Reads (take n) l l := by
  intro rest
  have hLong : ¬(l ++ rest).length < n := by
    rw [length_append]
    omega
  rw [take, if_neg hLong, take_left' h, drop_left' h]

theorem reads_times {r : Reader α σ} {put : σ → List α} (vs : List σ) (h : ∀ v ∈ vs, Reads r (put v) v) :
    Reads (times r vs.length) (vs.flatMap put) vs := by
  induction vs with
  | nil => exact Reads.pure []
  | cons v vs ih =>
    have hTail := ih fun w hw => h w (mem_cons_of_mem v hw)
    have hAll := (h v mem_cons_self).bind (k := fun v => do let vs ← times r vs.length; return v :: vs)
      (hTail.bind (Reads.pure (v :: vs)))
    rwa [append_nil] at hAll

end Reader

end Lib
