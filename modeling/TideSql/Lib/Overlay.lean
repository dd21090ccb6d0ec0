import Mathlib.Logic.Function.Basic

/-!
# Writes over a view

A view gives each key of each family its value, and a list of writes lies over it, the later over the earlier.
Writes to other families do not show.
-/

namespace Lib.Overlay
open Function List

abbrev View (ι κ ν : Type*) := ι → κ → Option ν

structure Put (ι κ ν : Type*) where
  family : ι
  key : κ
  value : Option ν

variable {ι κ ν : Type*} [DecidableEq ι] [DecidableEq κ]

def apply (v : View ι κ ν) (p : Put ι κ ν) : View ι κ ν :=
  update v p.family (update (v p.family) p.key p.value)

def overlay (v : View ι κ ν) (ps : List (Put ι κ ν)) : View ι κ ν := ps.foldl apply v

theorem overlay_append (v : View ι κ ν) (ps qs : List (Put ι κ ν)) :
    overlay v (ps ++ qs) = overlay (overlay v ps) qs := foldl_append

theorem overlay_of_notMem (v : View ι κ ν) (ps : List (Put ι κ ν)) (f : ι) (h : ∀ p ∈ ps, p.family ≠ f) :
    overlay v ps f = v f := by
  induction ps generalizing v with
  | nil => rfl
  | cons p ps ih =>
    obtain ⟨hp, hps⟩ := forall_mem_cons.mp h
    calc overlay v (p :: ps) f = overlay (apply v p) ps f := rfl
      _ = apply v p f := ih (apply v p) hps
      _ = v f := update_of_ne hp.symm _ _

end Lib.Overlay
