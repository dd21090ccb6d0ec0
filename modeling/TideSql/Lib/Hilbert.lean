import Mathlib

/-!
# Distances along a Hilbert curve

`index j x y` is the distance of a point on the curve of order `j`; of the two coordinates only the lowest `j`
bits matter.
-/

namespace Lib.Hilbert
open Nat

/-- Reflection of the lowest `j` bits. -/
def flip (j x : Nat) : Nat := 2 ^ j - (x % 2 ^ j + 1)

def digit (rx ry : Nat) : Nat := (3 * rx) ^^^ ry

/-- The coordinates in the square below level `j`. -/
def turn (j x y : Nat) : Nat × Nat :=
  if y / 2 ^ j % 2 = 0 then if x / 2 ^ j % 2 = 1 then (flip j y, flip j x) else (y, x) else (x, y)

def index : Nat → Nat → Nat → Nat
  | 0, _, _ => 0
  | j + 1, x, y => digit (x / 2 ^ j % 2) (y / 2 ^ j % 2) * 4 ^ j + index j (turn j x y).1 (turn j x y).2

theorem bit_cases (x j : Nat) : x / 2 ^ j % 2 = 0 ∨ x / 2 ^ j % 2 = 1 := mod_two_eq_zero_or_one _

theorem digit_lt {rx ry : Nat} (hx : rx = 0 ∨ rx = 1) (hy : ry = 0 ∨ ry = 1) : digit rx ry < 4 := by
  obtain rfl | rfl := hx <;> obtain rfl | rfl := hy <;> decide

theorem digit_inj {rx ry rx' ry' : Nat} (hx : rx = 0 ∨ rx = 1) (hy : ry = 0 ∨ ry = 1) (hx' : rx' = 0 ∨ rx' = 1)
    (hy' : ry' = 0 ∨ ry' = 1) (h : digit rx ry = digit rx' ry') : rx = rx' ∧ ry = ry' := by
  obtain rfl | rfl := hx <;> obtain rfl | rfl := hy <;> obtain rfl | rfl := hx' <;> obtain rfl | rfl := hy' <;>
    first | exact ⟨rfl, rfl⟩ | exact absurd h (by decide)

theorem bit_eq (x j : Nat) : x / 2 ^ j % 2 = x % 2 ^ (j + 1) / 2 ^ j := by
  rw [pow_succ, mod_mul_right_div_self]

theorem mod_of_mod_succ {x x' j : Nat} (h : x % 2 ^ (j + 1) = x' % 2 ^ (j + 1)) : x % 2 ^ j = x' % 2 ^ j := by
  have hDvd : 2 ^ j ∣ 2 ^ (j + 1) := pow_dvd_pow 2 (le_succ j)
  rw [← mod_mod_of_dvd x hDvd, h, mod_mod_of_dvd x' hDvd]

theorem mod_succ_of_mod {x x' j : Nat} (hMod : x % 2 ^ j = x' % 2 ^ j) (hBit : x / 2 ^ j % 2 = x' / 2 ^ j % 2) :
    x % 2 ^ (j + 1) = x' % 2 ^ (j + 1) := by
  rw [mod_pow_succ, mod_pow_succ, hMod, hBit]

theorem flip_lt (j x : Nat) : flip j x < 2 ^ j := by
  have hPos : 0 < 2 ^ j := Nat.two_pow_pos j
  rw [flip]
  omega

theorem flip_congr {j x x' : Nat} (h : x % 2 ^ j = x' % 2 ^ j) : flip j x = flip j x' := by rw [flip, flip, h]

theorem flip_inj {j x x' : Nat} (h : flip j x = flip j x') : x % 2 ^ j = x' % 2 ^ j := by
  have hx : x % 2 ^ j < 2 ^ j := Nat.mod_lt x (Nat.two_pow_pos j)
  have hx' : x' % 2 ^ j < 2 ^ j := Nat.mod_lt x' (Nat.two_pow_pos j)
  rw [flip, flip] at h
  omega

theorem mod_eq_flip {j a x : Nat} (h : 2 ^ j ∣ a + x + 1) : a % 2 ^ j = flip j x := by
  have ha : a % 2 ^ j < 2 ^ j := Nat.mod_lt a (Nat.two_pow_pos j)
  have hx : x % 2 ^ j < 2 ^ j := Nat.mod_lt x (Nat.two_pow_pos j)
  have hSplit : a + x + 1 = 2 ^ j * (a / 2 ^ j + x / 2 ^ j) + (a % 2 ^ j + x % 2 ^ j + 1) := by
    have hA := div_add_mod a (2 ^ j)
    have hX := div_add_mod x (2 ^ j)
    rw [mul_add]
    omega
  rw [hSplit, Nat.dvd_add_right (Nat.dvd_mul_right ..)] at h
  obtain ⟨k, hk⟩ := h
  have hOne : k = 1 := by
    match k with
    | 0 => omega
    | 1 => rfl
    | k + 2 =>
      rw [show 2 ^ j * (k + 2) = 2 ^ j * k + 2 ^ j + 2 ^ j by ring] at hk
      omega
  rw [hOne, mul_one] at hk
  rw [flip]
  omega

theorem flip_div (j k x : Nat) : flip (j + k) x / 2 ^ k = flip j (x / 2 ^ k) := by
  have hPow : 2 ^ (j + k) = 2 ^ k * 2 ^ j := by rw [pow_add, mul_comm]
  have hLt : x % 2 ^ (j + k) < 2 ^ k * 2 ^ j := hPow ▸ Nat.mod_lt x (Nat.two_pow_pos _)
  rw [flip, flip, hPow, mul_sub_div _ _ _ (hPow ▸ hLt), mod_mul_right_div_self]

theorem turn_congr {j x y x' y' : Nat} (hx : x % 2 ^ (j + 1) = x' % 2 ^ (j + 1))
    (hy : y % 2 ^ (j + 1) = y' % 2 ^ (j + 1)) :
    (turn j x y).1 % 2 ^ j = (turn j x' y').1 % 2 ^ j ∧ (turn j x y).2 % 2 ^ j = (turn j x' y').2 % 2 ^ j := by
  have hx' := mod_of_mod_succ hx
  have hy' := mod_of_mod_succ hy
  rw [turn, turn, bit_eq x, bit_eq y, hx, hy, ← bit_eq x', ← bit_eq y']
  split
  · split
    · exact ⟨congrArg (· % 2 ^ j) (flip_congr hy'), congrArg (· % 2 ^ j) (flip_congr hx')⟩
    · exact ⟨hy', hx'⟩
  · exact ⟨hx', hy'⟩

theorem index_congr {j x y x' y' : Nat} (hx : x % 2 ^ j = x' % 2 ^ j) (hy : y % 2 ^ j = y' % 2 ^ j) :
    index j x y = index j x' y' := by
  induction j generalizing x y x' y' with
  | zero => rfl
  | succ j ih =>
    obtain ⟨hTurnX, hTurnY⟩ := turn_congr hx hy
    rw [index, index, bit_eq x, bit_eq y, hx, hy, ← bit_eq x', ← bit_eq y', ih hTurnX hTurnY]

theorem index_lt (j x y : Nat) : index j x y < 4 ^ j := by
  induction j generalizing x y with
  | zero => exact one_pos
  | succ j ih =>
    have hDigit := digit_lt (bit_cases x j) (bit_cases y j)
    calc index (j + 1) x y < digit (x / 2 ^ j % 2) (y / 2 ^ j % 2) * 4 ^ j + 4 ^ j := Nat.add_lt_add_left (ih ..) _
      _ = (digit (x / 2 ^ j % 2) (y / 2 ^ j % 2) + 1) * 4 ^ j := by ring
      _ ≤ 4 * 4 ^ j := mul_le_mul_right _ hDigit
      _ = 4 ^ (j + 1) := by ring

theorem bit_div (j k x : Nat) : x / 2 ^ (j + k) % 2 = x / 2 ^ k / 2 ^ j % 2 := by
  rw [Nat.div_div_eq_div_mul, ← pow_add, Nat.add_comm k j]

theorem turn_div (j k x y : Nat) : (turn (j + k) x y).1 / 2 ^ k = (turn j (x / 2 ^ k) (y / 2 ^ k)).1 ∧
      (turn (j + k) x y).2 / 2 ^ k = (turn j (x / 2 ^ k) (y / 2 ^ k)).2 := by
  rw [turn, turn, bit_div, bit_div]
  split
  · split
    · exact ⟨flip_div .., flip_div ..⟩
    · exact ⟨rfl, rfl⟩
  · exact ⟨rfl, rfl⟩

theorem index_div (j k x y : Nat) : index (j + k) x y / 4 ^ k = index j (x / 2 ^ k) (y / 2 ^ k) := by
  induction j generalizing x y with
  | zero =>
    rw [zero_add]
    exact div_eq_of_lt (index_lt k x y)
  | succ j ih =>
    have hPow : 4 ^ (j + k) = 4 ^ k * 4 ^ j := by rw [pow_add, mul_comm]
    rw [show j + 1 + k = j + k + 1 by omega, index, index, bit_div, bit_div, hPow, ← mul_assoc, mul_comm _ (4 ^ k),
      mul_assoc, mul_add_div (by positivity), ih, (turn_div j k x y).1, (turn_div j k x y).2]

theorem turn_inj {j x y x' y' : Nat} (hx : x / 2 ^ j % 2 = x' / 2 ^ j % 2) (hy : y / 2 ^ j % 2 = y' / 2 ^ j % 2)
    (hFst : (turn j x y).1 % 2 ^ j = (turn j x' y').1 % 2 ^ j)
    (hSnd : (turn j x y).2 % 2 ^ j = (turn j x' y').2 % 2 ^ j) :
    x % 2 ^ j = x' % 2 ^ j ∧ y % 2 ^ j = y' % 2 ^ j := by
  rw [turn, turn, hx, hy] at hFst hSnd
  split at hFst
  · split at hFst
    · rename_i h0 h1
      rw [if_pos h0, if_pos h0, if_pos h1, if_pos h1] at hSnd
      rw [mod_eq_of_lt (flip_lt ..), mod_eq_of_lt (flip_lt ..)] at hFst hSnd
      exact ⟨flip_inj hSnd, flip_inj hFst⟩
    · rename_i h0 h1
      rw [if_pos h0, if_pos h0, if_neg h1, if_neg h1] at hSnd
      exact ⟨hSnd, hFst⟩
  · rename_i h0
    rw [if_neg h0, if_neg h0] at hSnd
    exact ⟨hFst, hSnd⟩

theorem index_inj {j x y x' y' : Nat} (h : index j x y = index j x' y') :
    x % 2 ^ j = x' % 2 ^ j ∧ y % 2 ^ j = y' % 2 ^ j := by
  induction j generalizing x y x' y' with
  | zero => simp [mod_one]
  | succ j ih =>
    have hPos : 0 < 4 ^ j := by positivity
    have hTop := congrArg (· / 4 ^ j) h
    have hLow := congrArg (· % 4 ^ j) h
    simp only [index, mul_comm _ (4 ^ j), mul_add_div hPos,
      div_eq_of_lt (index_lt ..), add_zero, mul_add_mod, mod_eq_of_lt (index_lt ..)] at hTop hLow
    obtain ⟨hx, hy⟩ := digit_inj (bit_cases x j) (bit_cases y j) (bit_cases x' j) (bit_cases y' j) hTop
    obtain ⟨hFst, hSnd⟩ := ih hLow
    obtain ⟨hLowX, hLowY⟩ := turn_inj hx hy hFst hSnd
    exact ⟨mod_succ_of_mod hLowX hx, mod_succ_of_mod hLowY hy⟩

def place (j q : Nat) (p : Nat × Nat) : Nat × Nat :=
  match q with
  | 0 => (p.2, p.1)
  | 1 => (p.1, p.2 + 2 ^ j)
  | 2 => (p.1 + 2 ^ j, p.2 + 2 ^ j)
  | _ => (2 ^ j + (2 ^ j - 1 - p.2), 2 ^ j - 1 - p.1)

def point : Nat → Nat → Nat × Nat
  | 0, _ => (0, 0)
  | j + 1, d => place j (d / 4 ^ j) (point j (d % 4 ^ j))

def Inside (j : Nat) (p : Nat × Nat) : Prop := p.1 < 2 ^ j ∧ p.2 < 2 ^ j

def Adjacent (p p' : Nat × Nat) : Prop :=
  (p.1 = p'.1 ∧ (p.2 + 1 = p'.2 ∨ p'.2 + 1 = p.2)) ∨ (p.2 = p'.2 ∧ (p.1 + 1 = p'.1 ∨ p'.1 + 1 = p.1))

section Place

variable {j q : Nat} {p p' : Nat × Nat} (h : Inside j p)
include h

theorem inside_place : Inside (j + 1) (place j q p) := by
  obtain ⟨hx, hy⟩ := h
  rw [Inside, pow_succ]
  unfold place
  split <;> constructor <;> dsimp only <;> omega

theorem index_place (hq : q < 4) :
    index (j + 1) (place j q p).1 (place j q p).2 = q * 4 ^ j + index j p.1 p.2 := by
  obtain ⟨hx, hy⟩ := h
  have hLow {u : Nat} (hu : u < 2 ^ j) : u / 2 ^ j % 2 = 0 := by rw [Nat.div_eq_of_lt hu]
  have hHigh {u : Nat} (hu : u < 2 ^ j) : (u + 2 ^ j) / 2 ^ j % 2 = 1 := by
    rw [Nat.add_div_right u (Nat.two_pow_pos j), Nat.div_eq_of_lt hu]
  rw [index, turn]
  interval_cases q
  · simp [place, hLow hx, hLow hy, digit]
  · simp only [place, hLow hx, hHigh hy, one_ne_zero, if_false]
    rw [index_congr rfl (add_mod_right p.2 (2 ^ j))]
    rfl
  · simp only [place, hHigh hx, hHigh hy, one_ne_zero, if_false]
    rw [index_congr (add_mod_right p.1 (2 ^ j)) (add_mod_right p.2 (2 ^ j))]
    rfl
  · have hRow : 2 ^ j - 1 - p.1 < 2 ^ j := by omega
    have hCol : 2 ^ j - 1 - p.2 < 2 ^ j := by omega
    have hFst : flip j (2 ^ j - 1 - p.1) = p.1 := by
      rw [flip, Nat.mod_eq_of_lt hRow]
      omega
    have hSnd : flip j (2 ^ j - 1 - p.2 + 2 ^ j) = p.2 := by
      rw [flip, add_mod_right, Nat.mod_eq_of_lt hCol]
      omega
    simp only [place, Nat.add_comm (2 ^ j), hLow hRow, hHigh hCol, if_true, hFst, hSnd]
    rfl

theorem adjacent_place (h' : Inside j p') (hNext : Adjacent p p') : Adjacent (place j q p) (place j q p') := by
  obtain ⟨hx, hy⟩ := h
  obtain ⟨hx', hy'⟩ := h'
  rw [Adjacent] at hNext ⊢
  unfold place
  split <;> dsimp only <;> omega

end Place

theorem inside_point (j d : Nat) : Inside j (point j d) := by
  induction j generalizing d with
  | zero => exact ⟨one_pos, one_pos⟩
  | succ j ih => exact inside_place (ih _)

theorem index_point {j d : Nat} (hd : d < 4 ^ j) : index j (point j d).1 (point j d).2 = d := by
  induction j generalizing d with
  | zero => exact (Nat.lt_one_iff.mp hd).symm
  | succ j ih =>
    have hq : d / 4 ^ j < 4 := Nat.div_lt_of_lt_mul hd
    rw [point, index_place (inside_point j _) hq, ih (Nat.mod_lt d (by positivity)), div_add_mod' d (4 ^ j)]

theorem point_index (j x y : Nat) : point j (index j x y) = (x % 2 ^ j, y % 2 ^ j) := by
  obtain ⟨hx, hy⟩ := index_inj (index_point (index_lt j x y))
  obtain ⟨hFst, hSnd⟩ := inside_point j (index j x y)
  rw [Nat.mod_eq_of_lt hFst] at hx
  rw [Nat.mod_eq_of_lt hSnd] at hy
  exact Prod.ext hx hy

theorem point_first (j : Nat) : point j 0 = (0, 0) := by
  induction j with
  | zero => rfl
  | succ j ih => rw [point, Nat.zero_div, zero_mod, ih, place]

theorem point_add {j r : Nat} (q : Nat) (hr : r < 4 ^ j) : point (j + 1) (4 ^ j * q + r) = place j q (point j r) := by
  rw [point, mul_add_div (by positivity), Nat.div_eq_of_lt hr, mul_add_mod, Nat.mod_eq_of_lt hr, Nat.add_zero]

theorem point_last (j : Nat) : point j (4 ^ j - 1) = (2 ^ j - 1, 0) := by
  induction j with
  | zero => rfl
  | succ j ih =>
    have hPos : 0 < 4 ^ j := by positivity
    have hTwo : 0 < 2 ^ j := Nat.two_pow_pos j
    have hSplit : 4 ^ (j + 1) - 1 = 4 ^ j * 3 + (4 ^ j - 1) := by
      rw [pow_succ]
      omega
    rw [hSplit, point_add 3 (by omega), ih]
    refine Prod.ext ?_ (Nat.sub_self _)
    simp only [place, pow_succ]
    omega

/-- The curve goes on from one square to the next without a jump. -/
theorem adjacent_point {j d : Nat} (hd : d + 1 < 4 ^ j) : Adjacent (point j d) (point j (d + 1)) := by
  induction j generalizing d with
  | zero => exact absurd hd (by simp)
  | succ j ih =>
    have hPos : 0 < 4 ^ j := by positivity
    have hLow : d % 4 ^ j < 4 ^ j := Nat.mod_lt d hPos
    rw [← div_add_mod d (4 ^ j)] at hd ⊢
    generalize d / 4 ^ j = q at hd ⊢
    generalize d % 4 ^ j = r at hd hLow ⊢
    obtain hSame | hLast := Nat.lt_or_eq_of_le (succ_le_of_lt hLow)
    · rw [Nat.add_assoc, point_add q hLow, point_add q hSame]
      exact adjacent_place (inside_point ..) (inside_point ..) (ih hSame)
    · have hTwo : 0 < 2 ^ j := Nat.two_pow_pos j
      have hNext : 4 ^ j * q + r + 1 = 4 ^ j * (q + 1) + 0 := by
        rw [Nat.mul_succ]
        omega
      have hq : q < 3 := by
        rw [hNext, Nat.add_zero, pow_succ] at hd
        exact Nat.succ_lt_succ_iff.mp (Nat.lt_of_mul_lt_mul_left hd)
      rw [hNext, point_add q hLow, point_add (q + 1) hPos, point_first, show r = 4 ^ j - 1 by omega, point_last]
      interval_cases q <;> simp only [place, Adjacent, reduceAdd, true_and] <;> omega

end Lib.Hilbert
