import TideSql.Lib.Bytes
import TideSql.Lib.Hilbert

/-!
# Bounding boxes on a Hilbert curve

The index key of a shape is the distance, along the curve of order 32, of the centre of its bounding box.
-/

namespace TideSql.Spatial
open Lib List Nat

abbrev Bytes := List UInt8

structure Mbr where
  xmin : Float
  ymin : Float
  xmax : Float
  ymax : Float

inductive Predicate where
  | intersect | contain | within | equal | disjoint | unsupported
  deriving DecidableEq

def ieee754DoubleSignMask : UInt64 := 0x8000000000000000

def doubleToLexUint32 (val : Float) : UInt32 :=
  let bits := val.toBits
  ((if bits &&& ieee754DoubleSignMask ≠ 0 then ~~~bits else bits ^^^ ieee754DoubleSignMask) >>> 32).toUInt32

def sub32 (a b : Nat) : Nat := (a + 2 ^ 32 - b) % 2 ^ 32

def hilbertRot (n x y rx ry : Nat) : Nat × Nat :=
  if ry = 0 then if rx = 1 then (sub32 (sub32 n 1) y, sub32 (sub32 n 1) x) else (y, x) else (x, y)

/-- The loop of `hilbert_xy2d_64`, with the number of levels below `2 * s`. -/
def hilbertLoop : Nat → Nat → Nat → Nat → Nat
  | 0, _, _, d => d
  | i + 1, x, y, d =>
    let s := 2 ^ i
    let rx := if x &&& s > 0 then 1 else 0
    let ry := if y &&& s > 0 then 1 else 0
    let p := hilbertRot ((s <<< 1) % 2 ^ 32) x y rx ry
    hilbertLoop i p.1 p.2 (d + s * s * ((3 * rx) ^^^ ry))

def hilbertOrder : Nat := 32

def hilbertXy2d64 (x y : UInt32) : Nat := hilbertLoop hilbertOrder x.toNat y.toNat 0

def hilbertKeyLen : Nat := 8

def encodeHilbertBe (h : Nat) : Bytes := Bytes.toBE hilbertKeyLen h

def decodeHilbertBe (key : Bytes) : Nat := Bytes.ofBE (key.take hilbertKeyLen)

def buildKey (cx cy : Float) (pk : Bytes) : Bytes :=
  encodeHilbertBe (hilbertXy2d64 (doubleToLexUint32 cx) (doubleToLexUint32 cy)) ++ pk

/-- The corners arrive in the order `xmin`, `xmax`, `ymin`, `ymax`. -/
def parseQueryMbr (x₀ x₁ y₀ y₁ : Float) : Mbr where
  xmin := if x₀ > x₁ then x₁ else x₀
  xmax := if x₀ > x₁ then x₀ else x₁
  ymin := if y₀ > y₁ then y₁ else y₀
  ymax := if y₀ > y₁ then y₀ else y₁

def mbrIntersects (a b : Mbr) : Bool :=
  !(decide (a.xmax < b.xmin) || decide (a.xmin > b.xmax) || decide (a.ymax < b.ymin) || decide (a.ymin > b.ymax))

def mbrWithin (a b : Mbr) : Bool :=
  decide (a.xmin ≥ b.xmin) && decide (a.xmax ≤ b.xmax) && decide (a.ymin ≥ b.ymin) && decide (a.ymax ≤ b.ymax)

def mbrEquals (a b : Mbr) : Bool := a.xmin == b.xmin && a.xmax == b.xmax && a.ymin == b.ymin && a.ymax == b.ymax

def mbrPredicate (mode : Predicate) (query entry : Mbr) : Bool :=
  match mode with
  | .intersect => mbrIntersects entry query
  | .contain => mbrWithin entry query
  | .within => mbrWithin entry query
  | .equal => mbrEquals entry query
  | .disjoint => !mbrIntersects entry query
  | .unsupported => false

def rangeFullLo : Nat := 0
def rangeFullHi : Nat := 2 ^ 64 - 1
def decompBits : Nat := 8
def decompN : Nat := 2 ^ decompBits
def decompFullScanThreshold : Nat := decompN * 16
def shift : Nat := hilbertOrder - decompBits

def cellSpan : Nat := 1 <<< (2 * shift)

def cellCount (gx₀ gy₀ gx₁ gy₁ : Nat) : Nat := (sub32 gx₁ gx₀ + 1) % 2 ^ 32 * ((sub32 gy₁ gy₀ + 1) % 2 ^ 32)

def corner (g : Nat) : UInt32 := UInt32.ofNat (g <<< shift)

def cellBase (gx gy : Nat) : Nat := hilbertXy2d64 (corner gx) (corner gy) / cellSpan * cellSpan

def cells (gx₀ gy₀ gx₁ gy₁ : Nat) : List Nat :=
  (range' gx₀ (gx₁ + 1 - gx₀)).flatMap fun gx => (range' gy₀ (gy₁ + 1 - gy₀)).map fun gy => cellBase gx gy

def mergeCells : Nat → Nat → List Nat → List (Nat × Nat)
  | lo, hi, [] => [(lo, hi)]
  | lo, hi, c :: cs =>
    if c ≤ (hi + 1) % 2 ^ 64 then mergeCells lo (if c + cellSpan - 1 > hi then c + cellSpan - 1 else hi) cs
    else (lo, hi) :: mergeCells c (c + cellSpan - 1) cs

/-- `decompose_ranges`; without a cell the source reads beyond the end of its vector. -/
def decomposeRanges (qx₀ qy₀ qx₁ qy₁ : UInt32) : Option (List (Nat × Nat)) :=
  let gx₀ := qx₀.toNat >>> shift
  let gy₀ := qy₀.toNat >>> shift
  let gx₁ := qx₁.toNat >>> shift
  let gy₁ := qy₁.toNat >>> shift
  if cellCount gx₀ gy₀ gx₁ gy₁ > decompFullScanThreshold then some [(rangeFullLo, rangeFullHi)]
  else
    match (cells gx₀ gy₀ gx₁ gy₁).insertionSort (· ≤ ·) with
    | [] => none
    | c :: cs => some (mergeCells c (c + cellSpan - 1) cs)

section Curve

theorem bit_of_and (x i : Nat) : (if x &&& 2 ^ i > 0 then 1 else 0) = x / 2 ^ i % 2 := by
  rw [and_two_pow, ← toNat_testBit]
  cases x.testBit i with
  | false | true => simp

theorem sub32_size {i : Nat} (hi : i < 32) : sub32 ((2 ^ i <<< 1) % 2 ^ 32) 1 = 2 ^ (i + 1) - 1 := by
  have hLt : 2 ^ (i + 1) ≤ 2 ^ 32 := Nat.pow_le_pow_right (by decide) hi
  have hPos : 0 < 2 ^ (i + 1) := Nat.two_pow_pos _
  rw [shiftLeft_eq, ← pow_succ, sub32]
  obtain hSmall | hTop := lt_or_eq_of_le hLt
  · rw [mod_eq_of_lt hSmall]
    omega
  · rw [hTop]
    decide

theorem sub32_lt (a b : Nat) : sub32 a b < 2 ^ 32 := Nat.mod_lt _ (Nat.two_pow_pos 32)

theorem sub32_mod {i x : Nat} (hi : i < 32) (hx : x < 2 ^ 32) :
    sub32 (sub32 ((2 ^ i <<< 1) % 2 ^ 32) 1) x % 2 ^ i = Hilbert.flip i x := by
  have hDvd : 2 ^ i ∣ 2 ^ 32 := pow_dvd_pow 2 hi.le
  have hPos : 0 < 2 ^ (i + 1) := Nat.two_pow_pos _
  rw [sub32_size hi, sub32, mod_mod_of_dvd _ hDvd]
  refine Hilbert.mod_eq_flip ?_
  rw [show 2 ^ (i + 1) - 1 + 2 ^ 32 - x + x + 1 = 2 ^ (i + 1) + 2 ^ 32 by omega]
  exact dvd_add (pow_dvd_pow 2 (le_succ i)) hDvd

theorem hilbertRot_lt {n x y : Nat} (rx ry : Nat) (hx : x < 2 ^ 32) (hy : y < 2 ^ 32) :
    (hilbertRot n x y rx ry).1 < 2 ^ 32 ∧ (hilbertRot n x y rx ry).2 < 2 ^ 32 := by
  rw [hilbertRot]
  split
  · split
    · exact ⟨sub32_lt .., sub32_lt ..⟩
    · exact ⟨hy, hx⟩
  · exact ⟨hx, hy⟩

theorem hilbertRot_mod {i x y : Nat} (hi : i < 32) (hx : x < 2 ^ 32) (hy : y < 2 ^ 32) :
    (hilbertRot ((2 ^ i <<< 1) % 2 ^ 32) x y (x / 2 ^ i % 2) (y / 2 ^ i % 2)).1 % 2 ^ i =
        (Hilbert.turn i x y).1 % 2 ^ i ∧
      (hilbertRot ((2 ^ i <<< 1) % 2 ^ 32) x y (x / 2 ^ i % 2) (y / 2 ^ i % 2)).2 % 2 ^ i =
        (Hilbert.turn i x y).2 % 2 ^ i := by
  rw [hilbertRot, Hilbert.turn]
  split
  · split
    · rw [sub32_mod hi hx, sub32_mod hi hy, mod_eq_of_lt (Hilbert.flip_lt ..),
        mod_eq_of_lt (Hilbert.flip_lt ..)]
      exact ⟨rfl, rfl⟩
    · exact ⟨rfl, rfl⟩
  · exact ⟨rfl, rfl⟩

theorem hilbertLoop_eq {i x y : Nat} (hi : i ≤ 32) (hx : x < 2 ^ 32) (hy : y < 2 ^ 32) (d : Nat) :
    hilbertLoop i x y d = d + Hilbert.index i x y := by
  induction i generalizing x y d with
  | zero => rfl
  | succ i ih =>
    obtain ⟨hFst, hSnd⟩ := hilbertRot_mod (i := i) hi hx hy
    obtain ⟨hFstLt, hSndLt⟩ :=
      hilbertRot_lt (n := (2 ^ i <<< 1) % 2 ^ 32) (x / 2 ^ i % 2) (y / 2 ^ i % 2) hx hy
    have hPow : 2 ^ i * 2 ^ i = 4 ^ i := by rw [← mul_pow, show 2 * 2 = 4 from rfl]
    rw [hilbertLoop]
    simp only [bit_of_and]
    rw [ih (le_of_succ_le hi) hFstLt hSndLt, Hilbert.index, Hilbert.index_congr hFst hSnd, hPow, Hilbert.digit,
      mul_comm (4 ^ i), add_assoc]

theorem hilbertXy2d64_eq (x y : UInt32) : hilbertXy2d64 x y = Hilbert.index 32 x.toNat y.toNat := by
  rw [hilbertXy2d64, hilbertOrder, hilbertLoop_eq le_rfl x.toNat_lt y.toNat_lt, zero_add]

theorem hilbertXy2d64_lt (x y : UInt32) : hilbertXy2d64 x y < 2 ^ 64 := by
  rw [hilbertXy2d64_eq]
  exact Hilbert.index_lt 32 _ _

def cellOf (x : UInt32) : Nat := x.toNat >>> shift

theorem cellOf_eq (x : UInt32) : cellOf x = x.toNat / 2 ^ 24 := by
  rw [cellOf, shift, hilbertOrder, decompBits, shiftRight_eq_div_pow]

theorem cellOf_lt (x : UInt32) : cellOf x < 2 ^ 8 := by
  have hx : x.toNat < 2 ^ 24 * 2 ^ 8 := x.toNat_lt
  rw [cellOf_eq]
  exact Nat.div_lt_of_lt_mul hx

theorem cellSpan_eq : cellSpan = 4 ^ 24 := by decide

theorem hilbertXy2d64_div (x y : UInt32) : hilbertXy2d64 x y / cellSpan = Hilbert.index 8 (cellOf x) (cellOf y) := by
  rw [hilbertXy2d64_eq, cellSpan_eq, Hilbert.index_div 8 24, cellOf_eq, cellOf_eq]

theorem cellOf_corner {g : Nat} (hg : g < 2 ^ 8) : cellOf (corner g) = g := by
  have hLt : g * 2 ^ 24 < 2 ^ 32 := by omega
  rw [cellOf_eq, corner, shift, hilbertOrder, decompBits, shiftLeft_eq, UInt32.toNat_ofNat_of_lt' hLt]
  exact Nat.mul_div_cancel g (Nat.two_pow_pos 24)

theorem cellBase_eq {gx gy : Nat} (hx : gx < 2 ^ 8) (hy : gy < 2 ^ 8) :
    cellBase gx gy = Hilbert.index 8 gx gy * cellSpan := by
  rw [cellBase, hilbertXy2d64_div, cellOf_corner hx, cellOf_corner hy]

theorem cellBase_inj {gx gy gx' gy' : Nat} (hx : gx < 2 ^ 8) (hy : gy < 2 ^ 8) (hx' : gx' < 2 ^ 8) (hy' : gy' < 2 ^ 8)
    (h : Hilbert.index 8 gx gy = Hilbert.index 8 gx' gy') : gx = gx' ∧ gy = gy' := by
  obtain ⟨hFst, hSnd⟩ := Hilbert.index_inj h
  rw [mod_eq_of_lt hx, mod_eq_of_lt hx'] at hFst
  rw [mod_eq_of_lt hy, mod_eq_of_lt hy'] at hSnd
  exact ⟨hFst, hSnd⟩

end Curve

section Bijection

theorem point_hilbertXy2d64 (x y : UInt32) : Hilbert.point 32 (hilbertXy2d64 x y) = (x.toNat, y.toNat) := by
  rw [hilbertXy2d64_eq, Hilbert.point_index, mod_eq_of_lt x.toNat_lt, mod_eq_of_lt y.toNat_lt]

theorem exists_hilbertXy2d64 {d : Nat} (hd : d < 2 ^ 64) : ∃ x y, hilbertXy2d64 x y = d := by
  obtain ⟨hx, hy⟩ := Hilbert.inside_point 32 d
  refine ⟨.ofNat (Hilbert.point 32 d).1, .ofNat (Hilbert.point 32 d).2, ?_⟩
  rw [hilbertXy2d64_eq, UInt32.toNat_ofNat_of_lt' hx, UInt32.toNat_ofNat_of_lt' hy, Hilbert.index_point hd]

def distance (p : UInt32 × UInt32) : Fin (2 ^ 64) := ⟨hilbertXy2d64 p.1 p.2, hilbertXy2d64_lt p.1 p.2⟩

/-- Every distance is that of exactly one point, and the points of successive distances are neighbours. -/
theorem hilbert_curve : Function.Bijective distance ∧ ∀ x y x' y' : UInt32,
    hilbertXy2d64 x' y' = hilbertXy2d64 x y + 1 →
      Hilbert.Adjacent (x.toNat, y.toNat) (x'.toNat, y'.toNat) := by
  refine ⟨⟨fun p p' hEq => ?_, fun d => ?_⟩, fun x y x' y' hNext => ?_⟩
  · have hPoint := congrArg (Hilbert.point 32) (Fin.val_eq_of_eq hEq)
    simp only [distance, point_hilbertXy2d64, Prod.mk.injEq, UInt32.toNat_inj] at hPoint
    exact Prod.ext hPoint.1 hPoint.2
  · obtain ⟨x, y, hd⟩ := exists_hilbertXy2d64 d.isLt
    exact ⟨(x, y), Fin.ext hd⟩
  · have hTop : hilbertXy2d64 x y + 1 < 4 ^ 32 := hNext ▸ hilbertXy2d64_lt x' y'
    have hAdjacent := Hilbert.adjacent_point hTop
    rw [← hNext, point_hilbertXy2d64, point_hilbertXy2d64] at hAdjacent
    exact hAdjacent

end Bijection

section Ranges

theorem cellSpan_pos : 0 < cellSpan := by
  rw [cellSpan_eq]
  positivity

def Covers (ranges : List (Nat × Nat)) (h : Nat) : Prop := ∃ r ∈ ranges, r.1 ≤ h ∧ h ≤ r.2

def Separated (ranges : List (Nat × Nat)) : Prop := ranges.Pairwise fun r r' => r.2 < r'.1

structure Ahead (hi : Nat) (cs : List Nat) : Prop where
  after : ∀ c ∈ cs, hi + 1 ≤ c
  apart : cs.Pairwise fun a b => a + cellSpan ≤ b
  bounded : ∀ c ∈ cs, c < 2 ^ 64

variable {lo hi c : Nat} {cs : List Nat}

theorem Ahead.tail (h : Ahead hi (c :: cs)) : Ahead (c + cellSpan - 1) cs where
  after := fun c' hc' => by
    have hApart := (pairwise_cons.mp h.apart).1 c' hc'
    have hPos := cellSpan_pos
    omega
  apart := (pairwise_cons.mp h.apart).2
  bounded := fun c' hc' => h.bounded c' (mem_cons_of_mem _ hc')

theorem Ahead.head (h : Ahead hi (c :: cs)) : hi + 1 ≤ c := h.after c mem_cons_self

theorem mergeCells_cons (h : Ahead hi (c :: cs)) : mergeCells lo hi (c :: cs) =
      if c = hi + 1 then mergeCells lo (c + cellSpan - 1) cs else (lo, hi) :: mergeCells c (c + cellSpan - 1) cs := by
  have hHead := h.head
  have hTop := h.bounded c mem_cons_self
  have hPos := cellSpan_pos
  rw [mergeCells, mod_eq_of_lt (lt_of_le_of_lt hHead hTop)]
  by_cases hEq : c = hi + 1
  · rw [if_pos hEq, if_pos hEq.le, if_pos (by omega)]
  · rw [if_neg hEq, if_neg (by omega)]

theorem covers_mergeCells (h : Ahead hi cs) (hLo : lo ≤ hi) (d : Nat) :
    Covers (mergeCells lo hi cs) d ↔ (lo ≤ d ∧ d ≤ hi) ∨ ∃ c ∈ cs, c ≤ d ∧ d < c + cellSpan := by
  have hPos := cellSpan_pos
  induction cs generalizing lo hi with
  | nil => simp [mergeCells, Covers]
  | cons c cs ih =>
    have hHead := h.head
    rw [mergeCells_cons h, exists_mem_cons_iff, ← or_assoc]
    split
    · refine (ih h.tail (by omega)).trans (or_congr_left ?_)
      omega
    · have hCell : (c ≤ d ∧ d ≤ c + cellSpan - 1) ↔ (c ≤ d ∧ d < c + cellSpan) := by omega
      rw [Covers, exists_mem_cons_iff, or_assoc, ← hCell]
      exact or_congr_right (ih h.tail (by omega))

theorem bounds_mergeCells (h : Ahead hi cs) (hLo : lo ≤ hi) {r : Nat × Nat} (hr : r ∈ mergeCells lo hi cs) :
    lo ≤ r.1 ∧ r.1 ≤ r.2 := by
  have hPos := cellSpan_pos
  induction cs generalizing lo hi with
  | nil =>
    rw [mergeCells, mem_singleton] at hr
    rw [hr]
    exact ⟨le_rfl, hLo⟩
  | cons c cs ih =>
    have hHead := h.head
    rw [mergeCells_cons h] at hr
    split at hr
    · exact ih h.tail (by omega) hr
    · obtain rfl | hr := mem_cons.mp hr
      · exact ⟨le_rfl, hLo⟩
      · obtain ⟨hFrom, hOrder⟩ := ih h.tail (by omega) hr
        exact ⟨le_trans (by omega) hFrom, hOrder⟩

theorem apart_mergeCells (h : Ahead hi cs) (hLo : lo ≤ hi) :
    (mergeCells lo hi cs).Pairwise fun r r' => r.2 + 1 < r'.1 := by
  have hPos := cellSpan_pos
  induction cs generalizing lo hi with
  | nil => exact pairwise_singleton ..
  | cons c cs ih =>
    have hHead := h.head
    rw [mergeCells_cons h]
    split
    · exact ih h.tail (by omega)
    · refine pairwise_cons.mpr ⟨fun r hr => ?_, ih h.tail (by omega)⟩
      have hFrom := (bounds_mergeCells h.tail (by omega) hr).1
      dsimp only
      omega

variable {gx₀ gy₀ gx₁ gy₁ : Nat}

theorem cells_eq : cells gx₀ gy₀ gx₁ gy₁ =
    (range' gx₀ (gx₁ + 1 - gx₀) ×ˢ range' gy₀ (gy₁ + 1 - gy₀)).map fun g => cellBase g.1 g.2 := by
  change _ = map _ (product _ _)
  simp only [cells, product, map_flatMap, map_map, Function.comp_def]

theorem mem_window {g : Nat × Nat} : g ∈ range' gx₀ (gx₁ + 1 - gx₀) ×ˢ range' gy₀ (gy₁ + 1 - gy₀) ↔
      (gx₀ ≤ g.1 ∧ g.1 ≤ gx₁) ∧ (gy₀ ≤ g.2 ∧ g.2 ≤ gy₁) := by
  rw [mem_product, mem_range'_1, mem_range'_1]
  omega

theorem nodup_cells (hx : gx₁ < 2 ^ 8) (hy : gy₁ < 2 ^ 8) : (cells gx₀ gy₀ gx₁ gy₁).Nodup := by
  rw [cells_eq]
  refine Nodup.map_on ?_ (Nodup.product nodup_range' nodup_range')
  intro g hg g' hg' hEq
  obtain ⟨⟨-, hgx⟩, -, hgy⟩ := mem_window.mp hg
  obtain ⟨⟨-, hgx'⟩, -, hgy'⟩ := mem_window.mp hg'
  rw [cellBase_eq (by omega) (by omega), cellBase_eq (by omega) (by omega)] at hEq
  have hIndex := eq_of_mul_eq_mul_right cellSpan_pos hEq
  obtain ⟨hFst, hSnd⟩ := cellBase_inj (by omega) (by omega) (by omega) (by omega) hIndex
  exact Prod.ext hFst hSnd

theorem cellBase_dvd_le {gx gy : Nat} (hx : gx < 2 ^ 8) (hy : gy < 2 ^ 8) :
    cellSpan ∣ cellBase gx gy ∧ cellBase gx gy + cellSpan ≤ 2 ^ 64 := by
  rw [cellBase_eq hx hy]
  refine ⟨dvd_mul_left .., ?_⟩
  have hLt := Hilbert.index_lt 8 gx gy
  rw [cellSpan_eq]
  omega

theorem mem_cells {b : Nat} (hb : b ∈ cells gx₀ gy₀ gx₁ gy₁) :
    ∃ gx gy, (gx₀ ≤ gx ∧ gx ≤ gx₁) ∧ (gy₀ ≤ gy ∧ gy ≤ gy₁) ∧ b = cellBase gx gy := by
  rw [cells_eq] at hb
  obtain ⟨g, hg, rfl⟩ := mem_map.mp hb
  obtain ⟨hgx, hgy⟩ := mem_window.mp hg
  exact ⟨g.1, g.2, hgx, hgy, rfl⟩

section

variable (hx : gx₁ < 2 ^ 8) (hy : gy₁ < 2 ^ 8)
include hx hy

theorem in_cells_iff (x y : UInt32) :
    (∃ c ∈ cells gx₀ gy₀ gx₁ gy₁, c ≤ hilbertXy2d64 x y ∧ hilbertXy2d64 x y < c + cellSpan) ↔
      (gx₀ ≤ cellOf x ∧ cellOf x ≤ gx₁) ∧ (gy₀ ≤ cellOf y ∧ cellOf y ≤ gy₁) := by
  have hIn (gx gy : Nat) (hgx : gx < 2 ^ 8) (hgy : gy < 2 ^ 8) :
      (cellBase gx gy ≤ hilbertXy2d64 x y ∧ hilbertXy2d64 x y < cellBase gx gy + cellSpan) ↔
        Hilbert.index 8 gx gy = Hilbert.index 8 (cellOf x) (cellOf y) := by
    rw [cellBase_eq hgx hgy, ← hilbertXy2d64_div, eq_comm, Nat.div_eq_iff cellSpan_pos]
    have hPos := cellSpan_pos
    omega
  constructor
  · rintro ⟨c, hc, hRange⟩
    obtain ⟨gx, gy, hgx, hgy, rfl⟩ := mem_cells hc
    have hIndex := (hIn gx gy (by omega) (by omega)).mp hRange
    obtain ⟨rfl, rfl⟩ := cellBase_inj (by omega) (by omega) (cellOf_lt x) (cellOf_lt y) hIndex
    exact ⟨hgx, hgy⟩
  · rintro ⟨hgx, hgy⟩
    refine ⟨cellBase (cellOf x) (cellOf y), ?_, (hIn _ _ (cellOf_lt x) (cellOf_lt y)).mpr rfl⟩
    rw [cells_eq]
    exact mem_map.mpr ⟨(cellOf x, cellOf y), mem_window.mpr ⟨hgx, hgy⟩, rfl⟩

theorem sorted_cells : ((cells gx₀ gy₀ gx₁ gy₁).insertionSort (· ≤ ·)).Pairwise fun a b => a + cellSpan ≤ b := by
  have hPerm := perm_insertionSort (· ≤ ·) (cells gx₀ gy₀ gx₁ gy₁)
  have hNodup : ((cells gx₀ gy₀ gx₁ gy₁).insertionSort (· ≤ ·)).Nodup := hPerm.nodup_iff.mpr (nodup_cells hx hy)
  have hSorted := pairwise_insertionSort (· ≤ ·) (cells gx₀ gy₀ gx₁ gy₁)
  have hDvd (b : Nat) (hb : b ∈ (cells gx₀ gy₀ gx₁ gy₁).insertionSort (· ≤ ·)) : cellSpan ∣ b := by
    obtain ⟨gx, gy, hgx, hgy, rfl⟩ := mem_cells (hPerm.mem_iff.mp hb)
    exact (cellBase_dvd_le (by omega) (by omega)).1
  refine (hSorted.and hNodup).imp_of_mem fun {a b} ha hb h => ?_
  obtain ⟨p, rfl⟩ := hDvd a ha
  obtain ⟨q, rfl⟩ := hDvd b hb
  have hLt : p < q := Nat.lt_of_mul_lt_mul_left (lt_of_le_of_ne h.1 h.2)
  exact mul_le_mul_left cellSpan hLt

theorem cell_end {b : Nat} (hb : b ∈ (cells gx₀ gy₀ gx₁ gy₁).insertionSort (· ≤ ·)) : b + cellSpan ≤ 2 ^ 64 := by
  obtain ⟨gx, gy, hgx, hgy, rfl⟩ := mem_cells ((perm_insertionSort ..).mem_iff.mp hb)
  exact (cellBase_dvd_le (by omega) (by omega)).2

theorem ahead_cells (h : (cells gx₀ gy₀ gx₁ gy₁).insertionSort (· ≤ ·) = c :: cs) : Ahead (c + cellSpan - 1) cs := by
  have hPos := cellSpan_pos
  have hApart : ((cells gx₀ gy₀ gx₁ gy₁).insertionSort (· ≤ ·)).Pairwise fun a b => a + cellSpan ≤ b :=
    sorted_cells hx hy
  rw [h, pairwise_cons] at hApart
  refine ⟨fun c' hc' => ?_, hApart.2, fun c' hc' => ?_⟩
  · have hNext := hApart.1 c' hc'
    omega
  · have hEnd := cell_end hx hy (h ▸ mem_cons_of_mem c hc')
    omega

end

end Ranges

section Decompose

variable (qx₀ qy₀ qx₁ qy₁ : UInt32)

def Wide : Prop := decompFullScanThreshold < cellCount (cellOf qx₀) (cellOf qy₀) (cellOf qx₁) (cellOf qy₁)

def InWindow (x y : UInt32) : Prop :=
  (cellOf qx₀ ≤ cellOf x ∧ cellOf x ≤ cellOf qx₁) ∧ (cellOf qy₀ ≤ cellOf y ∧ cellOf y ≤ cellOf qy₁)

variable {qx₀ qy₀ qx₁ qy₁}

theorem decomposeRanges_eq : decomposeRanges qx₀ qy₀ qx₁ qy₁ =
      if decompFullScanThreshold < cellCount (cellOf qx₀) (cellOf qy₀) (cellOf qx₁) (cellOf qy₁) then
        some [(rangeFullLo, rangeFullHi)]
      else
        match (cells (cellOf qx₀) (cellOf qy₀) (cellOf qx₁) (cellOf qy₁)).insertionSort (· ≤ ·) with
        | [] => none
        | c :: cs => some (mergeCells c (c + cellSpan - 1) cs) := rfl

theorem decomposeRanges_isSome_iff : (decomposeRanges qx₀ qy₀ qx₁ qy₁).isSome ↔
      Wide qx₀ qy₀ qx₁ qy₁ ∨ (cellOf qx₀ ≤ cellOf qx₁ ∧ cellOf qy₀ ≤ cellOf qy₁) := by
  rw [decomposeRanges_eq]
  split
  · rename_i hWide
    exact iff_of_true rfl (.inl hWide)
  · rename_i hWide
    rw [Wide, or_iff_right hWide]
    split
    · rename_i hNil
      refine iff_of_false Bool.false_ne_true fun hOrder => ?_
      have hMem : cellBase (cellOf qx₀) (cellOf qy₀) ∈ cells (cellOf qx₀) (cellOf qy₀) (cellOf qx₁) (cellOf qy₁) := by
        rw [cells_eq]
        exact mem_map.mpr ⟨(cellOf qx₀, cellOf qy₀), mem_window.mpr ⟨⟨le_rfl, hOrder.1⟩, le_rfl, hOrder.2⟩, rfl⟩
      rw [← mem_insertionSort (· ≤ ·), hNil] at hMem
      exact absurd hMem not_mem_nil
    · rename_i c cs hCells
      refine iff_of_true rfl ?_
      have hMem : c ∈ (cells (cellOf qx₀) (cellOf qy₀) (cellOf qx₁) (cellOf qy₁)).insertionSort (· ≤ ·) :=
        hCells ▸ mem_cons_self
      obtain ⟨gx, gy, hgx, hgy, -⟩ := mem_cells ((mem_insertionSort _).mp hMem)
      exact ⟨hgx.1.trans hgx.2, hgy.1.trans hgy.2⟩

theorem decomposeRanges_spec {ranges : List (Nat × Nat)} (h : decomposeRanges qx₀ qy₀ qx₁ qy₁ = some ranges) :
    (ranges.Pairwise fun r r' => r.2 + 1 < r'.1) ∧ (∀ r ∈ ranges, r.1 ≤ r.2 ∧ r.2 < 2 ^ 64) ∧
      ∀ x y, Covers ranges (hilbertXy2d64 x y) ↔ Wide qx₀ qy₀ qx₁ qy₁ ∨ InWindow qx₀ qy₀ qx₁ qy₁ x y := by
  rw [decomposeRanges_eq] at h
  split at h
  · rename_i hWide
    cases h
    refine ⟨pairwise_singleton .., forall_mem_singleton.mpr (by decide), fun x y => iff_of_true ?_ (.inl hWide)⟩
    exact ⟨_, mem_singleton_self _, zero_le _, le_sub_one_of_lt (hilbertXy2d64_lt x y)⟩
  · rename_i hWide
    split at h
    · cases h
    · rename_i c cs hCells
      cases h
      have hPos := cellSpan_pos
      have hAhead := ahead_cells (cellOf_lt qx₁) (cellOf_lt qy₁) hCells
      have hEnd (b : Nat) (hb : b ∈ c :: cs) : b + cellSpan ≤ 2 ^ 64 :=
        cell_end (cellOf_lt qx₁) (cellOf_lt qy₁) (hCells ▸ hb)
      refine ⟨apart_mergeCells hAhead (by omega), fun r hr => ?_, fun x y => ?_⟩
      · have hOrder := (bounds_mergeCells hAhead (by omega) hr).2
        refine ⟨hOrder, ?_⟩
        obtain ⟨-, hLe⟩ | ⟨b, hb, -, hLt⟩ := (covers_mergeCells hAhead (by omega) r.2).mp ⟨r, hr, hOrder, le_rfl⟩
        · have hTop := hEnd c mem_cons_self
          omega
        · exact lt_of_lt_of_le hLt (hEnd b (mem_cons_of_mem c hb))
      have hCell : (c ≤ hilbertXy2d64 x y ∧ hilbertXy2d64 x y ≤ c + cellSpan - 1) ↔
          (c ≤ hilbertXy2d64 x y ∧ hilbertXy2d64 x y < c + cellSpan) := by omega
      have hList : (∃ b ∈ c :: cs, b ≤ hilbertXy2d64 x y ∧ hilbertXy2d64 x y < b + cellSpan) ↔
          (c ≤ hilbertXy2d64 x y ∧ hilbertXy2d64 x y < c + cellSpan) ∨
            ∃ b ∈ cs, b ≤ hilbertXy2d64 x y ∧ hilbertXy2d64 x y < b + cellSpan := exists_mem_cons_iff ..
      rw [covers_mergeCells hAhead (by omega), hCell, ← hList, ← hCells, InWindow,
        ← in_cells_iff (cellOf_lt qx₁) (cellOf_lt qy₁), Wide, or_iff_right hWide]
      simp only [mem_insertionSort]

end Decompose

section Box

variable {qx₀ qy₀ qx₁ qy₁ : UInt32} {ranges : List (Nat × Nat)}

theorem cellOf_le {x x' : UInt32} (h : x ≤ x') : cellOf x ≤ cellOf x' := by
  rw [cellOf_eq, cellOf_eq]
  exact Nat.div_le_div_right (UInt32.le_iff_toNat_le.mp h)

theorem exists_between {x₀ x₁ : UInt32} (h : x₀ ≤ x₁) {g : Nat} (hg : cellOf x₀ ≤ g ∧ g ≤ cellOf x₁) :
    ∃ x, (x₀ ≤ x ∧ x ≤ x₁) ∧ cellOf x = g := by
  obtain rfl | hLt := eq_or_lt_of_le hg.1
  · exact ⟨x₀, ⟨UInt32.le_refl x₀, h⟩, rfl⟩
  · have hTop : g < 2 ^ 8 := hg.2.trans_lt (cellOf_lt x₁)
    have hFits : g * 2 ^ 24 < 2 ^ 32 := by omega
    have hCorner : (corner g).toNat = g * 2 ^ 24 := by
      rw [corner, shift, hilbertOrder, decompBits, shiftLeft_eq, UInt32.toNat_ofNat_of_lt' hFits]
    rw [cellOf_eq] at hLt
    have hLe := (cellOf_eq x₁) ▸ hg.2
    refine ⟨corner g, ⟨?_, ?_⟩, cellOf_corner hTop⟩
    · rw [UInt32.le_iff_toNat_le, hCorner]
      omega
    · rw [UInt32.le_iff_toNat_le, hCorner]
      omega

theorem cellCount_eq {gx₀ gy₀ gx₁ gy₁ : Nat} (hx : gx₀ ≤ gx₁) (hy : gy₀ ≤ gy₁) (hx₁ : gx₁ < 2 ^ 8) (hy₁ : gy₁ < 2 ^ 8) :
    cellCount gx₀ gy₀ gx₁ gy₁ = (gx₁ + 1 - gx₀) * (gy₁ + 1 - gy₀) := by
  have hSub {a b : Nat} (hLe : b ≤ a) (ha : a < 2 ^ 8) : (sub32 a b + 1) % 2 ^ 32 = a + 1 - b := by
    rw [sub32]
    omega
  rw [cellCount, hSub hx hx₁, hSub hy hy₁]

/-- `meets` is about a box of few cells: the ranges show no other cells. -/
structure Decomposed (qx₀ qy₀ qx₁ qy₁ : UInt32) (ranges : List (Nat × Nat)) : Prop where
  apart : ranges.Pairwise fun r r' => r.2 + 1 < r'.1
  bounds : ∀ r ∈ ranges, r.1 ≤ r.2 ∧ r.2 < 2 ^ 64
  covers : ∀ x y, qx₀ ≤ x ∧ x ≤ qx₁ → qy₀ ≤ y ∧ y ≤ qy₁ → Covers ranges (hilbertXy2d64 x y)
  meets : (cellOf qx₁ + 1 - cellOf qx₀) * (cellOf qy₁ + 1 - cellOf qy₀) ≤ decompFullScanThreshold →
    ∀ d, Covers ranges d → ∃ x y, hilbertXy2d64 x y = d ∧
      ∃ x' y', (qx₀ ≤ x' ∧ x' ≤ qx₁) ∧ (qy₀ ≤ y' ∧ y' ≤ qy₁) ∧ cellOf x' = cellOf x ∧ cellOf y' = cellOf y

/-- The ranges of a box are apart and in order and cover each of its points, and those of a box of few cells show no
other cells. -/
theorem box_decomposed (hx : qx₀ ≤ qx₁) (hy : qy₀ ≤ qy₁) :
    ∃ ranges, decomposeRanges qx₀ qy₀ qx₁ qy₁ = some ranges ∧ Decomposed qx₀ qy₀ qx₁ qy₁ ranges := by
  have hSome : (decomposeRanges qx₀ qy₀ qx₁ qy₁).isSome :=
    decomposeRanges_isSome_iff.mpr (.inr ⟨cellOf_le hx, cellOf_le hy⟩)
  obtain ⟨ranges, hRanges⟩ := Option.isSome_iff_exists.mp hSome
  obtain ⟨hApart, hBounds, hCovers⟩ := decomposeRanges_spec hRanges
  refine ⟨ranges, hRanges, hApart, hBounds, fun x y hxIn hyIn => ?_, fun hFew d hd => ?_⟩
  · exact (hCovers x y).mpr (.inr ⟨⟨cellOf_le hxIn.1, cellOf_le hxIn.2⟩, cellOf_le hyIn.1, cellOf_le hyIn.2⟩)
  · have hTop : d < 2 ^ 64 := by
      obtain ⟨r, hr, -, hLe⟩ := hd
      exact hLe.trans_lt (hBounds r hr).2
    obtain ⟨x, y, rfl⟩ := exists_hilbertXy2d64 hTop
    have hNarrow : ¬Wide qx₀ qy₀ qx₁ qy₁ := by
      rw [Wide, cellCount_eq (cellOf_le hx) (cellOf_le hy) (cellOf_lt qx₁) (cellOf_lt qy₁)]
      exact Nat.not_lt.mpr hFew
    obtain ⟨hInX, hInY⟩ := ((hCovers x y).mp hd).resolve_left hNarrow
    obtain ⟨x', hx', hCellX⟩ := exists_between hx hInX
    obtain ⟨y', hy', hCellY⟩ := exists_between hy hInY
    exact ⟨x, y, rfl, x', y', hx', hy', hCellX, hCellY⟩

theorem four_cells_decomposed : Decomposed 0x1000000 0x1000000 0x2000000 0x2000000
    [(562949953421312, 844424930131967), (1970324836974592, 2533274790395903),
      (3659174697238528, 3940649673949183)] := by
  have hLe : (0x1000000 : UInt32) ≤ 0x2000000 := by decide
  obtain ⟨ranges, hRanges, hDecomposed⟩ := box_decomposed hLe hLe
  have hEq : decomposeRanges 0x1000000 0x1000000 0x2000000 0x2000000 =
      some [(562949953421312, 844424930131967), (1970324836974592, 2533274790395903),
        (3659174697238528, 3940649673949183)] := by decide +kernel
  cases hEq.symm.trans hRanges
  exact hDecomposed

end Box

end TideSql.Spatial
