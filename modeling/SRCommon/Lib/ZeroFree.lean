import Mathlib.Algebra.Order.Floor.Ring
import Mathlib.Data.Rat.Floor
import Mathlib.Tactic.Common
import Mathlib.Tactic.Linarith
import Mathlib.Tactic.Ring

/-!
# Coordinates without zero

On an axis without zero the coordinate after `-1` is `1`. The index of a
coordinate closes the gap, so that translations are sums of indices and blocks
of equal width are quotients and remainders of indices.
-/

namespace ZeroFree

def index (n : ℤ) : ℤ := if 0 < n then n - 1 else n

def ofIndex (i : ℤ) : ℤ := if 0 ≤ i then i + 1 else i

@[simp] theorem index_ofIndex (i : ℤ) : index (ofIndex i) = i := by
  rw [index, ofIndex]
  split <;> split <;> omega

theorem ofIndex_index {n : ℤ} (h : n ≠ 0) : ofIndex (index n) = n := by
  rw [index, ofIndex]
  split <;> split <;> omega

@[simp] theorem ofIndex_ne_zero (i : ℤ) : ofIndex i ≠ 0 := by
  rw [ofIndex]
  split <;> omega

theorem index_nonneg {n : ℤ} (h : 0 < n) : 0 ≤ index n := by
  rw [index, if_pos h]
  omega

/-! ## Truncating division -/

section

variable {w q r : ℤ}

theorem tdiv_add (hq : 0 ≤ q) (hr : 0 ≤ r) (hrw : r < w) : (w * q + r).tdiv w = q := by
  have hw : 0 < w := hr.trans_lt hrw
  rw [Int.tdiv_eq_ediv_of_nonneg (add_nonneg (mul_nonneg hw.le hq) hr)]
  exact ((Int.ediv_emod_unique hw).mpr ⟨add_comm r (w * q), hr, hrw⟩).1

theorem tmod_add (hq : 0 ≤ q) (hr : 0 ≤ r) (hrw : r < w) : (w * q + r).tmod w = r := by
  have h := Int.mul_tdiv_add_tmod (w * q + r) w
  rw [tdiv_add hq hr hrw] at h
  exact add_left_cancel h

theorem tdiv_sub (hq : q ≤ 0) (hr : 0 ≤ r) (hrw : r < w) : (w * q - r).tdiv w = q := by
  have hneg : w * q - r = -(w * -q + r) := by ring
  rw [hneg, Int.neg_tdiv, tdiv_add (neg_nonneg.mpr hq) hr hrw, neg_neg]

theorem tmod_sub (hq : q ≤ 0) (hr : 0 ≤ r) (hrw : r < w) : (w * q - r).tmod w = -r := by
  have h := Int.mul_tdiv_add_tmod (w * q - r) w
  rw [tdiv_sub hq hr hrw] at h
  linarith

end

/-! ## Blocks -/

section

variable {w n : ℤ}

/-- The block of width `w` that a coordinate is in. -/
def block (w n : ℤ) : ℤ := ofIndex (index n / w)

/-- The place in the block, counted from one. -/
def place (w n : ℤ) : ℤ := index n % w + 1

theorem place_pos (hw : 0 < w) : 1 ≤ place w n :=
  le_add_of_nonneg_left (Int.emod_nonneg _ hw.ne')

theorem place_le (hw : 0 < w) : place w n ≤ w :=
  Int.add_one_le_of_lt (Int.emod_lt_of_pos _ hw)

/-- Block and place determine the index. -/
theorem index_eq_block_place (w n : ℤ) : index n = w * index (block w n) + (place w n - 1) := by
  rw [block, place, index_ofIndex, add_sub_cancel_right, Int.mul_ediv_add_emod]

theorem block_ofIndex_of_eq {b c : ℤ} (hb : b ≠ 0) (hc : 1 ≤ c) (hcw : c ≤ w) :
    block w (ofIndex (w * index b + (c - 1))) = b ∧ place w (ofIndex (w * index b + (c - 1))) = c := by
  have hdiv := (Int.ediv_emod_unique (show 0 < w by omega)).mpr
    ⟨add_comm (c - 1) (w * index b), show 0 ≤ c - 1 by omega, show c - 1 < w by omega⟩
  rw [block, place, index_ofIndex, hdiv.1, hdiv.2, ofIndex_index hb]
  exact ⟨rfl, sub_add_cancel c 1⟩

/-- A coordinate moved away from zero by `w - 1` and divided by `w` is its block. -/
theorem tdiv_eq_block (hw : 0 < w) (hn : n ≠ 0) :
    (if 0 < n then n + (w - 1) else n - (w - 1)).tdiv w = block w n := by
  have hr := Int.emod_nonneg (index n) hw.ne'
  have hrw := Int.emod_lt_of_pos (index n) hw
  have hsum := Int.mul_ediv_add_emod (index n) w
  rw [block]
  split
  · rename_i hpos
    have hq : 0 ≤ index n / w := Int.ediv_nonneg (index_nonneg hpos) hw.le
    rw [ofIndex, if_pos hq]
    have hn' : n + (w - 1) = w * (index n / w + 1) + index n % w := by
      rw [index, if_pos hpos] at hsum ⊢
      linarith
    rw [hn', tdiv_add (by omega) hr hrw]
  · rename_i hneg
    have hq : index n / w < 0 := by
      apply Int.ediv_neg_of_neg_of_pos _ hw
      rw [index, if_neg hneg]
      omega
    rw [ofIndex, if_neg (not_le.mpr hq)]
    have hn' : n - (w - 1) = w * (index n / w) - (w - 1 - index n % w) := by
      rw [index, if_neg hneg] at hsum ⊢
      linarith
    rw [hn', tdiv_sub hq.le (by omega) (by omega)]

end

/-! ## Cells of a line -/

/-- Cells of length one count away from zero, and zero counts as negative. -/
def cell (x : ℚ) : ℤ := if 0 < x then ⌊x⌋ else ⌈x⌉ - 1

/-- A point moves with its cell unless it is a whole number that changes sides. -/
theorem cell_add_int_iff (x : ℚ) (k : ℤ) :
    cell (x + k) = cell x + k ↔ ((∃ m : ℤ, x = m) → (0 < x ↔ 0 < x + k)) := by
  rw [cell, cell, Int.floor_add_intCast, Int.ceil_add_intCast]
  by_cases hwhole : ∃ m : ℤ, x = m
  · obtain ⟨m, rfl⟩ := hwhole
    rw [Int.floor_intCast, Int.ceil_intCast]
    have hex : ∃ m' : ℤ, (m : ℚ) = m' := ⟨m, rfl⟩
    simp only [hex, true_implies]
    by_cases hx : 0 < (m : ℚ) <;> by_cases hy : 0 < (m : ℚ) + k <;>
      simp only [hx, hy, if_true, if_false, iff_true, iff_false, iff_self, not_true_eq_false] <;>
      omega
  · have hceil : ⌈x⌉ = ⌊x⌋ + 1 := by
      rw [Int.ceil_eq_iff]
      have hle := Int.floor_le x
      have hne : (⌊x⌋ : ℚ) ≠ x := fun h => hwhole ⟨⌊x⌋, h.symm⟩
      push_cast
      exact ⟨by linarith [lt_of_le_of_ne hle hne], (Int.lt_floor_add_one x).le⟩
    simp only [hwhole, false_implies, iff_true, hceil]
    split <;> split <;> ring

/-- The same for cells of any length. -/
theorem cell_shift_iff {p s : ℚ} (hs : 0 < s) (n : ℤ) :
    cell ((p + n * s) / s) = cell (p / s) + n ↔
      ((∃ m : ℤ, p = m * s) → (0 < p ↔ 0 < p + n * s)) := by
  obtain ⟨x, rfl⟩ : ∃ x, p = x * s := ⟨p / s, (div_mul_cancel₀ p hs.ne').symm⟩
  rw [← add_mul, mul_div_cancel_right₀ _ hs.ne', mul_div_cancel_right₀ _ hs.ne', cell_add_int_iff,
    mul_pos_iff_of_pos_right hs, mul_pos_iff_of_pos_right hs]
  simp only [mul_left_inj' hs.ne']

end ZeroFree
