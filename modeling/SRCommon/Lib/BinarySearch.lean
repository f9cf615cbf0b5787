import Mathlib.Data.List.Basic
import Mathlib.Tactic.Common

/-!
# Binary search for a boundary

The search halves an interval at whose start a property holds and at whose end
it does not. In a list that the property parts it finds where the elements with
the property end.
-/

namespace BinarySearch

/-- One round halves the interval, which has no more places than there are rounds. -/
def boundary (p : ℕ → Bool) : ℕ → ℕ → ℕ → ℕ
  | 0, first, _ => first
  | rounds + 1, first, length =>
      if 0 < length then
        let half := length / 2
        if p (first + half) then boundary p rounds (first + half + 1) (length - half - 1)
        else boundary p rounds first half
      else first

theorem boundary_eq {p : ℕ → Bool} {k : ℕ} (hp : ∀ i, p i = true ↔ i < k)
    {rounds first length : ℕ} (hrounds : length ≤ rounds) (hfirst : first ≤ k)
    (hlast : k ≤ first + length) : boundary p rounds first length = k := by
  induction rounds generalizing first length with
  | zero =>
      rw [boundary]
      omega
  | succ rounds ih =>
      rw [boundary]
      by_cases hlength : 0 < length
      · have hmiddle := hp (first + length / 2)
        rw [if_pos hlength]
        by_cases h : p (first + length / 2)
        · have hlt := hmiddle.mp h
          rw [if_pos h]
          apply ih <;> omega
        · have hle : k ≤ first + length / 2 := Nat.le_of_not_lt fun hlt => h (hmiddle.mpr hlt)
          rw [if_neg h]
          apply ih <;> omega
      · rw [if_neg hlength]
        omega

variable {α : Type*}

/-- `std::lower_bound`: the first place whose element is not below. -/
def lowerBound (below : α → Bool) (xs : List α) : ℕ :=
  boundary (fun i => xs[i]?.any below) xs.length 0 xs.length

/-- What is below stands in front. -/
def Parted (below : α → Bool) (xs : List α) : Prop :=
  xs.Pairwise fun x y => below y → below x

variable {below : α → Bool} {xs : List α}

theorem Parted.not_below (h : Parted below xs) {x : α} (hx : x ∈ xs.dropWhile below) :
    ¬ below x := by
  induction xs with
  | nil => cases hx
  | cons y ys ih =>
      obtain ⟨hy, hys⟩ := List.pairwise_cons.mp h
      by_cases hbelow : below y
      · rw [List.dropWhile_cons_of_pos hbelow] at hx
        exact ih hys hx
      · rw [List.dropWhile_cons_of_neg hbelow] at hx
        rcases List.mem_cons.mp hx with rfl | hx
        · exact hbelow
        · intro hx'
          exact hbelow (hy x hx hx')

theorem Parted.below_iff (h : Parted below xs) (i : ℕ) :
    xs[i]?.any below = true ↔ i < (xs.takeWhile below).length := by
  induction xs generalizing i with
  | nil => simp
  | cons y ys ih =>
      obtain ⟨hy, hys⟩ := List.pairwise_cons.mp h
      by_cases hbelow : below y
      · rw [List.takeWhile_cons_of_pos hbelow, List.length_cons]
        cases i with
        | zero => simpa using hbelow
        | succ i => simpa using ih hys i
      · rw [List.takeWhile_cons_of_neg hbelow]
        apply iff_of_false _ (Nat.not_lt_zero i)
        intro hany
        obtain ⟨x, hx, hx'⟩ := (Option.any_eq_true _ _).mp hany
        rcases List.mem_cons.mp (List.mem_of_getElem? hx) with rfl | hmem
        · exact hbelow hx'
        · exact hbelow (hy x hmem hx')

/-- The search parts the list. -/
theorem Parted.lowerBound_eq (h : Parted below xs) :
    lowerBound below xs = (xs.takeWhile below).length := by
  have hle : (xs.takeWhile below).length ≤ xs.length := (List.takeWhile_sublist below).length_le
  exact boundary_eq h.below_iff (Nat.le_refl _) (Nat.zero_le _) (by omega)

theorem Parted.take_lowerBound (h : Parted below xs) :
    xs.take (lowerBound below xs) = xs.takeWhile below := by
  rw [h.lowerBound_eq]
  exact (List.prefix_iff_eq_take.mp (List.takeWhile_prefix below)).symm

theorem Parted.drop_lowerBound (h : Parted below xs) :
    xs.drop (lowerBound below xs) = xs.dropWhile below := by
  have happend : xs.takeWhile below ++ xs.dropWhile below = xs := List.takeWhile_append_dropWhile
  rw [h.lowerBound_eq]
  calc xs.drop (xs.takeWhile below).length
      = (xs.takeWhile below ++ xs.dropWhile below).drop (xs.takeWhile below).length := by
        rw [happend]
    _ = xs.dropWhile below := List.drop_left

end BinarySearch
