import Mathlib.Algebra.BigOperators.Group.List.Basic
import Mathlib.Algebra.Order.Group.Nat
import Mathlib.Data.Nat.ModEq

/-!
# Sums in ones' complement

Words below a base are added with the carry brought round to the end. The sum is
the remainder modulo the base less one, which is the greatest word for a multiple
that is not zero.
-/

namespace SRCommon

namespace OnesComplement

def add (B a b : ℕ) : ℕ := if a + b < B then a + b else a + b - B + 1

def sum (B : ℕ) : List ℕ → ℕ
  | [] => 0
  | w :: ws => add B w (sum B ws)

/-- The carry of a longer sum is added to its last word. -/
def fold (B n : ℕ) : ℕ := n / B + n % B

/-- `s` is the word that stands for `n`. -/
structure Reduces (B n s : ℕ) : Prop where
  lt : s < B
  modEq : s ≡ n [MOD B - 1]
  zero : s = 0 ↔ n = 0

variable {B n m s t : ℕ}

namespace Reduces

theorem unique (hs : Reduces B n s) (ht : Reduces B n t) : s = t := by
  by_cases hn : n = 0
  · rw [hs.zero.mpr hn, ht.zero.mpr hn]
  · have hs0 := mt hs.zero.mp hn
    have ht0 := mt ht.zero.mp hn
    have hmod : s - 1 ≡ t - 1 [MOD B - 1] := by
      apply Nat.ModEq.add_right_cancel' 1
      rw [Nat.sub_add_cancel (by omega), Nat.sub_add_cancel (by omega)]
      exact hs.modEq.trans ht.modEq.symm
    have hs' := hs.lt
    have ht' := ht.lt
    have := hmod.eq_of_lt_of_lt (by omega) (by omega)
    omega

theorem self (h : n < B) : Reduces B n n := ⟨h, rfl, Iff.rfl⟩

theorem add (hs : Reduces B n s) (ht : Reduces B m t) :
    Reduces B (n + m) (OnesComplement.add B s t) := by
  have hs' := hs.lt
  have ht' := ht.lt
  have hmod := hs.modEq.add ht.modEq
  have hzero := hs.zero
  have hzero' := ht.zero
  rw [OnesComplement.add]
  split
  · next hlt => exact ⟨hlt, hmod, by omega⟩
  · next hle =>
      refine ⟨by omega, ?_, by omega⟩
      have hround : s + t = s + t - B + 1 + (B - 1) := by omega
      rw [hround] at hmod
      exact Nat.add_modEq_right.symm.trans hmod

/-- The greatest word stands for the multiples, but for zero. -/
theorem eq_max_iff (h : Reduces B n s) (hB : 1 < B) : s = B - 1 ↔ n ≠ 0 ∧ B - 1 ∣ n := by
  have hs := h.lt
  constructor
  · rintro rfl
    exact ⟨mt h.zero.mpr (by omega), (h.modEq.dvd_iff dvd_rfl).mp dvd_rfl⟩
  · rintro ⟨hn, hdvd⟩
    have hmax : Reduces B n (B - 1) :=
      ⟨by omega, (Nat.modEq_zero_iff_dvd.mpr dvd_rfl).trans (Nat.modEq_zero_iff_dvd.mpr hdvd).symm,
        by omega⟩
    exact h.unique hmax

end Reduces

theorem reduces_sum {ws : List ℕ} (h : ∀ w ∈ ws, w < B) (hB : 0 < B) :
    Reduces B ws.sum (sum B ws) := by
  induction ws with
  | nil => exact .self hB
  | cons w ws ih =>
      rw [List.forall_mem_cons] at h
      rw [List.sum_cons]
      exact (Reduces.self h.1).add (ih h.2)

theorem fold_modEq (B n : ℕ) : fold B n ≡ n [MOD B - 1] := by
  cases B with
  | zero => rw [fold, Nat.div_zero, Nat.mod_zero, Nat.zero_add]
  | succ B =>
      have hn : n = fold (B + 1) n + B * (n / (B + 1)) := by
        have := Nat.div_add_mod n (B + 1)
        rw [Nat.add_mul] at this
        rw [fold]
        omega
      conv_rhs => rw [hn]
      exact Nat.modEq_add_modulus_mul_iff.mpr rfl

theorem fold_eq_zero : fold B n = 0 ↔ n = 0 := by
  constructor
  · intro h
    rw [fold, Nat.add_eq_zero_iff] at h
    rw [← Nat.div_add_mod n B, h.1, h.2, Nat.mul_zero]
  · rintro rfl
    rw [fold, Nat.zero_div, Nat.zero_mod]

/-- Two foldings are enough for two words. -/
theorem reduces_fold_fold (h : n < B * B) : Reduces B n (fold B (fold B n)) := by
  have hB : 0 < B := Nat.pos_of_mul_pos_right (Nat.zero_lt_of_lt h)
  refine ⟨?_, (fold_modEq B _).trans (fold_modEq B n), fold_eq_zero.trans fold_eq_zero⟩
  have hquot : n / B < B := Nat.div_lt_of_lt_mul h
  have hrem := Nat.mod_lt n hB
  have hfold : fold B n < B + (B - 1) := by
    rw [fold]
    omega
  by_cases hlt : fold B n < B
  · rwa [fold, Nat.div_eq_of_lt hlt, Nat.mod_eq_of_lt hlt, Nat.zero_add]
  · have hone : fold B n / B = 1 := Nat.div_eq_of_lt_le (by omega) (by omega)
    have hrest : fold B n % B = fold B n - B := by
      rw [Nat.mod_eq_sub_mod (by omega), Nat.mod_eq_of_lt (by omega)]
    rw [fold, hone, hrest]
    omega

end OnesComplement

end SRCommon
