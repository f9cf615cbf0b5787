import Mathlib.Data.List.Basic
import Mathlib.Tactic.Common

/-!
# Overwriting a stretch of a list

`splice xs p ys` puts `ys` at the index `p` of `xs`. It is a `memcpy` into a
block when `ys` fits in `xs`, and a write at the cursor of a file when `ys` may
run past the end of `xs`.
-/

variable {α : Type*}

def splice (xs : List α) (p : ℕ) (ys : List α) : List α :=
  xs.take p ++ (ys ++ xs.drop (p + ys.length))

theorem length_splice {xs : List α} {p : ℕ} (ys : List α) (hp : p ≤ xs.length) :
    (splice xs p ys).length = max xs.length (p + ys.length) := by
  rw [splice, List.length_append, List.length_append, List.length_take, List.length_drop]
  omega

theorem length_splice_of_le {xs ys : List α} {p : ℕ} (h : p + ys.length ≤ xs.length) :
    (splice xs p ys).length = xs.length := by
  rw [length_splice ys (by omega)]
  omega

@[simp] theorem splice_nil (xs : List α) (p : ℕ) : splice xs p [] = xs := by simp [splice]

@[simp] theorem splice_length (xs ys : List α) : splice xs xs.length ys = xs ++ ys := by
  simp [splice]

theorem splice_zero {xs ys : List α} (h : xs.length ≤ ys.length) : splice xs 0 ys = ys := by
  simp [splice, List.drop_eq_nil_of_le h]

/-- Up to the end of the stretch only the part before `p` is still seen. -/
theorem take_splice {xs ys : List α} {p n : ℕ} (hp : p ≤ xs.length) (hn : n ≤ p + ys.length) :
    (splice xs p ys).take n = (xs.take p ++ ys).take n := by
  rw [splice, ← List.append_assoc]
  apply List.take_append_of_le_length
  rw [List.length_append, List.length_take]
  omega

theorem take_splice_zero {xs ys : List α} {n : ℕ} (hn : n ≤ ys.length) :
    (splice xs 0 ys).take n = ys.take n := by
  rw [take_splice (Nat.zero_le _) (by omega)]
  simp

/-- The bytes of the stretch are replaced and every other one stays. -/
theorem getElem?_splice {xs : List α} {p : ℕ} (ys : List α) (hp : p ≤ xs.length) (k : ℕ) :
    (splice xs p ys)[k]? = if p ≤ k ∧ k < p + ys.length then ys[k - p]? else xs[k]? := by
  have hlen : (xs.take p).length = p := by simp [hp]
  rcases Nat.lt_or_ge k p with hlt | hge
  · rw [if_neg (by omega), splice, List.getElem?_append_left (by omega),
      List.getElem?_take_of_lt hlt]
  · rw [splice, List.getElem?_append_right (by omega), hlen]
    rcases Nat.lt_or_ge k (p + ys.length) with hin | hout
    · rw [if_pos ⟨hge, hin⟩, List.getElem?_append_left (by omega)]
    · rw [if_neg (by omega), List.getElem?_append_right (by omega), List.getElem?_drop]
      congr 1
      omega
