import Mathlib.Data.Nat.Digits.Defs
import Mathlib.Tactic.Common

/-!
# Numbers as bytes

A number as so many bytes with the lowest first, and the number such bytes
stand for.
-/

namespace LittleEndian

def toBytes : ℕ → ℕ → List UInt8
  | 0, _ => []
  | n + 1, x => UInt8.ofNat x :: toBytes n (x / 256)

def ofBytes (bytes : List UInt8) : ℕ := Nat.ofDigits 256 (bytes.map UInt8.toNat)

@[simp] theorem length_toBytes (n x : ℕ) : (toBytes n x).length = n := by
  induction n generalizing x with
  | zero => rfl
  | succ n ih => simp [toBytes, ih]

theorem ofBytes_cons (b : UInt8) (bytes : List UInt8) :
    ofBytes (b :: bytes) = b.toNat + 256 * ofBytes bytes := by
  simp [ofBytes, Nat.ofDigits_cons]

theorem ofBytes_toBytes_mod (n x : ℕ) : ofBytes (toBytes n x) = x % 256 ^ n := by
  induction n generalizing x with
  | zero => simp [toBytes, ofBytes, Nat.mod_one]
  | succ n ih =>
      rw [toBytes, ofBytes_cons, ih, UInt8.toNat_ofNat', pow_succ' 256 n]
      exact Nat.mod_mul.symm

theorem ofBytes_toBytes {n x : ℕ} (h : x < 256 ^ n) : ofBytes (toBytes n x) = x := by
  rw [ofBytes_toBytes_mod, Nat.mod_eq_of_lt h]

theorem toBytes_ofBytes (bytes : List UInt8) : toBytes bytes.length (ofBytes bytes) = bytes := by
  induction bytes with
  | nil => rfl
  | cons b bytes ih =>
      have hb := b.toNat_lt
      have hdiv : ofBytes (b :: bytes) / 256 = ofBytes bytes := by
        rw [ofBytes_cons]
        omega
      have hhead : UInt8.ofNat (ofBytes (b :: bytes)) = b := by
        rw [← UInt8.toNat_inj, UInt8.toNat_ofNat', ofBytes_cons]
        omega
      rw [List.length_cons, toBytes, hdiv, hhead, ih]

theorem toBytes_mod (n x : ℕ) : toBytes n (x % 256 ^ n) = toBytes n x := by
  rw [← ofBytes_toBytes_mod]
  have h := toBytes_ofBytes (toBytes n x)
  rwa [length_toBytes] at h

/-- The lower bytes come first. -/
theorem toBytes_add (m n x : ℕ) : toBytes (m + n) x = toBytes m x ++ toBytes n (x / 256 ^ m) := by
  induction m generalizing x with
  | zero => simp [toBytes]
  | succ m ih =>
      rw [Nat.add_right_comm, toBytes, ih, toBytes, List.cons_append, Nat.div_div_eq_div_mul,
        ← pow_succ']

end LittleEndian
