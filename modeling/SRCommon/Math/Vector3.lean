import Mathlib.Data.Rat.Floor
import Mathlib.Tactic.Common

/-!
# Vector3

`SR_MATH_NS::Vector3` with its operators by component. `Unit` is taken as a
rational number and `int32_t` as an integer: arithmetic is exact here.
-/

namespace SRCommon

structure Vector3 (α : Type) where
  x : α
  y : α
  z : α
  deriving DecidableEq

/-- `IVector3`. -/
abbrev IVector3 := Vector3 ℤ

/-- `FVector3`. -/
abbrev FVector3 := Vector3 ℚ

namespace Vector3

variable {α β γ : Type}

/-- `operator[]`. -/
def coord (v : Vector3 α) : Fin 3 → α
  | 0 => v.x
  | 1 => v.y
  | 2 => v.z

@[ext]
theorem ext_coord {v w : Vector3 α} (h : ∀ i, v.coord i = w.coord i) : v = w := by
  obtain ⟨x, y, z⟩ := v
  obtain ⟨x', y', z'⟩ := w
  have hx : x = x' := h 0
  have hy : y = y' := h 1
  have hz : z = z' := h 2
  rw [hx, hy, hz]

def splat (a : α) : Vector3 α := ⟨a, a, a⟩

/-- An assignment to one component. -/
def modify (v : Vector3 α) (i : Fin 3) (f : α → α) : Vector3 α :=
  match i with
  | 0 => { v with x := f v.x }
  | 1 => { v with y := f v.y }
  | 2 => { v with z := f v.z }

def map (f : α → β) (v : Vector3 α) : Vector3 β := ⟨f v.x, f v.y, f v.z⟩

def zipWith (f : α → β → γ) (v : Vector3 α) (w : Vector3 β) : Vector3 γ :=
  ⟨f v.x w.x, f v.y w.y, f v.z w.z⟩

@[simp] theorem coord_splat (a : α) : ∀ i, (splat a).coord i = a
  | 0 | 1 | 2 => rfl

@[simp] theorem coord_map (f : α → β) (v : Vector3 α) : ∀ i, (v.map f).coord i = f (v.coord i)
  | 0 | 1 | 2 => rfl

@[simp] theorem coord_zipWith (f : α → β → γ) (v : Vector3 α) (w : Vector3 β) :
    ∀ i, (zipWith f v w).coord i = f (v.coord i) (w.coord i)
  | 0 | 1 | 2 => rfl

theorem coord_modify (v : Vector3 α) (f : α → α) :
    ∀ i j, (v.modify i f).coord j = if j = i then f (v.coord j) else v.coord j
  | 0, 0 | 0, 1 | 0, 2 | 1, 0 | 1, 1 | 1, 2 | 2, 0 | 2, 1 | 2, 2 => rfl

instance [Add α] : Add (Vector3 α) := ⟨zipWith (· + ·)⟩
instance [Sub α] : Sub (Vector3 α) := ⟨zipWith (· - ·)⟩
instance [Mul α] : Mul (Vector3 α) := ⟨zipWith (· * ·)⟩
instance [Neg α] : Neg (Vector3 α) := ⟨map (- ·)⟩
instance [Zero α] : Zero (Vector3 α) := ⟨splat 0⟩

@[simp] theorem coord_add [Add α] (v w : Vector3 α) (i : Fin 3) :
    (v + w).coord i = v.coord i + w.coord i := coord_zipWith _ v w i

@[simp] theorem coord_sub [Sub α] (v w : Vector3 α) (i : Fin 3) :
    (v - w).coord i = v.coord i - w.coord i := coord_zipWith _ v w i

@[simp] theorem coord_mul [Mul α] (v w : Vector3 α) (i : Fin 3) :
    (v * w).coord i = v.coord i * w.coord i := coord_zipWith _ v w i

@[simp] theorem coord_neg [Neg α] (v : Vector3 α) (i : Fin 3) :
    (-v).coord i = -v.coord i := coord_map _ v i

@[simp] theorem coord_zero [Zero α] (i : Fin 3) : (0 : Vector3 α).coord i = 0 := coord_splat 0 i

/-- Division of integers truncates towards zero. -/
def tdiv (v w : IVector3) : IVector3 := zipWith Int.tdiv v w

/-- Division of units is exact. -/
def div (v w : FVector3) : FVector3 := zipWith (· / ·) v w

/-- The conversion of an `int32_t` to `Unit`. -/
def toUnit (v : IVector3) : FVector3 := v.map Int.cast

/-- The conversion of a `Unit` to `int32_t` truncates towards zero. -/
def truncate (q : ℚ) : ℤ := q.num.tdiv q.den

def toInt (v : FVector3) : IVector3 := v.map truncate

section

variable [Zero α] [LT α] [DecidableLT α]

def singular [Add α] [Sub α] (v segment : Vector3 α) : Vector3 α :=
  zipWith (fun a s => if a > 0 then a + s else a - s) v segment

def deSingular [Sub α] (v segment : Vector3 α) : Vector3 α :=
  zipWith (fun a s => if a > 0 then a - s else a) v segment

end

def hasZero [Zero α] [DecidableEq α] (v : Vector3 α) : Bool := v.x = 0 || v.y = 0 || v.z = 0

theorem hasZero_eq_false [Zero α] [DecidableEq α] {v : Vector3 α} :
    v.hasZero = false ↔ ∀ i, v.coord i ≠ 0 := by
  constructor
  · intro h i
    simp only [hasZero, Bool.or_eq_false_iff, decide_eq_false_iff_not] at h
    match i with
    | 0 => exact h.1.1
    | 1 => exact h.1.2
    | 2 => exact h.2
  · intro h
    simp only [hasZero, Bool.or_eq_false_iff, decide_eq_false_iff_not]
    exact ⟨⟨h 0, h 1⟩, h 2⟩

/-- `Vector3(m_chunkSize.x, m_chunkSize.y, m_chunkSize.x)`. -/
def ofChunkSize (size : α × α) : Vector3 α := ⟨size.1, size.2, size.1⟩

end Vector3

/-! ## Truncation -/

namespace Vector3

@[simp] theorem truncate_intCast (n : ℤ) : truncate n = n := by
  rw [truncate, Rat.num_intCast, Rat.den_intCast]
  exact Int.tdiv_one n

theorem truncate_of_nonneg {q : ℚ} (h : 0 ≤ q) : truncate q = ⌊q⌋ := by
  rw [truncate, Int.tdiv_eq_ediv_of_nonneg (Rat.num_nonneg.mpr h), Rat.floor_def']

theorem truncate_of_nonpos {q : ℚ} (h : q ≤ 0) : truncate q = ⌈q⌉ := by
  have hneg := truncate_of_nonneg (neg_nonneg.mpr h)
  rw [truncate, Rat.num_neg_eq_neg_num, Rat.den_neg_eq_den, Int.neg_tdiv, Int.floor_neg] at hneg
  exact neg_injective hneg

end Vector3

end SRCommon
