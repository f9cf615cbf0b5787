import Mathlib.Algebra.Order.Group.Nat
import Mathlib.Data.List.Basic
import Mathlib.Data.List.Induction
import Mathlib.Data.Nat.Find
import Mathlib.Tactic.Common
import Mathlib.Tactic.Ring

/-!
# Left-complete trees over a list

The entries of a list are the leaves of a binary tree, from the left to the
right. The left part of every inner node is full: it has the greatest power of
two of leaves that leaves something for the right part. Values are combined
from the leaves to the root, and the siblings on the way from a leaf to the
root are enough to repeat the combinations above that leaf.
-/

namespace LeftComplete

inductive Side where
  | left
  | right
deriving DecidableEq, Repr

/-- What is combined with a value, and from which side it joins. -/
structure Sibling (α : Type*) where
  value : α
  side : Side
deriving DecidableEq

section

variable {α : Type*} (combine : α → α → α)

/-- The value of a tree with at most `2 ^ h` leaves. -/
def foldAt : ℕ → List α → Option α
  | 0, l => l.head?
  | h + 1, l =>
      if l.length ≤ 2 ^ h then foldAt h l
      else (foldAt h (l.take (2 ^ h))).bind fun left =>
        (foldAt h (l.drop (2 ^ h))).map fun right => combine left right

def fold (l : List α) : Option α := foldAt combine l.length l

/-- The siblings of the nodes above a leaf, the lowest one first. -/
def pathAt : ℕ → List α → ℕ → Option (List (Sibling α))
  | 0, _, _ => some []
  | h + 1, l, i =>
      if l.length ≤ 2 ^ h then pathAt h l i
      else if i < 2 ^ h then
        (pathAt h (l.take (2 ^ h)) i).bind fun siblings =>
          (foldAt combine h (l.drop (2 ^ h))).map fun value => siblings ++ [⟨value, .right⟩]
      else
        (pathAt h (l.drop (2 ^ h)) (i - 2 ^ h)).bind fun siblings =>
          (foldAt combine h (l.take (2 ^ h))).map fun value => siblings ++ [⟨value, .left⟩]

def path (l : List α) (i : ℕ) : Option (List (Sibling α)) := pathAt combine l.length l i

def join (value : α) (s : Sibling α) : α :=
  match s.side with
  | .left => combine s.value value
  | .right => combine value s.value

/-- A value is combined with its siblings one after the other. -/
def climb (value : α) (siblings : List (Sibling α)) : α := siblings.foldl (join combine) value

/-- Two pairs of values are combined to the same one. -/
def Collision : Prop := ∃ a b c d, (a, b) ≠ (c, d) ∧ combine a b = combine c d

end

/-! ## Induction over the tree -/

section

variable {α : Type*}

/-- A list of two or more entries is cut behind the leaves of its left part. -/
theorem exists_cut {l : List α} (h : 2 ≤ l.length) :
    ∃ k l₁ l₂, l = l₁ ++ l₂ ∧ l₁.length = 2 ^ k ∧ 0 < l₂.length ∧ l₂.length ≤ 2 ^ k := by
  obtain ⟨k, hlow, hhigh⟩ : ∃ k, 2 ^ k < l.length ∧ l.length ≤ 2 ^ (k + 1) := by
    have hex : ∃ n, l.length ≤ 2 ^ n := ⟨l.length, Nat.lt_two_pow_self.le⟩
    have hmin := Nat.find_spec hex
    cases hn : Nat.find hex with
    | zero =>
        rw [hn, pow_zero] at hmin
        omega
    | succ k =>
        rw [hn] at hmin
        have hk : k < Nat.find hex := by omega
        exact ⟨k, Nat.lt_of_not_le (Nat.find_min hex hk), hmin⟩
  rw [pow_succ] at hhigh
  refine ⟨k, l.take (2 ^ k), l.drop (2 ^ k), (List.take_append_drop _ l).symm, ?_, ?_, ?_⟩
  · rw [List.length_take]
    omega
  · rw [List.length_drop]
    omega
  · rw [List.length_drop]
    omega

theorem cut_induction {P : (l : List α) → l ≠ [] → Prop}
    (single : ∀ a, P [a] (List.cons_ne_nil a []))
    (node : ∀ k l₁ l₂ (h₁ : l₁ ≠ []) (h₂ : l₂ ≠ []), l₁.length = 2 ^ k → l₂.length ≤ 2 ^ k →
      P l₁ h₁ → P l₂ h₂ → P (l₁ ++ l₂) (List.append_ne_nil_of_left_ne_nil h₁ l₂))
    (l : List α) (hl : l ≠ []) : P l hl := by
  induction hn : l.length using Nat.strong_induction_on generalizing l with
  | _ n ih =>
      subst hn
      have hpos : 0 < l.length := List.length_pos_iff.mpr hl
      rcases Nat.lt_or_ge l.length 2 with hone | htwo
      · obtain ⟨a, rfl⟩ := List.length_eq_one_iff.mp (show l.length = 1 by omega)
        exact single a
      · obtain ⟨k, l₁, l₂, rfl, hk, hpos₂, hle⟩ := exists_cut htwo
        have hpos₁ : 0 < l₁.length := hk ▸ Nat.two_pow_pos k
        rw [List.length_append] at ih
        apply node k l₁ l₂ (List.ne_nil_of_length_pos hpos₁) (List.ne_nil_of_length_pos hpos₂) hk
          hle
        · exact ih _ (by omega) l₁ _ rfl
        · exact ih _ (by omega) l₂ _ rfl

end

/-! ## The value of a list -/

section

variable {α : Type*} {combine : α → α → α} {l l₁ l₂ : List α} {h h' k i : ℕ}

theorem foldAt_of_le (hl : l.length ≤ 2 ^ h) (hh : h ≤ h') :
    foldAt combine h' l = foldAt combine h l := by
  induction h', hh using Nat.le_induction with
  | base => rfl
  | succ n hn ih =>
      have hle : l.length ≤ 2 ^ n := hl.trans (Nat.pow_le_pow_right Nat.two_pos hn)
      rw [foldAt, if_pos hle, ih]

theorem fold_eq_foldAt (hl : l.length ≤ 2 ^ h) : fold combine l = foldAt combine h l := by
  rcases Nat.le_total h l.length with hle | hle
  · exact foldAt_of_le hl hle
  · exact (foldAt_of_le Nat.lt_two_pow_self.le hle).symm

@[simp] theorem fold_nil : fold combine ([] : List α) = none := rfl

@[simp] theorem fold_singleton (a : α) : fold combine [a] = some a := by
  rw [fold_eq_foldAt (show [a].length ≤ 2 ^ 0 by simp)]
  rfl

theorem take_left (hk : l₁.length = 2 ^ k) : (l₁ ++ l₂).take (2 ^ k) = l₁ := by
  rw [← hk, List.take_left]

theorem drop_left (hk : l₁.length = 2 ^ k) : (l₁ ++ l₂).drop (2 ^ k) = l₂ := by
  rw [← hk, List.drop_left]

/-- What the definitions ask of a list that is cut. -/
theorem not_length_le (hk : l₁.length = 2 ^ k) (hpos : 0 < l₂.length) :
    ¬ (l₁ ++ l₂).length ≤ 2 ^ k := by
  rw [List.length_append]
  omega

theorem length_append_le (hk : l₁.length = 2 ^ k) (hle : l₂.length ≤ 2 ^ k) :
    (l₁ ++ l₂).length ≤ 2 ^ (k + 1) := by
  rw [List.length_append, pow_succ]
  omega

theorem fold_append (hk : l₁.length = 2 ^ k) (hpos : 0 < l₂.length) (hle : l₂.length ≤ 2 ^ k)
    {left right : α} (hleft : fold combine l₁ = some left)
    (hright : fold combine l₂ = some right) :
    fold combine (l₁ ++ l₂) = some (combine left right) := by
  rw [fold_eq_foldAt hk.le] at hleft
  rw [fold_eq_foldAt hle] at hright
  rw [fold_eq_foldAt (length_append_le hk hle), foldAt, if_neg (not_length_le hk hpos),
    take_left hk, drop_left hk, hleft, hright]
  rfl

theorem exists_fold (combine : α → α → α) (hl : l ≠ []) : ∃ value, fold combine l = some value := by
  induction l, hl using cut_induction with
  | single a => exact ⟨a, fold_singleton a⟩
  | node k l₁ l₂ h₁ h₂ hk hle ih₁ ih₂ =>
      obtain ⟨left, hleft⟩ := ih₁
      obtain ⟨right, hright⟩ := ih₂
      exact ⟨_, fold_append hk (List.length_pos_iff.mpr h₂) hle hleft hright⟩

/-! ## Paths -/

theorem pathAt_of_le (hl : l.length ≤ 2 ^ h) (hh : h ≤ h') :
    pathAt combine h' l i = pathAt combine h l i := by
  induction h', hh using Nat.le_induction with
  | base => rfl
  | succ n hn ih =>
      have hle : l.length ≤ 2 ^ n := hl.trans (Nat.pow_le_pow_right Nat.two_pos hn)
      rw [pathAt, if_pos hle, ih]

theorem path_eq_pathAt (hl : l.length ≤ 2 ^ h) : path combine l i = pathAt combine h l i := by
  rcases Nat.le_total h l.length with hle | hle
  · exact pathAt_of_le hl hle
  · exact (pathAt_of_le Nat.lt_two_pow_self.le hle).symm

@[simp] theorem path_singleton (a : α) : path combine [a] i = some [] := by
  rw [path_eq_pathAt (show [a].length ≤ 2 ^ 0 by simp)]
  rfl

theorem path_append_of_lt (hk : l₁.length = 2 ^ k) (hpos : 0 < l₂.length)
    (hle : l₂.length ≤ 2 ^ k) (hi : i < 2 ^ k) {siblings : List (Sibling α)} {right : α}
    (hpath : path combine l₁ i = some siblings) (hright : fold combine l₂ = some right) :
    path combine (l₁ ++ l₂) i = some (siblings ++ [⟨right, .right⟩]) := by
  rw [path_eq_pathAt hk.le] at hpath
  rw [fold_eq_foldAt hle] at hright
  rw [path_eq_pathAt (length_append_le hk hle), pathAt, if_neg (not_length_le hk hpos),
    if_pos hi, take_left hk, drop_left hk, hpath, hright]
  rfl

theorem path_append_of_le (hk : l₁.length = 2 ^ k) (hpos : 0 < l₂.length)
    (hle : l₂.length ≤ 2 ^ k) (hi : 2 ^ k ≤ i) {siblings : List (Sibling α)} {left : α}
    (hpath : path combine l₂ (i - 2 ^ k) = some siblings)
    (hleft : fold combine l₁ = some left) :
    path combine (l₁ ++ l₂) i = some (siblings ++ [⟨left, .left⟩]) := by
  rw [path_eq_pathAt hle] at hpath
  rw [fold_eq_foldAt hk.le] at hleft
  rw [path_eq_pathAt (length_append_le hk hle), pathAt, if_neg (not_length_le hk hpos),
    if_neg (Nat.not_lt.mpr hi), take_left hk, drop_left hk, hpath, hleft]
  rfl

theorem climb_append_singleton (value : α) (siblings : List (Sibling α)) (s : Sibling α) :
    climb combine value (siblings ++ [s]) = join combine (climb combine value siblings) s := by
  simp [climb]

/-- Every leaf has a path, and the climb along it ends at the value of the list. -/
theorem exists_path (combine : α → α → α) (hl : l ≠ []) {a : α} (ha : l[i]? = some a) :
    ∃ siblings, path combine l i = some siblings ∧
      fold combine l = some (climb combine a siblings) := by
  induction l, hl using cut_induction generalizing i with
  | single b =>
      obtain ⟨hi, rfl⟩ := List.getElem?_eq_some_iff.mp ha
      obtain rfl : i = 0 := by simpa using hi
      exact ⟨[], path_singleton _, fold_singleton _⟩
  | node k l₁ l₂ h₁ h₂ hk hle ih₁ ih₂ =>
      have hpos := List.length_pos_iff.mpr h₂
      obtain ⟨left, hleft⟩ := exists_fold combine h₁
      obtain ⟨right, hright⟩ := exists_fold combine h₂
      rcases Nat.lt_or_ge i (2 ^ k) with hi | hi
      · rw [List.getElem?_append_left (by omega)] at ha
        obtain ⟨siblings, hpath, hfold⟩ := ih₁ ha
        obtain rfl : left = climb combine a siblings := Option.some.inj (hleft.symm.trans hfold)
        refine ⟨_, path_append_of_lt hk hpos hle hi hpath hright, ?_⟩
        rw [climb_append_singleton]
        exact fold_append hk hpos hle hleft hright
      · rw [List.getElem?_append_right (by omega), hk] at ha
        obtain ⟨siblings, hpath, hfold⟩ := ih₂ ha
        obtain rfl : right = climb combine a siblings :=
          Option.some.inj (hright.symm.trans hfold)
        refine ⟨_, path_append_of_le hk hpos hle hi hpath hleft, ?_⟩
        rw [climb_append_singleton]
        exact fold_append hk hpos hle hleft hright

theorem take_of_lt (hk : l₁.length = 2 ^ k) (hi : i < 2 ^ k) :
    (l₁ ++ l₂).take (i + 1) = l₁.take (i + 1) := by
  rw [List.take_append_of_le_length]
  omega

theorem take_of_le (hk : l₁.length = 2 ^ k) (hi : 2 ^ k ≤ i) :
    (l₁ ++ l₂).take (i + 1) = l₁ ++ l₂.take (i - 2 ^ k + 1) := by
  have hlater : i + 1 - l₁.length = i - 2 ^ k + 1 := by omega
  rw [List.take_append, List.take_of_length_le (show l₁.length ≤ i + 1 by omega), hlater]

theorem length_take_le (hle : l₂.length ≤ 2 ^ k) (j : ℕ) : (l₂.take j).length ≤ 2 ^ k := by
  rw [List.length_take]
  omega

theorem getElem?_of_lt (hk : l₁.length = 2 ^ k) (hi : i < 2 ^ k) :
    (l₁ ++ l₂)[i]? = l₁[i]? := by
  rw [List.getElem?_append_left]
  omega

theorem getElem?_of_le (hk : l₁.length = 2 ^ k) (hi : 2 ^ k ≤ i) :
    (l₁ ++ l₂)[i]? = l₂[i - 2 ^ k]? := by
  rw [List.getElem?_append_right, hk]
  omega

/-- The siblings that come before a leaf. -/
def earlier (siblings : List (Sibling α)) : List (Sibling α) :=
  siblings.filter fun s => s.side = .left

/-- The siblings before a leaf are all that lies before it, whatever comes behind it. -/
theorem fold_take (hl : l ≠ []) {a : α} (ha : l[i]? = some a) {siblings : List (Sibling α)}
    (hpath : path combine l i = some siblings) :
    fold combine (l.take (i + 1)) = some (climb combine a (earlier siblings)) := by
  induction l, hl using cut_induction generalizing i siblings with
  | single b =>
      obtain ⟨hi, rfl⟩ := List.getElem?_eq_some_iff.mp ha
      obtain rfl : i = 0 := by simpa using hi
      rw [path_singleton] at hpath
      cases hpath
      exact fold_singleton _
  | node k l₁ l₂ h₁ h₂ hk hle ih₁ ih₂ =>
      have hpos := List.length_pos_iff.mpr h₂
      obtain ⟨left, hleft⟩ := exists_fold combine h₁
      obtain ⟨right, hright⟩ := exists_fold combine h₂
      rcases Nat.lt_or_ge i (2 ^ k) with hi | hi
      · rw [getElem?_of_lt hk hi] at ha
        obtain ⟨s, hs, -⟩ := exists_path combine h₁ ha
        rw [path_append_of_lt hk hpos hle hi hs hright] at hpath
        cases hpath
        rw [take_of_lt hk hi, ih₁ ha hs]
        simp [earlier]
      · rw [getElem?_of_le hk hi] at ha
        obtain ⟨s, hs, -⟩ := exists_path combine h₂ ha
        rw [path_append_of_le hk hpos hle hi hs hleft] at hpath
        cases hpath
        have hpos' : 0 < (l₂.take (i - 2 ^ k + 1)).length := by
          rw [List.length_take]
          omega
        rw [take_of_le hk hi, fold_append hk hpos' (length_take_le hle _) hleft (ih₂ ha hs)]
        simp [earlier, climb, join]

/-- The values of the full blocks before a leaf, the smallest one first: the number that is left of
the index above a height has a block for each of its binary digits. -/
inductive Blocks (combine : α → α → α) (l : List α) : ℕ → ℕ → List α → Prop
  | zero (h : ℕ) : Blocks combine l h 0 []
  | even {h it : ℕ} {values : List α} (hpos : 0 < it)
      (hrest : Blocks combine l (h + 1) it values) : Blocks combine l h (2 * it) values
  | odd {h it : ℕ} {value : α} {values : List α}
      (hvalue : fold combine ((l.drop (2 * it * 2 ^ h)).take (2 ^ h)) = some value)
      (hrest : Blocks combine l (h + 1) it values) :
      Blocks combine l h (2 * it + 1) (value :: values)

/-- Only what comes before the leaf matters. -/
theorem Blocks.of_take {l' : List α} {m it : ℕ} {values : List α}
    (hblocks : Blocks combine l h it values) (htake : l.take m = l'.take m)
    (hle : it * 2 ^ h ≤ m) : Blocks combine l' h it values := by
  induction hblocks with
  | zero h => exact .zero h
  | @even h it values hpos hrest ih =>
      have hpow : it * 2 ^ (h + 1) = 2 * it * 2 ^ h := by ring
      exact .even hpos (ih (hpow.trans_le hle))
  | @odd h it value values hvalue hrest ih =>
      have hpow : it * 2 ^ (h + 1) = 2 * it * 2 ^ h := by ring
      rw [Nat.add_one_mul] at hle
      have hblock : ∀ l : List α, (l.drop (2 * it * 2 ^ h)).take (2 ^ h) =
          ((l.take m).drop (2 * it * 2 ^ h)).take (2 ^ h) := by
        intro l
        rw [List.drop_take, List.take_take, Nat.min_eq_left (Nat.le_sub_of_add_le' hle)]
      refine .odd ?_ (ih (hpow.trans_le ((Nat.le_add_right _ _).trans hle)))
      rwa [hblock, ← htake, ← hblock]

theorem blocks_power {left : α} (hleft : fold combine l₁ = some left) (l₂ : List α) (j : ℕ)
    (hk : l₁.length = 2 ^ (h + j)) : Blocks combine (l₁ ++ l₂) h (2 ^ j) [left] := by
  induction j generalizing h with
  | zero =>
      rw [Nat.add_zero] at hk
      have hone : Blocks combine (l₁ ++ l₂) h (2 * 0 + 1) [left] := by
        refine .odd ?_ (.zero _)
        rwa [Nat.mul_zero, Nat.zero_mul, List.drop_zero, take_left hk]
      exact hone
  | succ j ih =>
      rw [Nat.pow_succ']
      refine .even (Nat.two_pow_pos j) (ih ?_)
      rw [hk, Nat.add_right_comm, Nat.add_assoc]

/-- The left part is one more block. -/
theorem Blocks.append_left {it j : ℕ} {values : List α} {left : α}
    (hblocks : Blocks combine l₂ h it values) (hlt : it < 2 ^ j) (hk : l₁.length = 2 ^ (h + j))
    (hleft : fold combine l₁ = some left) :
    Blocks combine (l₁ ++ l₂) h (it + 2 ^ j) (values ++ [left]) := by
  induction hblocks generalizing j with
  | zero h =>
      rw [Nat.zero_add]
      exact blocks_power hleft l₂ j hk
  | @even h it values hpos hrest ih =>
      cases j with
      | zero => omega
      | succ j =>
          rw [Nat.pow_succ'] at hlt ⊢
          rw [← Nat.mul_add]
          refine .even (Nat.add_pos_left hpos _) (ih (by omega) ?_)
          rw [hk, Nat.add_right_comm, Nat.add_assoc]
  | @odd h it value values hvalue hrest ih =>
      cases j with
      | zero => omega
      | succ j =>
          have hoffset : 2 * (it + 2 ^ j) * 2 ^ h = l₁.length + 2 * it * 2 ^ h := by
            rw [hk]
            ring
          rw [Nat.pow_succ'] at hlt ⊢
          rw [Nat.add_right_comm, ← Nat.mul_add]
          refine .odd ?_ (ih (by omega) ?_)
          · rwa [hoffset, List.drop_length_add_append]
          · rw [hk, Nat.add_right_comm, Nat.add_assoc]

/-- What comes from the left on the way up from a leaf are the blocks before it. -/
theorem blocks_earlier (hl : l ≠ []) (hi : i < l.length) {siblings : List (Sibling α)}
    (hpath : path combine l i = some siblings) :
    Blocks combine l 0 i ((earlier siblings).map Sibling.value) := by
  induction l, hl using cut_induction generalizing i siblings with
  | single b =>
      obtain rfl : i = 0 := by simpa using hi
      rw [path_singleton] at hpath
      cases hpath
      exact .zero 0
  | node k l₁ l₂ h₁ h₂ hk hle ih₁ ih₂ =>
      have hpos := List.length_pos_iff.mpr h₂
      rw [List.length_append] at hi
      obtain ⟨left, hleft⟩ := exists_fold combine h₁
      obtain ⟨right, hright⟩ := exists_fold combine h₂
      rcases Nat.lt_or_ge i (2 ^ k) with hlt | hge
      · have hi₁ : i < l₁.length := hk ▸ hlt
        obtain ⟨s, hs, -⟩ := exists_path combine h₁ (List.getElem?_eq_getElem hi₁)
        rw [path_append_of_lt hk hpos hle hlt hs hright] at hpath
        cases hpath
        have hblocks : Blocks combine (l₁ ++ l₂) 0 i _ :=
          (ih₁ hi₁ hs).of_take (m := l₁.length) (by simp) (by omega)
        simpa [earlier] using hblocks
      · have hi₂ : i - 2 ^ k < l₂.length := by omega
        obtain ⟨s, hs, -⟩ := exists_path combine h₂ (List.getElem?_eq_getElem hi₂)
        rw [path_append_of_le hk hpos hle hge hs hleft] at hpath
        cases hpath
        have hblocks := (ih₂ hi₂ hs).append_left (j := k) (by omega) (by rwa [Nat.zero_add]) hleft
        rw [Nat.sub_add_cancel hge] at hblocks
        simpa [earlier] using hblocks

/-- Two climbs from the same sides that meet have taken the same way, or a collision lies on
it. -/
theorem eq_or_collision {a b : α} {p q : List (Sibling α)}
    (hsides : p.map Sibling.side = q.map Sibling.side)
    (h : climb combine a p = climb combine b q) : (a = b ∧ p = q) ∨ Collision combine := by
  induction p using List.reverseRecOn generalizing q with
  | nil =>
      obtain rfl : q = [] := by simpa using hsides.symm
      exact .inl ⟨h, rfl⟩
  | append_singleton p s ih =>
      rcases List.eq_nil_or_concat' q with rfl | ⟨q, t, rfl⟩
      · simp at hsides
      · rw [List.map_append, List.map_append] at hsides
        obtain ⟨hsides, hside⟩ := List.append_inj' hsides rfl
        have hside : s.side = t.side := by simpa using hside
        rw [climb_append_singleton, climb_append_singleton] at h
        by_cases hsame : climb combine a p = climb combine b q ∧ s.value = t.value
        · refine (ih hsides hsame.1).imp_left fun hpq => ⟨hpq.1, ?_⟩
          obtain rfl : s = t := by
            cases s
            cases t
            simp_all
          rw [hpq.2]
        · right
          simp only [join, hside] at h
          cases ht : t.side with
          | left =>
              rw [ht] at h
              refine ⟨_, _, _, _, fun heq => hsame ?_, h⟩
              exact ⟨(Prod.mk.inj heq).2, (Prod.mk.inj heq).1⟩
          | right =>
              rw [ht] at h
              refine ⟨_, _, _, _, fun heq => hsame ?_, h⟩
              exact ⟨(Prod.mk.inj heq).1, (Prod.mk.inj heq).2⟩

end

end LeftComplete
