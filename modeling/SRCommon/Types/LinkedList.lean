import Mathlib.Algebra.Group.Nat.Defs
import Mathlib.Data.List.Basic
import Mathlib.Data.List.InsertIdx
import Mathlib.Data.List.Rotate
import Mathlib.Tactic.Common
import SRCommon.Lib.PartialRun

/-!
# LinkedList

A chain of nodes and a separate length. Removing from the empty list lowers
the length all the same, and `Sort` takes a comparator with an unsigned result,
for which less is greater as well.
-/

namespace SRCommon

/-- What a comparator returns, -1, 0 or 1, as the `uint32_t` that it is declared with. -/
def compareResult : Ordering → UInt32
  | .lt => -1
  | .eq => 0
  | .gt => 1

/-- The data of the nodes, from the head on. -/
structure LinkedList (T : Type) where
  head : List T := []
  length : UInt64 := 0

inductive LinkedListCall (T : Type) where
  | insert (index : UInt64) (data : T)
  | remove (index : UInt64)

namespace LinkedList

variable {T : Type}

/-- The chain that is so many nodes further on. The null pointer has no next node. -/
def follow : ℕ → List T → Option (List T)
  | 0, chain => some chain
  | _ + 1, [] => none
  | count + 1, _ :: next => follow count next

/-- The chain from a node on, empty for the null pointer. -/
def iterate (l : LinkedList T) (index : UInt64) : Option (List T) :=
  if l.length ≤ index then some [] else follow index.toNat l.head

def retrieve (l : LinkedList T) (index : UInt64) : Option (Option T) :=
  (l.iterate index).map List.head?

/-- The chain with another `pNext` in the node that is so many nodes further on. -/
def changeNext (change : List T → Option (List T)) : ℕ → List T → Option (List T)
  | _, [] => none
  | 0, data :: next => (change next).map (data :: ·)
  | count + 1, data :: next => (changeNext change count next).map (data :: ·)

/-- The same in the node that `Iterate` finds. -/
def changeBehind (l : LinkedList T) (index : UInt64) (change : List T → Option (List T)) :
    Option (List T) :=
  if l.length ≤ index then none else changeNext change index.toNat l.head

def insert (l : LinkedList T) (index : UInt64) (data : T) : Option (LinkedList T) :=
  (if index = 0 then some (data :: l.head)
    else l.changeBehind (index - 1) fun next => some (data :: next)).map fun head =>
      { head := head, length := l.length + 1 }

/-- The length is lowered also when there is no node to remove. -/
def remove (l : LinkedList T) (index : UInt64) : Option (LinkedList T) :=
  (if index = 0 then some l.head.tail
    else l.changeBehind (index - 1) fun next => next.tail?).map fun head =>
      { head := head, length := l.length - 1 }

def call (l : LinkedList T) : LinkedListCall T → Option (LinkedList T)
  | .insert index data => l.insert index data
  | .remove index => l.remove index

/-- The inner loop of `Sort`, for a cursor and the nodes from it on. -/
def sortPass (comparator : T → T → UInt32) : ℕ → List T → Option (List T)
  | 0, chain => some chain
  | rounds + 1, a :: b :: next =>
      if comparator a b > 0 then (sortPass comparator rounds (a :: next)).map (b :: ·)
      else (sortPass comparator rounds (b :: next)).map (a :: ·)
  | _ + 1, _ => none

/-- The outer loop. -/
def sortPasses (comparator : T → T → UInt32) (rounds : ℕ) : ℕ → List T → Option (List T)
  | 0, chain => some chain
  | passes + 1, chain =>
      (sortPass comparator rounds chain).bind (sortPasses comparator rounds passes)

def sort (l : LinkedList T) (comparator : T → T → UInt32) : Option (LinkedList T) :=
  (sortPasses comparator (l.length - 1).toNat l.length.toNat l.head).map fun head =>
    { l with head := head }

/-! ## The reference list -/

def reference (elements : List T) : LinkedListCall T → List T
  | .insert index data => elements.insertIdx index.toNat data
  | .remove index => elements.eraseIdx index.toNat

/-- The list and the reference list take the same call. -/
def step (s : LinkedList T × List T) (c : LinkedListCall T) :
    Option ((LinkedList T × List T) × Unit) :=
  (s.1.call c).map fun l => ((l, reference s.2 c), ())

structure Matches (l : LinkedList T) (elements : List T) : Prop where
  length : l.length.toNat = l.head.length
  retrieve : ∀ index, l.retrieve index = some elements[index.toNat]?

/-- An index to insert at is not past the length. -/
def InsertsInside (s : LinkedList T × List T) : LinkedListCall T → Prop
  | .insert index _ => index.toNat ≤ s.2.length
  | .remove _ => True

/-- There is a node to remove, and the length has room for one more. -/
def Fits (s : LinkedList T × List T) : LinkedListCall T → Prop
  | .insert _ _ => s.2.length + 1 < 2 ^ 64
  | .remove index => index.toNat < s.2.length

instance decidableInsertsInside (s : LinkedList T × List T) :
    ∀ c, Decidable (InsertsInside s c)
  | .insert index _ => inferInstanceAs (Decidable (index.toNat ≤ s.2.length))
  | .remove _ => .isTrue trivial

instance decidableFits (s : LinkedList T × List T) : ∀ c, Decidable (Fits s c)
  | .insert _ _ => inferInstanceAs (Decidable (s.2.length + 1 < 2 ^ 64))
  | .remove index => inferInstanceAs (Decidable (index.toNat < s.2.length))

/-- The chain is the reference list and the length that of the chain. -/
structure Holds (l : LinkedList T) (elements : List T) : Prop where
  head : l.head = elements
  length : l.length.toNat = elements.length

variable {l : LinkedList T} {elements : List T} {index : UInt64} {data : T}

theorem follow_eq {count : ℕ} {chain : List T} (h : count ≤ chain.length) :
    follow count chain = some (chain.drop count) := by
  induction count generalizing chain with
  | zero => rfl
  | succ count ih =>
      cases chain with
      | nil => cases h
      | cons data next => exact ih (Nat.le_of_succ_le_succ h)

theorem changeNext_eq (change : List T → Option (List T)) {count : ℕ} {chain : List T}
    (h : count < chain.length) : changeNext change count chain =
      (change (chain.drop (count + 1))).map (chain.take (count + 1) ++ ·) := by
  induction count generalizing chain with
  | zero =>
      cases chain with
      | nil => cases h
      | cons data next => rfl
  | succ count ih =>
      cases chain with
      | nil => cases h
      | cons data next =>
          rw [changeNext, ih (Nat.lt_of_succ_lt_succ h), Option.map_map]
          rfl

theorem insertIdx_eq_append {i : ℕ} (h : i ≤ elements.length) :
    elements.insertIdx i data = elements.take i ++ data :: elements.drop i := by
  induction elements generalizing i with
  | nil =>
      have hi : i = 0 := Nat.le_zero.mp h
      subst hi
      rfl
  | cons a elements ih =>
      cases i with
      | zero => rfl
      | succ i => exact congrArg (a :: ·) (ih (Nat.le_of_succ_le_succ h))

namespace Holds

theorem toMatches (h : Holds l elements) : Matches l elements := by
  refine ⟨by rw [h.head, h.length], fun index => ?_⟩
  rw [retrieve, iterate]
  by_cases hindex : l.length ≤ index
  · rw [UInt64.le_iff_toNat_le, h.length] at hindex
    rw [if_pos (UInt64.le_iff_toNat_le.mpr (h.length ▸ hindex)), List.getElem?_eq_none hindex]
    rfl
  · rw [if_neg hindex, follow_eq]
    · simp [h.head, List.head?_drop]
    · rw [UInt64.le_iff_toNat_le, h.length] at hindex
      rw [h.head]
      omega

/-- What stands behind the node before an index. -/
theorem changeBehind_eq (h : Holds l elements) (hindex : index ≠ 0)
    (change : List T → Option (List T)) : l.changeBehind (index - 1) change =
      if index.toNat ≤ elements.length then
        (change (elements.drop index.toNat)).map (elements.take index.toNat ++ ·)
      else none := by
  have hpred : (index - 1).toNat + 1 = index.toNat := by
    have hne : index.toNat ≠ 0 := fun hzero => hindex (UInt64.toNat_inj.mp hzero)
    have hlt := index.toNat_lt
    rw [UInt64.toNat_sub, UInt64.toNat_one]
    omega
  by_cases hle : index.toNat ≤ elements.length
  · have hlt : ¬ l.length ≤ index - 1 := by
      rw [UInt64.le_iff_toNat_le, h.length]
      omega
    have hnode : (index - 1).toNat < l.head.length := by
      rw [h.head]
      omega
    rw [changeBehind, if_neg hlt, if_pos hle, changeNext_eq change hnode, h.head, hpred]
  · have hge : l.length ≤ index - 1 := by
      rw [UInt64.le_iff_toNat_le, h.length]
      omega
    rw [changeBehind, if_pos hge, if_neg hle]

theorem insert_eq (h : Holds l elements) (hindex : index.toNat ≤ elements.length) (data : T) :
    l.insert index data =
      some { head := elements.insertIdx index.toNat data, length := l.length + 1 } := by
  by_cases hzero : index = 0
  · subst hzero
    rw [LinkedList.insert, if_pos rfl, h.head]
    rfl
  · rw [LinkedList.insert, if_neg hzero, h.changeBehind_eq hzero, if_pos hindex,
      insertIdx_eq_append hindex]
    rfl

theorem remove_eq (h : Holds l elements) (hindex : index.toNat < elements.length) :
    l.remove index =
      some { head := elements.eraseIdx index.toNat, length := l.length - 1 } := by
  by_cases hzero : index = 0
  · subst hzero
    rw [LinkedList.remove, if_pos rfl, h.head, UInt64.toNat_zero, List.eraseIdx_zero]
    rfl
  · rw [LinkedList.remove, if_neg hzero, h.changeBehind_eq hzero, if_pos (Nat.le_of_lt hindex),
      List.drop_eq_getElem_cons hindex, List.eraseIdx_eq_take_drop_succ]
    rfl

/-- There is no such node. -/
theorem remove_eq_of_le (h : Holds l elements) (hindex : elements.length ≤ index.toNat) :
    l.remove index = if index = 0 then some { head := [], length := l.length - 1 } else none := by
  by_cases hzero : index = 0
  · subst hzero
    have hnil : elements = [] := List.length_eq_zero_iff.mp (Nat.le_zero.mp hindex)
    rw [LinkedList.remove, if_pos rfl, if_pos rfl, h.head, hnil]
    rfl
  · rw [LinkedList.remove, if_neg hzero, if_neg hzero, h.changeBehind_eq hzero,
      List.drop_eq_nil_of_le hindex]
    split <;> rfl

theorem call_of_fits (h : Holds l elements) {c : LinkedListCall T}
    (hinside : InsertsInside (l, elements) c) (hfits : Fits (l, elements) c) :
    ∃ l', l.call c = some l' ∧ Holds l' (reference elements c) := by
  cases c with
  | insert index data =>
      have hindex : index.toNat ≤ elements.length := hinside
      have hlt : elements.length + 1 < 2 ^ 64 := hfits
      refine ⟨_, h.insert_eq hindex data, rfl, ?_⟩
      rw [reference, List.length_insertIdx_of_le_length hindex, UInt64.toNat_add, h.length,
        UInt64.toNat_one]
      omega
  | remove index =>
      refine ⟨_, h.remove_eq hfits, rfl, ?_⟩
      have hlt : index.toNat < elements.length := hfits
      have hlength := h.length
      have hsize := l.length.toNat_lt
      rw [reference, List.length_eraseIdx_of_lt hlt, UInt64.toNat_sub, UInt64.toNat_one]
      omega

theorem fits_of_call (h : Holds l elements) {c : LinkedListCall T}
    (hinside : InsertsInside (l, elements) c) {l' : LinkedList T} (hl' : l.call c = some l')
    (hmatches : Matches l' (reference elements c)) : Fits (l, elements) c := by
  have hsize := l.length.toNat_lt
  have hlength := h.length
  have hcount := hmatches.length
  cases c with
  | insert index data =>
      have hindex : index.toNat ≤ elements.length := hinside
      rw [call, h.insert_eq hindex data] at hl'
      cases hl'
      dsimp only at hcount
      rw [List.length_insertIdx_of_le_length hindex, UInt64.toNat_add, UInt64.toNat_one] at hcount
      change elements.length + 1 < 2 ^ 64
      omega
  | remove index =>
      change index.toNat < elements.length
      by_contra hge
      rw [call, h.remove_eq_of_le (Nat.le_of_not_lt hge)] at hl'
      split at hl'
      · next hzero =>
          subst hzero
          cases hl'
          dsimp only at hcount
          rw [UInt64.toNat_sub, UInt64.toNat_one, List.length_nil] at hcount
          simp at hge
          simp [hge] at hlength
          omega
      · cases hl'

end Holds

theorem holds_empty : Holds ({} : LinkedList T) [] := ⟨rfl, rfl⟩

theorem holds_of_step {s : LinkedList T × List T} {c : LinkedListCall T}
    {r : (LinkedList T × List T) × Unit} (h : Holds s.1 s.2) (hinside : InsertsInside s c)
    (hfits : Fits s c) (hr : step s c = some r) : Holds r.1.1 r.1.2 := by
  obtain ⟨l', hl', rfl⟩ := Option.map_eq_some_iff.mp hr
  obtain ⟨l'', hl'', hholds⟩ := h.call_of_fits hinside hfits
  cases hl'.symm.trans hl''
  exact hholds

theorem holds_of_run {calls : List (LinkedListCall T)} {s : LinkedList T × List T}
    {r : (LinkedList T × List T) × List Unit} (h : Holds s.1 s.2)
    (hinside : Steps.Along step InsertsInside s calls) (hfits : Steps.Along step Fits s calls)
    (hr : Steps.run step s calls = some r) : Holds r.1.1 r.1.2 := by
  have hboth := hinside.and hfits
  exact hboth.invariant (I := fun s => Holds s.1 s.2)
    (fun _ _ _ hs hC hq => holds_of_step hs hC.1 hC.2 hq) h hr

/-- No call goes wrong and the list answers like the reference list, as long as there are nodes
to remove. -/
theorem matches_runs_iff {calls : List (LinkedListCall T)}
    (hinside : Steps.Along step InsertsInside ({}, []) calls) :
    Steps.Always step (fun _ _ s' => Matches s'.1 s'.2) ({}, []) calls ↔
      Steps.Along step Fits ({}, []) calls := by
  refine Steps.always_iff_along (I := fun s => Holds s.1 s.2) ?_
    (fun _ _ _ hs hinside hfits hr => holds_of_step hs hinside hfits hr) holds_empty hinside
  rintro ⟨l, elements⟩ c h hinside
  constructor
  · rintro ⟨r, hr, hmatches⟩
    obtain ⟨l', hl', rfl⟩ := Option.map_eq_some_iff.mp hr
    exact h.fits_of_call hinside hl' hmatches
  · intro hfits
    obtain ⟨l', hl', hholds⟩ := h.call_of_fits hinside hfits
    exact ⟨_, Option.map_eq_some_iff.mpr ⟨l', hl', rfl⟩, hholds.toMatches⟩

/-! ## Sort

For a comparator of a total preorder a pass carries the first element past all
that are not equal to it, to the end. What it meets of its kind takes its place,
so that the kinds of the elements are rotated by one. As many passes as there
are elements rotate them all the way round.
-/

section

variable {cmp : T → T → Ordering} {xs : List T}

/-- -1 is the greatest `uint32_t`. -/
theorem compareResult_pos_iff {o : Ordering} : compareResult o > 0 ↔ o ≠ .eq := by
  cases o <;> decide

variable [Std.TransCmp cmp]

/-- Equal elements compare alike with all others. -/
theorem cmp_eq_of_eq {a b : T} (h : cmp a b = .eq) : cmp a = cmp b :=
  funext fun _ => Std.TransCmp.congr_left h

/-- One element is not greater than another one when it is not greater than what that one is not
greater than. -/
theorem isLE_iff {a b : T} :
    (cmp a b).isLE ↔ ∀ c, (cmp b c).isLE → (cmp a c).isLE := by
  constructor
  · intro h c hc
    exact Std.TransCmp.isLE_trans h hc
  · intro h
    apply h b
    have hself : cmp b b = .eq := Std.ReflCmp.compare_self
    rw [hself]
    rfl

/-- Whether elements are in order depends only on how they compare. -/
theorem pairwise_congr {ys : List T} (h : xs.map cmp = ys.map cmp) :
    (xs.Pairwise fun a b => (cmp a b).isLE) ↔ ys.Pairwise fun a b => (cmp a b).isLE := by
  have hmap (zs : List T) : (zs.Pairwise fun a b => (cmp a b).isLE) ↔
      (zs.map cmp).Pairwise fun f g => ∀ c, (g c).isLE → (f c).isLE := by
    rw [List.pairwise_map]
    exact List.Pairwise.iff fun _ _ => isLE_iff
  rw [hmap, hmap, h]

variable (cmp)

theorem exists_sortPass (x : T) (xs : List T) :
    ∃ ys, sortPass (fun a b => compareResult (cmp a b)) xs.length (x :: xs) = some ys ∧
      ys.Perm (x :: xs) ∧ ys.map cmp = ((x :: xs).map cmp).rotate 1 := by
  induction xs generalizing x with
  | nil => exact ⟨[x], rfl, List.Perm.refl _, by simp⟩
  | cons y xs ih =>
      by_cases h : cmp x y = .eq
      · obtain ⟨ys, hys, hperm, hmap⟩ := ih y
        refine ⟨x :: ys, ?_, hperm.cons x, ?_⟩
        · have hpos : ¬ compareResult (cmp x y) > 0 := fun hpos => compareResult_pos_iff.mp hpos h
          rw [List.length_cons, sortPass, if_neg hpos, hys]
          rfl
        · rw [List.map_cons, hmap]
          simp [cmp_eq_of_eq h]
      · obtain ⟨ys, hys, hperm, hmap⟩ := ih x
        refine ⟨y :: ys, ?_, (hperm.cons y).trans (List.Perm.swap x y xs), ?_⟩
        · rw [List.length_cons, sortPass, if_pos (compareResult_pos_iff.mpr h), hys]
          rfl
        · rw [List.map_cons, hmap]
          simp

theorem exists_sortPasses (passes : ℕ) (hne : xs ≠ []) :
    ∃ ys, sortPasses (fun a b => compareResult (cmp a b)) (xs.length - 1) passes xs = some ys ∧
      ys.Perm xs ∧ ys.map cmp = (xs.map cmp).rotate passes := by
  induction passes generalizing xs with
  | zero => exact ⟨xs, rfl, List.Perm.refl _, (List.rotate_zero _).symm⟩
  | succ passes ih =>
      obtain ⟨x, xs, rfl⟩ := List.exists_cons_of_ne_nil hne
      obtain ⟨ys, hys, hperm, hmap⟩ := exists_sortPass cmp x xs
      have hlength : xs.length = ys.length - 1 := by
        rw [hperm.length_eq, List.length_cons, Nat.add_sub_cancel]
      have hys' : ys ≠ [] := by
        rintro rfl
        exact absurd hperm.length_eq (by simp)
      obtain ⟨zs, hzs, hperm', hmap'⟩ := ih hys'
      refine ⟨zs, ?_, hperm'.trans hperm, ?_⟩
      · rw [sortPasses, List.length_cons, Nat.add_sub_cancel, hys, Option.bind_some, hlength]
        exact hzs
      · rw [hmap', hmap, List.rotate_rotate, Nat.add_comm]

/-- Every place has an element equal to the one before. -/
theorem exists_sort (h : Holds l elements) :
    ∃ l', l.sort (fun a b => compareResult (cmp a b)) = some l' ∧ l'.length = l.length ∧
      l'.head.Perm elements ∧ l'.head.map cmp = elements.map cmp := by
  cases helements : elements with
  | nil =>
      subst helements
      have hlength : l.length.toNat = 0 := h.length
      refine ⟨l, ?_, rfl, ?_, ?_⟩
      · rw [sort, hlength]
        rfl
      · rw [h.head]
      · rw [h.head]
  | cons x xs =>
      have hne : elements ≠ [] := helements ▸ List.cons_ne_nil x xs
      obtain ⟨ys, hys, hperm, hmap⟩ := exists_sortPasses cmp elements.length hne
      have hpred : (l.length - 1).toNat = elements.length - 1 := by
        have hlength := h.length
        have hsize := l.length.toNat_lt
        have hpos := List.length_pos_iff.mpr hne
        rw [UInt64.toNat_sub, UInt64.toNat_one]
        omega
      rw [← List.length_map cmp, List.rotate_length] at hmap
      refine ⟨{ l with head := ys }, ?_, rfl, helements ▸ hperm, helements ▸ hmap⟩
      rw [sort, hpred, h.length, h.head, hys]
      rfl

/-- `Sort` comes to an end with the same elements in order. -/
def Sorts (cmp : T → T → Ordering) (l : LinkedList T) : Prop :=
  ∃ l', l.sort (fun a b => compareResult (cmp a b)) = some l' ∧ l'.length = l.length ∧
    l'.head.Perm l.head ∧ l'.head.Pairwise fun a b => (cmp a b).isLE

theorem sorts_iff (h : Holds l elements) :
    Sorts cmp l ↔ elements.Pairwise fun a b => (cmp a b).isLE := by
  obtain ⟨l', hl', hlength, hperm, hmap⟩ := exists_sort cmp h
  rw [← pairwise_congr hmap]
  constructor
  · rintro ⟨l'', hl'', -, -, hsorted⟩
    cases hl'.symm.trans hl''
    exact hsorted
  · intro hsorted
    exact ⟨l', hl', hlength, h.head ▸ hperm, hsorted⟩

end

theorem list_and_sort_iff (calls : List (LinkedListCall T))
    (hinside : Steps.Along step InsertsInside ({}, []) calls) :
    (Steps.Always step (fun _ _ s' => Matches s'.1 s'.2) ({}, []) calls ↔
      Steps.Along step Fits ({}, []) calls) ∧
    ∀ r, Steps.Along step Fits ({}, []) calls → Steps.run step ({}, []) calls = some r →
      ∀ (cmp : T → T → Ordering) [Std.TransCmp cmp],
        Sorts cmp r.1.1 ↔ r.1.2.Pairwise fun a b => (cmp a b).isLE := by
  refine ⟨matches_runs_iff hinside, fun r hfits hr cmp _ => ?_⟩
  exact sorts_iff cmp (holds_of_run holds_empty hinside hfits hr)

/-- A list in order, to which `Sort` does nothing. -/
theorem list_and_sort_ordered :
    let calls : List (LinkedListCall ℕ) := [.insert 0 7, .insert 1 9, .insert 2 8, .remove 2]
    Steps.Always step (fun _ _ s' => Matches s'.1 s'.2) ({}, []) calls ∧
      Sorts compare ({ head := [7, 9], length := 2 } : LinkedList ℕ) := by
  intro calls
  have hinside : Steps.Along step InsertsInside ({}, []) calls := by decide
  have hfits : Steps.Along step Fits ({}, []) calls := by decide
  obtain ⟨hmatches, hsorts⟩ := list_and_sort_iff calls hinside
  exact ⟨hmatches.mpr hfits, (hsorts _ hfits rfl compare).mpr (by decide)⟩

/-- The length of the empty list is lowered, a node behind the end is read, and -1 swaps. -/
theorem not_list_not_sorts :
    (({} : LinkedList ℕ).remove 0 = some { head := [], length := 0xFFFFFFFFFFFFFFFF } ∧
      ¬ Matches ({ head := [], length := 0xFFFFFFFFFFFFFFFF } : LinkedList ℕ) []) ∧
    ({ head := [7], length := 1 } : LinkedList ℕ).remove 1 = none ∧
    ¬ Sorts compare ({ head := [2, 1], length := 2 } : LinkedList ℕ) := by
  refine ⟨⟨rfl, fun h => ?_⟩, rfl, ?_⟩
  · exact absurd h.length (by decide)
  · rintro ⟨l', hl', -, -, hsorted⟩
    cases hl'
    exact absurd hsorted (by decide)

end LinkedList

end SRCommon
