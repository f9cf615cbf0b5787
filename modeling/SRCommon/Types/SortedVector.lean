import Mathlib.Data.List.Sort
import Mathlib.Data.List.TakeWhile
import Mathlib.Data.Multiset.AddSub
import Mathlib.Order.RelClasses
import Mathlib.Tactic.Common
import SRCommon.Lib.BinarySearch
import SRCommon.Lib.PartialRun

/-!
# The sorted vector

`Add` and `Remove` look for their place by the predicate alone. Values that the
predicate does not tell apart stand side by side, the latest one first, and
`Remove` compares its value with the first of them only.
-/

namespace SRCommon

namespace SortedVector

section

variable {α : Type*} (predicate : α → α → Prop) [DecidableRel predicate] (data : List α) (value : α)

def lowerBound : ℕ := BinarySearch.lowerBound (fun x => predicate x value) data

def add : List α :=
  if data = [] then [value]
  else
    let it := lowerBound predicate data value
    data.take it ++ value :: data.drop it

/-- An empty vector is reported. -/
def remove [DecidableEq α] : Bool × List α :=
  if data = [] then (false, data)
  else
    let it := lowerBound predicate data value
    if data[it]? = some value then (true, data.eraseIdx it) else (false, data)

def Sorted : Prop := data.Pairwise fun x y => ¬ predicate y x

/-- The value is not stored, or no other value that the predicate does not tell apart from it is
stored in front of it. -/
def StandsFirst : Prop :=
  value ∈ data → data.find? (fun x => ¬ predicate x value ∧ ¬ predicate value x) = some value

end

section

variable {α : Type*} {predicate : α → α → Prop} [IsStrictWeakOrder α predicate]

theorem not_trans {a b c : α} (hab : ¬ predicate a b) (hbc : ¬ predicate b c) :
    ¬ predicate a c := by
  intro hac
  have hba : ¬ predicate b a := fun hba => hbc (trans_of predicate hba hac)
  have hcb : ¬ predicate c b := fun hcb => hab (trans_of predicate hac hcb)
  exact (IsStrictWeakOrder.incomp_trans a b c ⟨hab, hba⟩ ⟨hbc, hcb⟩).1 hac

instance isTrans_not_predicate : IsTrans α fun x y => ¬ predicate y x where
  trans _ _ _ hab hbc := not_trans hbc hab

instance total_not_predicate : Std.Total fun x y : α => ¬ predicate y x where
  total a b := by
    by_cases h : predicate b a
    · exact .inr fun hab => irrefl_of predicate a (trans_of predicate hab h)
    · exact .inl h

end

section

variable {α : Type*} {predicate : α → α → Prop} [DecidableRel predicate]
  [IsStrictWeakOrder α predicate] {data : List α} {value : α}

/-- What is less than a value stands in front of what is not. -/
theorem Sorted.parted (h : Sorted predicate data) (value : α) :
    BinarySearch.Parted (fun x => predicate x value) data := by
  apply h.imp
  intro x y hyx hy
  rw [decide_eq_true_iff] at hy ⊢
  by_contra hx
  exact not_trans hyx hx hy

theorem add_eq_orderedInsert (h : Sorted predicate data) (value : α) :
    add predicate data value = data.orderedInsert (fun x y => ¬ predicate y x) value := by
  by_cases hempty : data = []
  · rw [add, if_pos hempty, hempty]
    rfl
  · have hparted := h.parted value
    rw [add, if_neg hempty, List.orderedInsert_eq_take_drop]
    simp only [lowerBound, hparted.take_lowerBound, hparted.drop_lowerBound, not_not]

theorem sorted_add (h : Sorted predicate data) (value : α) :
    Sorted predicate (add predicate data value) := by
  rw [add_eq_orderedInsert h]
  exact List.Pairwise.orderedInsert value data h

theorem coe_add (h : Sorted predicate data) (value : α) :
    (add predicate data value : Multiset α) = value ::ₘ data := by
  rw [add_eq_orderedInsert h]
  exact Multiset.coe_eq_coe.mpr (List.perm_orderedInsert _ value data)

theorem notMem_takeWhile : value ∉ data.takeWhile fun x => predicate x value := by
  intro hmem
  have hless : predicate value value := by simpa using List.mem_takeWhile_imp hmem
  exact irrefl_of predicate value hless

theorem find?_equivalent (h : Sorted predicate data) (hmem : value ∈ data) :
    data.find? (fun x => ¬ predicate x value ∧ ¬ predicate value x) =
      (data.dropWhile fun x => predicate x value).head? := by
  have hdata : (data.takeWhile fun x => predicate x value) ++
      (data.dropWhile fun x => predicate x value) = data := List.takeWhile_append_dropWhile
  have hless : ∀ x ∈ data.takeWhile fun x => predicate x value, predicate x value := by
    intro x hx
    simpa using List.mem_takeWhile_imp hx
  have hnot := fun x => (h.parted value).not_below (x := x)
  generalize (data.takeWhile fun x => predicate x value) = front at hdata hless
  generalize (data.dropWhile fun x => predicate x value) = back at hdata hnot
  subst hdata
  have hback : value ∈ back := by
    apply (List.mem_append.mp hmem).resolve_left
    intro hfront
    exact irrefl_of predicate value (hless value hfront)
  rw [List.find?_append, List.find?_eq_none.mpr, Option.none_or]
  · cases back with
    | nil => cases hback
    | cons y back =>
        have hy : ¬ predicate y value := by simpa using hnot y List.mem_cons_self
        have hsorted : List.Pairwise _ (y :: back) := (List.pairwise_append.mp h).2.1
        have hyv : ¬ predicate value y := by
          rcases List.mem_cons.mp hback with rfl | hmem
          · exact hy
          · exact (List.pairwise_cons.mp hsorted).1 value hmem
        rw [List.find?_cons_of_pos (by simpa using ⟨hy, hyv⟩), List.head?_cons]
  · intro x hx
    simp [hless x hx]

end

section

variable {α : Type*} [DecidableEq α] {predicate : α → α → Prop} [DecidableRel predicate]
  [IsStrictWeakOrder α predicate] {data : List α} {value : α}

/-- The element that the search finds is erased, and with it the first one of this value. -/
theorem eraseIdx_lowerBound (h : Sorted predicate data)
    (hhead : (data.dropWhile fun x => predicate x value).head? = some value) :
    data.eraseIdx (lowerBound predicate data value) = data.erase value := by
  obtain ⟨back, hback⟩ := List.head?_eq_some_iff.mp hhead
  have hdata : (data.takeWhile fun x => predicate x value) ++ value :: back = data := by
    rw [← hback]
    exact List.takeWhile_append_dropWhile
  have hnotMem : value ∉ data.takeWhile fun x => predicate x value := notMem_takeWhile
  have hindex : lowerBound predicate data value = _ := (h.parted value).lowerBound_eq
  rw [hindex]
  generalize (data.takeWhile fun x => predicate x value) = front at hdata hnotMem
  subst hdata
  rw [List.eraseIdx_append_of_length_le (Nat.le_refl _), Nat.sub_self, List.eraseIdx_cons_zero,
    List.erase_append_right _ hnotMem, List.erase_cons_head]

/-- The first element that is not less decides. -/
theorem remove_eq (h : Sorted predicate data) (value : α) :
    remove predicate data value =
      if (data.dropWhile fun x => predicate x value).head? = some value then
        (true, data.erase value)
      else (false, data) := by
  by_cases hempty : data = []
  · subst hempty
    rfl
  · have hparted := h.parted value
    have hget : data[lowerBound predicate data value]? =
        (data.dropWhile fun x => predicate x value).head? := by
      rw [← hparted.drop_lowerBound, List.head?_drop]
      rfl
    rw [remove, if_neg hempty]
    simp only [hget]
    split
    · next hhead => rw [eraseIdx_lowerBound h hhead]
    · rfl

/-- A stored value is found if it is the first of its kind, one that is not stored is not. -/
theorem remove_spec (h : Sorted predicate data) (value : α) :
    StandsFirst predicate data value ∧
        remove predicate data value = (decide (value ∈ data), data.erase value) ∨
      ¬ StandsFirst predicate data value ∧ value ∈ data ∧
        remove predicate data value = (false, data) := by
  rw [remove_eq h]
  by_cases hmem : value ∈ data
  · have hfind := find?_equivalent h hmem
    have hiff : StandsFirst predicate data value ↔
        (data.dropWhile fun x => predicate x value).head? = some value := by
      rw [StandsFirst, hfind]
      exact ⟨fun h => h hmem, fun h _ => h⟩
    by_cases hhead : (data.dropWhile fun x => predicate x value).head? = some value
    · left
      exact ⟨hiff.mpr hhead, by simp [hhead, hmem]⟩
    · right
      exact ⟨mt hiff.mp hhead, hmem, if_neg hhead⟩
  · left
    refine ⟨fun h => absurd h hmem, ?_⟩
    rw [if_neg, List.erase_of_not_mem hmem]
    · simp [hmem]
    · intro hhead
      apply hmem
      exact (List.dropWhile_sublist _).subset (List.mem_of_mem_head? hhead)

theorem sorted_remove (h : Sorted predicate data) (value : α) :
    Sorted predicate (remove predicate data value).2 := by
  rcases remove_spec h value with ⟨-, heq⟩ | ⟨-, -, heq⟩
  · rw [heq]
    exact h.sublist List.erase_sublist
  · rw [heq]
    exact h

end

/-- A call from outside. -/
inductive Call (α : Type*) where
  | add (value : α)
  | remove (value : α)

section

variable {α : Type*} [DecidableEq α] (predicate : α → α → Prop) [DecidableRel predicate]

/-- `Remove` answers whether it has removed something. -/
def step (data : List α) : Call α → Option (List α × Option Bool)
  | .add value => some (add predicate data value, none)
  | .remove value =>
      let r := remove predicate data value
      some (r.2, some r.1)

/-- What a collection of values does that forgets none of them. -/
def contentsStep (contents : Multiset α) : Call α → Option (Multiset α × Option Bool)
  | .add value => some (value ::ₘ contents, none)
  | .remove value => some (contents.erase value, some (decide (value ∈ contents)))

/-- The vector is sorted after the calls, holds what was added and not removed, and has answered
as the collection does. -/
def KeepsContents (calls : List (Call α)) : Prop :=
  ∃ data contents answers, Steps.run (step predicate) [] calls = some (data, answers) ∧
    Steps.run contentsStep 0 calls = some (contents, answers) ∧
    Sorted predicate data ∧ (data : Multiset α) = contents

/-- A value that is removed stands first. -/
def FindsFirst (data : List α) : Call α → Prop
  | .add _ => True
  | .remove value => StandsFirst predicate data value

variable {predicate} [IsStrictWeakOrder α predicate]

/-- The order is kept whatever is called. -/
theorem sorted_run {calls : List (Call α)} {r : List α × List (Option Bool)}
    (h : Steps.run (step predicate) [] calls = some r) : Sorted predicate r.1 := by
  apply Steps.run_invariant (I := Sorted predicate) _ List.Pairwise.nil h
  intro data call r hdata hr
  cases call with
  | add value =>
      cases hr
      exact sorted_add hdata value
  | remove value =>
      cases hr
      exact sorted_remove hdata value

theorem step_simulates {data : List α} {contents : Multiset α} {call : Call α}
    (h : Sorted predicate data ∧ (data : Multiset α) = contents)
    (hfirst : FindsFirst predicate data call) :
    ∃ data' contents' answer, step predicate data call = some (data', answer) ∧
      contentsStep contents call = some (contents', answer) ∧
      Sorted predicate data' ∧ (data' : Multiset α) = contents' := by
  obtain ⟨hdata, rfl⟩ := h
  cases call with
  | add value => exact ⟨_, _, none, rfl, rfl, sorted_add hdata value, coe_add hdata value⟩
  | remove value =>
      have hsorted := sorted_remove hdata value
      rcases remove_spec hdata value with ⟨-, heq⟩ | ⟨hnot, -, -⟩
      · rw [heq] at hsorted
        refine ⟨_, _, some (decide (value ∈ data)), ?_, rfl, hsorted, ?_⟩
        · rw [step, heq]
        · exact (Multiset.coe_erase data value).symm
      · exact absurd hfirst hnot

/-- The answers tell whether the value was found. -/
theorem findsFirst_of_answers {data data' : List α} {contents contents' : Multiset α}
    {call : Call α} {answer : Option Bool}
    (h : Sorted predicate data ∧ (data : Multiset α) = contents)
    (hstep : step predicate data call = some (data', answer))
    (hcontents : contentsStep contents call = some (contents', answer)) :
    FindsFirst predicate data call := by
  obtain ⟨hdata, rfl⟩ := h
  cases call with
  | add value => trivial
  | remove value =>
      rcases remove_spec hdata value with ⟨hfirst, -⟩ | ⟨-, hmem, heq⟩
      · exact hfirst
      · rw [step, heq] at hstep
        simp only [contentsStep, Multiset.mem_coe, hmem, decide_true] at hcontents
        cases hstep
        cases hcontents

theorem keepsContents_iff (calls : List (Call α)) :
    KeepsContents predicate calls ↔
      Steps.Along (step predicate) (FindsFirst predicate) [] calls := by
  apply Steps.simulates_iff_along
  · intro data contents call h hfirst
    exact step_simulates h hfirst
  · intro data contents call data' contents' answer h hstep hcontents
    exact findsFirst_of_answers h hstep hcontents
  · exact ⟨List.Pairwise.nil, rfl⟩

end

/-- Values with a priority that alone decides on their place. -/
def byPriority (x y : ℕ × ℕ) : Prop := x.1 < y.1

instance : DecidableRel byPriority := fun x y => inferInstanceAs (Decidable (x.1 < y.1))

instance : IsStrictWeakOrder (ℕ × ℕ) byPriority where
  irrefl x := Nat.lt_irrefl x.1
  trans _ _ _ := Nat.lt_trans
  incomp_trans x y z := by
    simp only [byPriority]
    omega

theorem keepsContents_priorities :
    KeepsContents byPriority [.add (2, 0), .add (1, 1), .add (2, 3), .remove (2, 3)] := by
  apply (keepsContents_iff _).mpr
  refine ⟨trivial, fun _ h => ?_⟩
  cases h
  refine ⟨trivial, fun _ h => ?_⟩
  cases h
  refine ⟨trivial, fun _ h => ?_⟩
  cases h
  refine ⟨?_, fun _ _ => trivial⟩
  intro _
  decide

/-- The earlier one of two values with the same priority is not found. -/
theorem not_keepsContents :
    ¬ KeepsContents byPriority [.add (2, 0), .add (2, 3), .remove (2, 0)] := by
  rintro ⟨data, contents, answers, hdata, hcontents, -, -⟩
  have hmissed : Steps.run (step byPriority) [] [.add (2, 0), .add (2, 3), .remove (2, 0)] =
      some ([(2, 3), (2, 0)], [none, none, some false]) := by decide
  have hstored : Steps.run contentsStep 0 [.add (2, 0), .add (2, 3), .remove (2, 0)] =
      some ({(2, 3)}, [none, none, some true]) := by decide
  cases hmissed.symm.trans hdata
  cases hstored.symm.trans hcontents

end SortedVector

end SRCommon
