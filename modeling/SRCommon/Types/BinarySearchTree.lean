import Mathlib.Data.List.Basic
import Mathlib.Tactic.Common
import SRCommon.Lib.SearchTree
import SRCommon.Types.LinkedList

/-!
# BinarySearchTree

`Iterate` goes down from a node and answers with the node at which it stops and
a direction: one of the two places for a new node, or 0 for an equal element.
`Search` starts it at the head also when there is none.
-/

namespace SRCommon

/-- A node's `pNext` leads to what the comparator finds less, its `pPrev` to what is greater. -/
abbrev TreeNode (T : Type) := SearchTree T

inductive TreeLink where
  | next
  | prev

namespace BinarySearchTree

variable {T : Type} (comparator : T → T → UInt32)

/-- The result is unsigned and read with a sign. -/
def compare (first second : T) : Int32 := (comparator first second).toInt32

def isNull : TreeNode T → Bool
  | .nil => true
  | .node _ _ _ => false

/-- The links to follow from a node to the one at which `Iterate` stops, and the direction. A null
pointer has no data to compare. -/
def iterate (data : T) : TreeNode T → Option (List TreeLink × Int32)
  | .nil => none
  | .node cursor next prev =>
      if compare comparator cursor data = 1 then
        if isNull next then some ([], 1)
        else (iterate data next).map fun r => (.next :: r.1, r.2)
      else if compare comparator cursor data = -1 then
        if isNull prev then some ([], -1)
        else (iterate data prev).map fun r => (.prev :: r.1, r.2)
      else some ([], 0)

/-- The data of the node that the links lead to. -/
def dataAt : List TreeLink → TreeNode T → Option T
  | _, .nil => none
  | [], .node data _ _ => some data
  | .next :: links, .node _ next _ => dataAt links next
  | .prev :: links, .node _ _ prev => dataAt links prev

/-- A new node is linked to the node that the links lead to, in a direction. -/
def linkAt (direction : Int32) (newNode : TreeNode T) : List TreeLink → TreeNode T → TreeNode T
  | _, .nil => .nil
  | [], .node data next prev =>
      if direction = 1 then .node data newNode prev else .node data next newNode
  | .next :: links, .node data next prev => .node data (linkAt direction newNode links next) prev
  | .prev :: links, .node data next prev => .node data next (linkAt direction newNode links prev)

def insert (head : TreeNode T) (data : T) : Option (TreeNode T) :=
  if isNull head then some (.node data .nil .nil)
  else (iterate comparator data head).map fun r =>
    if r.2 = 0 then head else linkAt r.2 (.node data .nil .nil) r.1 head

/-- Without a result where a null pointer is read. -/
def search (head : TreeNode T) (data : T) : Option (Option T) :=
  (iterate comparator data head).map fun r => if r.2 = 0 then dataAt r.1 head else none

/-- `Insert` for each element, from the empty tree on. -/
def insertAll (elements : List T) : Option (TreeNode T) :=
  elements.foldlM (insert comparator) .nil

/-! ## Trees of a total preorder -/

variable (cmp : T → T → Ordering)

/-- `Search` answers with an inserted element that is equal, or with null when there is none. -/
def Finds (elements : List T) (head : TreeNode T) (data : T) : Prop :=
  ∃ found, search (fun a b => compareResult (cmp a b)) head data = some found ∧
    (∀ x, found = some x → x ∈ elements ∧ cmp x data = .eq) ∧
    (found = none → ∀ x ∈ elements, cmp x data ≠ .eq)

/-- What is known of a tree after elements were inserted. -/
structure Represents (elements : List T) (head : TreeNode T) : Prop where
  ordered : head.Ordered cmp
  inserted : ∀ x ∈ head.values, x ∈ elements
  equal : ∀ x ∈ elements, ∃ y ∈ head.values, cmp y x = .eq

variable {cmp} {elements : List T} {head : TreeNode T} {data : T}

theorem eq_nil_of_isNull (h : isNull head = true) : head = .nil := by
  cases head with
  | nil => rfl
  | node data next prev => cases h

theorem compare_of_gt {a b : T} (h : cmp a b = .gt) :
    compare (fun a b => compareResult (cmp a b)) a b = 1 := by
  rw [compare, h]
  rfl

theorem compare_of_lt {a b : T} (h : cmp a b = .lt) :
    compare (fun a b => compareResult (cmp a b)) a b = -1 := by
  rw [compare, h]
  rfl

theorem compare_of_eq {a b : T} (h : cmp a b = .eq) :
    compare (fun a b => compareResult (cmp a b)) a b = 0 := by
  rw [compare, h]
  rfl

/-- `Iterate` stops where the search tree has the element, or would have it. -/
theorem iterate_spec (cmp : T → T → Ordering) (data : T) (hhead : isNull head = false) :
    ∃ r, iterate (fun a b => compareResult (cmp a b)) data head = some r ∧
      (if r.2 = 0 then head else linkAt r.2 (.node data .nil .nil) r.1 head) =
        head.insert cmp data ∧
      (if r.2 = 0 then dataAt r.1 head else none) = head.find cmp data := by
  induction head with
  | nil => cases hhead
  | node cursor next prev ihNext ihPrev =>
      cases hcmp : cmp cursor data with
      | gt =>
          rw [SearchTree.insert_node_of_gt hcmp, SearchTree.find_node_of_gt hcmp]
          simp only [iterate, compare_of_gt hcmp, if_true]
          cases hnext : isNull next with
          | true =>
              have hnil := eq_nil_of_isNull hnext
              subst hnil
              exact ⟨([], 1), rfl, rfl, rfl⟩
          | false =>
              obtain ⟨r, hr, hinsert, hfind⟩ := ihNext hnext
              refine ⟨(.next :: r.1, r.2), by simp [hr], ?_, ?_⟩
              · rw [← hinsert]
                by_cases hzero : r.2 = 0 <;> simp [hzero, linkAt]
              · rw [← hfind]
                rfl
      | lt =>
          rw [SearchTree.insert_node_of_lt hcmp, SearchTree.find_node_of_lt hcmp]
          have hne : (-1 : Int32) ≠ 1 := by decide
          simp only [iterate, compare_of_lt hcmp, if_neg hne, if_true]
          cases hprev : isNull prev with
          | true =>
              have hnil := eq_nil_of_isNull hprev
              subst hnil
              exact ⟨([], -1), rfl, rfl, rfl⟩
          | false =>
              obtain ⟨r, hr, hinsert, hfind⟩ := ihPrev hprev
              refine ⟨(.prev :: r.1, r.2), by simp [hr], ?_, ?_⟩
              · rw [← hinsert]
                by_cases hzero : r.2 = 0 <;> simp [hzero, linkAt]
              · rw [← hfind]
                rfl
      | eq =>
          rw [SearchTree.insert_node_of_eq hcmp, SearchTree.find_node_of_eq hcmp, iterate,
            compare_of_eq hcmp]
          exact ⟨([], 0), rfl, rfl, rfl⟩

theorem insert_eq (head : TreeNode T) (data : T) :
    insert (fun a b => compareResult (cmp a b)) head data = some (head.insert cmp data) := by
  rw [insert]
  cases hhead : isNull head with
  | true =>
      rw [eq_nil_of_isNull hhead]
      rfl
  | false =>
      obtain ⟨r, hr, hinsert, -⟩ := iterate_spec cmp data hhead
      rw [← hinsert, hr]
      rfl

theorem search_eq (hhead : isNull head = false) (data : T) :
    search (fun a b => compareResult (cmp a b)) head data = some (head.find cmp data) := by
  obtain ⟨r, hr, -, hfind⟩ := iterate_spec cmp data hhead
  rw [search, hr, ← hfind]
  rfl

theorem represents_nil : Represents cmp [] .nil where
  ordered := SearchTree.ordered_nil
  inserted _ hx := hx
  equal _ hx := absurd hx List.not_mem_nil

/-- Only the empty tree has no node to start from. -/
theorem Represents.isNull_iff (h : Represents cmp elements head) :
    isNull head = true ↔ elements = [] := by
  cases head with
  | nil =>
      refine iff_of_true rfl (List.eq_nil_iff_forall_not_mem.mpr fun x hx => ?_)
      obtain ⟨y, hy, -⟩ := h.equal x hx
      exact List.not_mem_nil hy
  | node data next prev =>
      refine iff_of_false Bool.false_ne_true ?_
      rintro rfl
      exact List.not_mem_nil (h.inserted data (SearchTree.mem_values_node.mpr (.inr (.inl rfl))))

section

variable [Std.TransCmp cmp]

theorem Represents.insert (h : Represents cmp elements head) (data : T) :
    Represents cmp (elements ++ [data]) (head.insert cmp data) := by
  refine ⟨h.ordered.insert data, fun x hx => ?_, fun x hx => ?_⟩
  · rcases SearchTree.mem_values_insert.mp hx with hx | ⟨rfl, -⟩
    · exact List.mem_append_left _ (h.inserted x hx)
    · exact List.mem_append_right _ (List.mem_singleton.mpr rfl)
  · rcases List.mem_append.mp hx with hx | hx
    · obtain ⟨y, hy, heq⟩ := h.equal x hx
      exact ⟨y, SearchTree.mem_values_insert.mpr (.inl hy), heq⟩
    · cases List.mem_singleton.mp hx
      cases hfind : head.find cmp data with
      | none =>
          have hself : cmp data data = .eq := Std.ReflCmp.compare_self
          exact ⟨data, SearchTree.mem_values_insert.mpr (.inr ⟨rfl, hfind⟩), hself⟩
      | some y =>
          obtain ⟨hy, heq⟩ := SearchTree.mem_of_find hfind
          exact ⟨y, SearchTree.mem_values_insert.mpr (.inl hy), heq⟩

/-- No insertion goes wrong. -/
theorem Represents.foldlM_insert (h : Represents cmp elements head) (added : List T) :
    ∃ head', added.foldlM (BinarySearchTree.insert fun a b => compareResult (cmp a b)) head =
        some head' ∧ Represents cmp (elements ++ added) head' := by
  induction added generalizing elements head with
  | nil => exact ⟨head, rfl, by rwa [List.append_nil]⟩
  | cons data added ih =>
      obtain ⟨head', hhead', h'⟩ := ih (h.insert data)
      refine ⟨head', ?_, by rwa [List.append_assoc] at h'⟩
      rw [List.foldlM_cons, insert_eq]
      exact hhead'

theorem Represents.finds_iff (h : Represents cmp elements head) (data : T) :
    Finds cmp elements head data ↔ elements ≠ [] := by
  rw [Ne, ← h.isNull_iff, Bool.not_eq_true]
  constructor
  · rintro ⟨found, hfound, -⟩
    cases head with
    | nil => cases hfound
    | node data next prev => rfl
  · intro hhead
    refine ⟨_, search_eq hhead data, fun x hx => ?_, fun hnone x hx heq => ?_⟩
    · obtain ⟨hmem, heq⟩ := SearchTree.mem_of_find hx
      exact ⟨h.inserted x hmem, heq⟩
    · obtain ⟨y, hy, hyx⟩ := h.equal x hx
      exact h.ordered.cmp_ne_eq hnone y hy (Std.TransCmp.eq_trans hyx heq)

end

theorem insertions_found_iff (cmp : T → T → Ordering) [Std.TransCmp cmp] (elements : List T) :
    ∃ head, insertAll (fun a b => compareResult (cmp a b)) elements = some head ∧
      (head.values.Pairwise fun a b => cmp a b ≠ .eq) ∧
      ∀ data, Finds cmp elements head data ↔ elements ≠ [] := by
  have hnil : Represents cmp [] .nil := represents_nil
  obtain ⟨head, hhead, h⟩ := hnil.foldlM_insert elements
  exact ⟨head, hhead, h.ordered.pairwise_ne, h.finds_iff⟩

theorem insertions_found :
    ∃ head, insertAll (fun a b => compareResult (Ord.compare a b)) [5, 3, 5, 8] = some head ∧
      Finds Ord.compare [5, 3, 5, 8] head 8 ∧ Finds Ord.compare [5, 3, 5, 8] head 7 := by
  obtain ⟨head, hhead, -, hfinds⟩ := insertions_found_iff (T := ℕ) Ord.compare [5, 3, 5, 8]
  exact ⟨head, hhead, (hfinds 8).mpr (by decide), (hfinds 7).mpr (by decide)⟩

/-- A null pointer is read. -/
theorem not_finds_empty :
    insertAll (fun a b => compareResult (Ord.compare a b)) ([] : List ℕ) = some .nil ∧
      search (fun a b => compareResult (Ord.compare a b)) (.nil : TreeNode ℕ) 0 = none ∧
      ¬ Finds Ord.compare [] (.nil : TreeNode ℕ) 0 := by
  refine ⟨rfl, rfl, ?_⟩
  rintro ⟨found, hfound, -⟩
  cases hfound

example : (insertAll (fun a b => compareResult (Ord.compare a b)) [5, 3, 5, 8]).map
    SearchTree.values = some [3, 5, 8] := by decide

end BinarySearchTree

end SRCommon
