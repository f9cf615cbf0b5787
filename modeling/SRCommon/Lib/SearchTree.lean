import Mathlib.Data.List.Basic
import Mathlib.Tactic.Common

/-!
# Search trees

Binary trees whose values stand in the order of a comparison, from the left to
the right. A value that is equal to one in the tree is not inserted again.
-/

inductive SearchTree (α : Type*) where
  | nil
  | node (value : α) (below above : SearchTree α)

namespace SearchTree

variable {α : Type*}

def values : SearchTree α → List α
  | nil => []
  | node value below above => below.values ++ value :: above.values

def Ordered (cmp : α → α → Ordering) (t : SearchTree α) : Prop :=
  t.values.Pairwise fun a b => cmp a b = .lt

/-- The value of the tree that is equal to another one. -/
def find (cmp : α → α → Ordering) (a : α) : SearchTree α → Option α
  | nil => none
  | node value below above =>
      match cmp value a with
      | .gt => find cmp a below
      | .lt => find cmp a above
      | .eq => some value

def insert (cmp : α → α → Ordering) (a : α) : SearchTree α → SearchTree α
  | nil => node a nil nil
  | node value below above =>
      match cmp value a with
      | .gt => node value (insert cmp a below) above
      | .lt => node value below (insert cmp a above)
      | .eq => node value below above

variable {cmp : α → α → Ordering} {t below above : SearchTree α} {a value x : α}

theorem mem_values_node :
    x ∈ (node value below above).values ↔ x ∈ below.values ∨ x = value ∨ x ∈ above.values := by
  rw [values, List.mem_append, List.mem_cons]

theorem find_node_of_gt (h : cmp value a = .gt) :
    find cmp a (node value below above) = find cmp a below := by
  rw [find, h]

theorem find_node_of_lt (h : cmp value a = .lt) :
    find cmp a (node value below above) = find cmp a above := by
  rw [find, h]

theorem find_node_of_eq (h : cmp value a = .eq) :
    find cmp a (node value below above) = some value := by
  rw [find, h]

theorem insert_node_of_gt (h : cmp value a = .gt) :
    insert cmp a (node value below above) = node value (insert cmp a below) above := by
  rw [insert, h]

theorem insert_node_of_lt (h : cmp value a = .lt) :
    insert cmp a (node value below above) = node value below (insert cmp a above) := by
  rw [insert, h]

theorem insert_node_of_eq (h : cmp value a = .eq) :
    insert cmp a (node value below above) = node value below above := by
  rw [insert, h]

theorem mem_of_find (h : find cmp a t = some x) : x ∈ t.values ∧ cmp x a = .eq := by
  induction t with
  | nil => cases h
  | node value below above ihBelow ihAbove =>
      rw [mem_values_node]
      cases hcmp : cmp value a with
      | gt =>
          rw [find_node_of_gt hcmp] at h
          exact ⟨.inl (ihBelow h).1, (ihBelow h).2⟩
      | lt =>
          rw [find_node_of_lt hcmp] at h
          exact ⟨.inr (.inr (ihAbove h).1), (ihAbove h).2⟩
      | eq =>
          rw [find_node_of_eq hcmp] at h
          cases h
          exact ⟨.inr (.inl rfl), hcmp⟩

/-- A value is new to the tree when no equal one is found in it. -/
theorem mem_values_insert :
    x ∈ (insert cmp a t).values ↔ x ∈ t.values ∨ x = a ∧ find cmp a t = none := by
  induction t with
  | nil => simp [insert, values, find]
  | node value below above ihBelow ihAbove =>
      cases hcmp : cmp value a with
      | gt =>
          rw [insert_node_of_gt hcmp, find_node_of_gt hcmp, mem_values_node, mem_values_node,
            ihBelow]
          exact or_right_comm
      | lt =>
          rw [insert_node_of_lt hcmp, find_node_of_lt hcmp, mem_values_node, mem_values_node,
            ihAbove, or_assoc, or_assoc]
      | eq => simp [insert_node_of_eq hcmp, find_node_of_eq hcmp]

theorem ordered_nil : Ordered cmp (nil : SearchTree α) := List.Pairwise.nil

/-- No two values are equal. -/
theorem Ordered.pairwise_ne (h : Ordered cmp t) : t.values.Pairwise fun a b => cmp a b ≠ .eq :=
  h.imp fun hlt heq => by
    rw [hlt] at heq
    cases heq

variable [Std.TransCmp cmp]

theorem ordered_node :
    Ordered cmp (node value below above) ↔ Ordered cmp below ∧ Ordered cmp above ∧
      (∀ x ∈ below.values, cmp x value = .lt) ∧ ∀ x ∈ above.values, cmp value x = .lt := by
  rw [Ordered, values, List.pairwise_append, List.pairwise_cons]
  constructor
  · rintro ⟨hbelow, ⟨hvalue, habove⟩, hacross⟩
    exact ⟨hbelow, habove, fun x hx => hacross x hx value List.mem_cons_self, hvalue⟩
  · rintro ⟨hbelow, habove, hbelowValue, hvalue⟩
    refine ⟨hbelow, ⟨hvalue, habove⟩, fun x hx y hy => ?_⟩
    rcases List.mem_cons.mp hy with rfl | hy
    · exact hbelowValue x hx
    · exact Std.TransCmp.lt_trans (hbelowValue x hx) (hvalue y hy)

/-- What is not found is not there. -/
theorem Ordered.cmp_ne_eq (h : Ordered cmp t) (hfind : find cmp a t = none) :
    ∀ x ∈ t.values, cmp x a ≠ .eq := by
  induction t with
  | nil => exact fun x hx => absurd hx List.not_mem_nil
  | node value below above ihBelow ihAbove =>
      obtain ⟨hbelow, habove, hbelowValue, hvalue⟩ := ordered_node.mp h
      intro x hx heq
      have hxvalue : cmp value x = cmp value a := Std.TransCmp.congr_right heq
      cases hcmp : cmp value a with
      | gt =>
          rw [find_node_of_gt hcmp] at hfind
          rcases mem_values_node.mp hx with hx | rfl | hx
          · exact ihBelow hbelow hfind x hx heq
          · rw [heq] at hcmp
            cases hcmp
          · rw [hvalue x hx, hcmp] at hxvalue
            cases hxvalue
      | lt =>
          rw [find_node_of_lt hcmp] at hfind
          rcases mem_values_node.mp hx with hx | rfl | hx
          · rw [Std.OrientedCmp.gt_of_lt (hbelowValue x hx), hcmp] at hxvalue
            cases hxvalue
          · rw [heq] at hcmp
            cases hcmp
          · exact ihAbove habove hfind x hx heq
      | eq =>
          rw [find_node_of_eq hcmp] at hfind
          cases hfind

theorem Ordered.insert (h : Ordered cmp t) (a : α) : Ordered cmp (t.insert cmp a) := by
  induction t with
  | nil => exact List.pairwise_singleton _ a
  | node value below above ihBelow ihAbove =>
      obtain ⟨hbelow, habove, hbelowValue, hvalue⟩ := ordered_node.mp h
      cases hcmp : cmp value a with
      | gt =>
          rw [insert_node_of_gt hcmp]
          refine ordered_node.mpr ⟨ihBelow hbelow, habove, fun x hx => ?_, hvalue⟩
          rcases mem_values_insert.mp hx with hx | ⟨rfl, -⟩
          · exact hbelowValue x hx
          · exact Std.OrientedCmp.lt_of_gt hcmp
      | lt =>
          rw [insert_node_of_lt hcmp]
          refine ordered_node.mpr ⟨hbelow, ihAbove habove, hbelowValue, fun x hx => ?_⟩
          rcases mem_values_insert.mp hx with hx | ⟨rfl, -⟩
          · exact hvalue x hx
          · exact hcmp
      | eq => rwa [insert_node_of_eq hcmp]

end SearchTree
