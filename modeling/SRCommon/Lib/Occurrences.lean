import Mathlib.Data.List.Basic
import Mathlib.Data.List.Infix
import Mathlib.Tactic.Common

/-!
# Successive occurrences

The leftmost occurrence of a list in another one parts it in what stands before
and what stands behind. Going on behind it cuts the list into pieces, whose
number is finite unless the list that is looked for is empty.
-/

namespace Occurrences

variable {α : Type*} {sub text : List α} {k : ℕ}

structure Leftmost (sub text : List α) (k : ℕ) : Prop where
  occurs : sub <+: text.drop k
  first : ∀ j < k, ¬ sub <+: text.drop j

/-- The pieces between the successive leftmost occurrences, none of which overlap. -/
inductive Cut (sub : List α) : List α → List (List α) → Prop
  | last {text : List α} (hnone : ¬ sub <:+: text) : Cut sub text [text]
  | next {text : List α} {k : ℕ} {pieces : List (List α)} (hk : Leftmost sub text k)
      (hrest : Cut sub (text.drop (k + sub.length)) pieces) : Cut sub text (text.take k :: pieces)

theorem leftmost_zero : Leftmost sub text 0 ↔ sub <+: text :=
  ⟨fun h => h.occurs, fun h => ⟨h, fun _ hj => absurd hj (Nat.not_lt_zero _)⟩⟩

theorem leftmost_succ {a : α} :
    Leftmost sub (a :: text) (k + 1) ↔ ¬ sub <+: a :: text ∧ Leftmost sub text k := by
  constructor
  · intro h
    refine ⟨h.first 0 (Nat.succ_pos k), h.occurs, fun j hj => ?_⟩
    exact h.first (j + 1) (Nat.succ_lt_succ hj)
  · rintro ⟨hzero, h⟩
    refine ⟨h.occurs, fun j hj => ?_⟩
    cases j with
    | zero => exact hzero
    | succ j => exact h.first j (Nat.lt_of_succ_lt_succ hj)

namespace Leftmost

theorem unique {j : ℕ} (hk : Leftmost sub text k) (hj : Leftmost sub text j) : k = j := by
  rcases Nat.lt_trichotomy k j with h | h | h
  · exact absurd hk.occurs (hj.first k h)
  · exact h
  · exact absurd hj.occurs (hk.first j h)

theorem add_length_le (h : Leftmost sub text k) : k + sub.length ≤ text.length := by
  have hle := h.occurs.length_le
  rw [List.length_drop] at hle
  by_cases hk : k ≤ text.length
  · omega
  -- Only the empty list occurs behind the end, and it occurs at the start before.
  · have hsub : sub = [] := List.length_eq_zero_iff.mp (by omega)
    subst hsub
    have hpos : 0 < k := by omega
    exact absurd List.nil_prefix (h.first 0 hpos)

theorem isInfix (h : Leftmost sub text k) : sub <:+: text :=
  h.occurs.isInfix.trans (List.drop_suffix k text).isInfix

theorem text_eq (h : Leftmost sub text k) :
    text = text.take k ++ (sub ++ text.drop (k + sub.length)) := by
  obtain ⟨rest, hrest⟩ := h.occurs
  have hdrop : text.drop (k + sub.length) = rest := by
    rw [← List.drop_drop, ← hrest, List.drop_left]
  rw [hdrop, hrest, List.take_append_drop]

/-- No occurrence ends before the leftmost one begins. -/
theorem not_infix_take (h : Leftmost sub text k) (hsub : sub ≠ []) : ¬ sub <:+: text.take k := by
  rintro ⟨before, behind, heq⟩
  have hlen := congrArg List.length heq
  rw [List.length_append, List.length_append, List.length_take] at hlen
  have hpos := List.length_pos_iff.mpr hsub
  apply h.first before.length (by omega)
  refine ⟨behind ++ text.drop k, ?_⟩
  rw [← List.append_assoc]
  calc sub ++ behind ++ text.drop k
      = (before ++ sub ++ behind ++ text.drop k).drop before.length := by
        rw [List.append_assoc before, List.append_assoc before, List.drop_left]
    _ = text.drop before.length := by rw [heq, List.take_append_drop]

end Leftmost

theorem exists_leftmost (h : sub <:+: text) : ∃ k, Leftmost sub text k := by
  induction text with
  | nil =>
      have hsub : sub = [] := List.infix_nil.mp h
      exact ⟨0, leftmost_zero.mpr (hsub ▸ List.nil_prefix)⟩
  | cons a text ih =>
      by_cases hzero : sub <+: a :: text
      · exact ⟨0, leftmost_zero.mpr hzero⟩
      · obtain ⟨k, hk⟩ := ih ((List.infix_cons_iff.mp h).resolve_left hzero)
        exact ⟨k + 1, leftmost_succ.mpr ⟨hzero, hk⟩⟩

section

variable [DecidableEq α]

/-- Where the leftmost occurrence begins. -/
def search (sub : List α) : List α → Option ℕ
  | [] => if sub = [] then some 0 else none
  | a :: text => if sub <+: a :: text then some 0 else (search sub text).map (· + 1)

theorem search_eq_some_iff : search sub text = some k ↔ Leftmost sub text k := by
  induction text generalizing k with
  | nil =>
      rw [search]
      by_cases hsub : sub = []
      · subst hsub
        have hzero : Leftmost ([] : List α) [] 0 := leftmost_zero.mpr List.nil_prefix
        rw [if_pos rfl, Option.some.injEq]
        exact ⟨fun h => h ▸ hzero, hzero.unique⟩
      · rw [if_neg hsub]
        exact iff_of_false (by simp) fun h => hsub (List.infix_nil.mp h.isInfix)
  | cons a text ih =>
      rw [search]
      by_cases ha : sub <+: a :: text
      · have hzero := leftmost_zero.mpr ha
        rw [if_pos ha, Option.some.injEq]
        exact ⟨fun h => h ▸ hzero, hzero.unique⟩
      · rw [if_neg ha, Option.map_eq_some_iff]
        cases k with
        | zero => exact iff_of_false (by simp) fun h => ha (leftmost_zero.mp h)
        | succ k => simp [leftmost_succ, ih, ha]

theorem search_eq_none_iff : search sub text = none ↔ ¬ sub <:+: text := by
  constructor
  · intro h hsub
    obtain ⟨k, hk⟩ := exists_leftmost hsub
    rw [search_eq_some_iff.mpr hk] at h
    cases h
  · intro h
    cases hk : search sub text with
    | none => rfl
    | some k => exact absurd (search_eq_some_iff.mp hk).isInfix h

end

theorem exists_cut (hsub : sub ≠ []) (text : List α) : ∃ pieces, Cut sub text pieces := by
  induction hn : text.length using Nat.strong_induction_on generalizing text with
  | _ n ih =>
      by_cases h : sub <:+: text
      · obtain ⟨k, hk⟩ := exists_leftmost h
        have hpos := List.length_pos_iff.mpr hsub
        have hle := hk.add_length_le
        have hlt : (text.drop (k + sub.length)).length < n := by
          rw [List.length_drop]
          omega
        obtain ⟨pieces, hrest⟩ := ih _ hlt _ rfl
        exact ⟨_, .next hk hrest⟩
      · exact ⟨[text], .last h⟩

/-- The empty list occurs at the start of what is left, for ever. -/
theorem not_cut_nil {pieces : List (List α)} : ¬ Cut [] text pieces := by
  intro h
  induction h with
  | last hnone => exact hnone List.nil_infix
  | next _ _ ih => exact ih

namespace Cut

variable {pieces : List (List α)}

theorem unique {pieces' : List (List α)} (h : Cut sub text pieces) (h' : Cut sub text pieces') :
    pieces = pieces' := by
  induction h generalizing pieces' with
  | last hnone =>
      cases h' with
      | last => rfl
      | next hk _ => exact absurd hk.isInfix hnone
  | next hk _ ih =>
      cases h' with
      | last hnone => exact absurd hk.isInfix hnone
      | next hj hrest =>
          cases hk.unique hj
          rw [ih hrest]

theorem ne_nil (h : Cut sub text pieces) : pieces ≠ [] := by
  cases h <;> exact List.cons_ne_nil _ _

/-- The pieces make up the text again. -/
theorem intercalate_eq (h : Cut sub text pieces) : sub.intercalate pieces = text := by
  induction h with
  | last => simp
  | next hk hrest ih =>
      rw [List.intercalate_cons_of_ne_nil hrest.ne_nil, ih, List.append_assoc]
      exact hk.text_eq.symm

theorem not_infix (h : Cut sub text pieces) (hsub : sub ≠ []) {piece : List α}
    (hp : piece ∈ pieces) : ¬ sub <:+: piece := by
  induction h with
  | last hnone => rwa [List.mem_singleton.mp hp]
  | next hk _ ih =>
      rcases List.mem_cons.mp hp with rfl | hp
      · exact hk.not_infix_take hsub
      · exact ih hp

end Cut

end Occurrences
