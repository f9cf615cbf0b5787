import Mathlib.Tactic.Common

/-!
# Paths through contracted nodes

Edges lead from starts to ends, and at some ends one may go on from a start.
When every end of a kind is joined to every start of a kind, a path passes
this place at most once without loss.
-/

namespace Contraction

variable {α β : Type*} {E : α → β → Prop} {T : β → α → Prop}

/-- A path of edges that goes on where `T` allows it. -/
inductive Through (E : α → β → Prop) (T : β → α → Prop) : α → β → Prop
  | edge {x : α} {y : β} : E x y → Through E T x y
  | pass {x x' : α} {y z : β} : E x y → T y x' → Through E T x' z → Through E T x z

theorem Through.trans {x x' : α} {y z : β} (h : Through E T x y) (hT : T y x')
    (h' : Through E T x' z) : Through E T x z := by
  induction h with
  | edge hE => exact .pass hE hT h'
  | pass hE hpass _ ih => exact .pass hE hpass (ih hT)

theorem Through.mono {T' : β → α → Prop} (hT : ∀ y x, T y x → T' y x) {x : α} {y : β}
    (h : Through E T x y) : Through E T' x y := by
  induction h with
  | edge hE => exact .edge hE
  | pass hE hpass _ ih => exact .pass hE (hT _ _ hpass) ih

theorem through_of_forall_not (hT : ∀ y x, ¬ T y x) {x : α} {y : β} : Through E T x y ↔ E x y := by
  constructor
  · intro h
    cases h with
    | edge hE => exact hE
    | pass _ hpass _ => exact absurd hpass (hT _ _)
  · exact .edge

/-- A place where all ends of a kind meet all starts of a kind is passed at most once. -/
theorem through_or_iff {P : β → Prop} {Q : α → Prop} {x : α} {z : β} :
    Through E (fun y x' => T y x' ∨ P y ∧ Q x') x z ↔
      Through E T x z ∨ ∃ y x', Through E T x y ∧ P y ∧ Q x' ∧ Through E T x' z := by
  constructor
  · intro h
    induction h with
    | edge hE => exact Or.inl (.edge hE)
    | pass hE hpass _ ih =>
        rcases hpass with hT | ⟨hP, hQ⟩
        · rcases ih with ih | ⟨y, x', hxy, hP, hQ, hrest⟩
          · exact Or.inl (.pass hE hT ih)
          · exact Or.inr ⟨y, x', .pass hE hT hxy, hP, hQ, hrest⟩
        · rcases ih with ih | ⟨y, x', -, -, hQ', hrest⟩
          · exact Or.inr ⟨_, _, .edge hE, hP, hQ, ih⟩
          · exact Or.inr ⟨_, x', .edge hE, hP, hQ', hrest⟩
  · have hmono : ∀ {x z}, Through E T x z → Through E (fun y x' => T y x' ∨ P y ∧ Q x') x z :=
      fun h => h.mono fun _ _ => Or.inl
    rintro (h | ⟨y, x', hxy, hP, hQ, hrest⟩)
    · exact hmono h
    · exact (hmono hxy).trans (Or.inr ⟨hP, hQ⟩) (hmono hrest)

end Contraction
