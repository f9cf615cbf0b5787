import Mathlib.Data.Set.Card
import Mathlib.Logic.Function.Basic

/-!
# Counted references

Holders refer to one thing each or to nothing, and a thing is referred to by
finitely many of them.
-/

namespace References

section

variable {η β : Type*} {f : η → Option β} {h g : η} {b : β}

noncomputable def count (f : η → Option β) (b : β) : ℕ := {h | f h = some b}.ncard

def FinitelyMany (f : η → Option β) : Prop := {h | f h ≠ none}.Finite

theorem FinitelyMany.finite (hf : FinitelyMany f) (b : β) : {h | f h = some b}.Finite := by
  refine hf.subset fun h hh => ?_
  rw [Set.mem_ofPred_eq] at hh ⊢
  rw [hh]
  exact Option.some_ne_none b

theorem FinitelyMany.update [DecidableEq η] (hf : FinitelyMany f) (h : η) (y : Option β) :
    FinitelyMany (Function.update f h y) := by
  refine (Set.Finite.insert h hf).subset fun g hg => ?_
  by_cases hgh : g = h
  · exact .inl hgh
  · right
    rw [Set.mem_ofPred_eq, Function.update_of_ne hgh] at hg
    exact hg

/-- One holder is counted apart from the others. -/
theorem FinitelyMany.count_eq [DecidableEq β] (hf : FinitelyMany f) (h : η) (b : β) :
    count f b = {g | g ≠ h ∧ f g = some b}.ncard + if f h = some b then 1 else 0 := by
  have hothers : {g | g ≠ h ∧ f g = some b}.Finite := (hf.finite b).subset fun g hg => hg.2
  split
  · rename_i hb
    have hinsert : {g | f g = some b} = insert h {g | g ≠ h ∧ f g = some b} := by
      ext g
      by_cases hgh : g = h
      · simp [hgh, hb]
      · simp [hgh]
    rw [count, hinsert, Set.ncard_insert_of_notMem (fun hmem => hmem.1 rfl) hothers]
  · rename_i hb
    have hsame : {g | f g = some b} = {g | g ≠ h ∧ f g = some b} := by
      ext g
      by_cases hgh : g = h
      · simp [hgh, hb]
      · simp [hgh]
    rw [count, hsame, Nat.add_zero]

/-- What a holder leaves loses one reference, and what it takes gets one more. -/
theorem FinitelyMany.count_update [DecidableEq η] [DecidableEq β] (hf : FinitelyMany f) (h : η)
    (y : Option β) (b : β) :
    count (Function.update f h y) b + (if f h = some b then 1 else 0) =
      count f b + if y = some b then 1 else 0 := by
  have hothers : {g | g ≠ h ∧ Function.update f h y g = some b} =
      {g | g ≠ h ∧ f g = some b} := by
    ext g
    refine and_congr_right fun hgh => ?_
    rw [Function.update_of_ne hgh]
  rw [hf.count_eq h b, (hf.update h y).count_eq h b, hothers, Function.update_self]
  omega

theorem FinitelyMany.count_pos (hf : FinitelyMany f) (hb : f h = some b) : 0 < count f b :=
  (Set.ncard_pos (hf.finite b)).mpr ⟨h, hb⟩

theorem exists_of_count_pos (hpos : 0 < count f b) : ∃ h, f h = some b :=
  Set.nonempty_of_ncard_ne_zero hpos.ne'

theorem count_eq_zero (hnone : ∀ h, f h ≠ some b) : count f b = 0 := by
  have hempty : {h | f h = some b} = ∅ := Set.eq_empty_of_forall_notMem hnone
  rw [count, hempty, Set.ncard_empty]

end

end References
