import Mathlib.Data.List.DropRight
import Mathlib.Tactic.Common

/-!
# Bounded undo and redo stacks

The stacks keep the states around each executed command. Undoing restores the
state before it, and redoing the state after it.
-/

namespace Undo

structure Step (σ κ : Type*) where
  command : κ
  before : σ
  after : σ

/-- The latest step is the last of `undo`, and the next one is the first of `redo`. -/
structure Stack (σ κ : Type*) where
  state : σ
  undo : List (Step σ κ) := []
  redo : List (Step σ κ) := []

inductive Request (κ : Type*) where
  | execute (command : κ)
  | cancel
  | redo

variable {σ κ : Type*}

section

variable (apply : κ → σ → σ) (max : ℕ)

namespace Stack

def execute (r : Stack σ κ) (k : κ) : Stack σ κ where
  state := apply k r.state
  undo := List.rtake (r.undo ++ [⟨k, r.state, apply k r.state⟩]) max

def cancel (r : Stack σ κ) : Stack σ κ :=
  match r.undo.getLast? with
  | none => r
  | some step =>
      { state := step.before, undo := r.undo.dropLast, redo := step :: r.redo }

def again (r : Stack σ κ) : Stack σ κ :=
  match r.redo with
  | [] => r
  | step :: rest => { state := step.after, undo := r.undo ++ [step], redo := rest }

def take (r : Stack σ κ) : Request κ → Stack σ κ
  | .execute k => r.execute apply max k
  | .cancel => r.cancel
  | .redo => r.again

end Stack

/-- The steps lead from one state to another. -/
def Path : σ → List (Step σ κ) → σ → Prop
  | a, [], b => a = b
  | a, step :: steps, b =>
      step.before = a ∧ step.after = apply step.command a ∧ Path step.after steps b

structure Stack.Linked (r : Stack σ κ) : Prop where
  undo : ∃ a, Path apply a r.undo r.state
  redo : ∃ b, Path apply r.state r.redo b

end

section

variable {apply : κ → σ → σ} {max : ℕ} {r r' : Stack σ κ} {step : Step σ κ}
  {steps steps' : List (Step σ κ)}

theorem path_cons {a b : σ} : Path apply a (step :: steps) b ↔
    step.before = a ∧ step.after = apply step.command a ∧ Path apply step.after steps b := Iff.rfl

theorem path_append {a b : σ} :
    Path apply a (steps ++ steps') b ↔ ∃ c, Path apply a steps c ∧ Path apply c steps' b := by
  induction steps generalizing a with
  | nil => exact ⟨fun h => ⟨a, rfl, h⟩, by rintro ⟨c, rfl, h⟩; exact h⟩
  | cons step steps ih =>
      rw [List.cons_append, path_cons, ih]
      constructor
      · rintro ⟨hbefore, hafter, c, hc, hrest⟩
        exact ⟨c, ⟨hbefore, hafter, hc⟩, hrest⟩
      · rintro ⟨c, ⟨hbefore, hafter, hc⟩, hrest⟩
        exact ⟨hbefore, hafter, c, hc, hrest⟩

theorem Stack.linked_initial (a : σ) : (Stack.mk a [] [] : Stack σ κ).Linked apply where
  undo := ⟨a, rfl⟩
  redo := ⟨a, rfl⟩

/-! ## The step next to the state -/

theorem Stack.cancel_eq (h : r.undo = steps ++ [step]) :
    r.cancel = { state := step.before, undo := steps, redo := step :: r.redo } := by
  rw [Stack.cancel, h, List.getLast?_concat, List.dropLast_concat]

theorem Stack.cancel_of_nil (h : r.undo = []) : r.cancel = r := by
  rw [Stack.cancel, h]
  rfl

theorem Stack.again_eq (h : r.redo = step :: steps) :
    r.again = { state := step.after, undo := r.undo ++ [step], redo := steps } := by
  rw [Stack.again, h]

theorem Stack.again_of_nil (h : r.redo = []) : r.again = r := by
  rw [Stack.again, h]

theorem Stack.Linked.state_eq (h : r.Linked apply) (hundo : r.undo = steps ++ [step]) :
    r.state = apply step.command step.before := by
  obtain ⟨a, ha⟩ := h.undo
  rw [hundo, path_append] at ha
  obtain ⟨c, -, hbefore, hafter, hstate⟩ := ha
  rw [← hstate, hafter, hbefore]

theorem Stack.Linked.after_eq (h : r.Linked apply) (hredo : r.redo = step :: steps) :
    step.after = apply step.command r.state := by
  obtain ⟨b, hb⟩ := h.redo
  rw [hredo] at hb
  exact hb.2.1

theorem Stack.Linked.cancel (h : r.Linked apply) : r.cancel.Linked apply := by
  rcases r.undo.eq_nil_or_concat' with hundo | ⟨steps, step, hundo⟩
  · rwa [Stack.cancel_of_nil hundo]
  · have hstate := h.state_eq hundo
    obtain ⟨a, ha⟩ := h.undo
    obtain ⟨b, hb⟩ := h.redo
    rw [hundo, path_append] at ha
    obtain ⟨c, hc, hbefore, hafter, hlast⟩ := ha
    rw [Stack.cancel_eq hundo]
    exact ⟨⟨a, hbefore ▸ hc⟩, b, rfl, hbefore ▸ hafter, hlast ▸ hb⟩

theorem Stack.Linked.again (h : r.Linked apply) : r.again.Linked apply := by
  cases hredo : r.redo with
  | nil => rwa [Stack.again_of_nil hredo]
  | cons step steps =>
      obtain ⟨a, ha⟩ := h.undo
      obtain ⟨b, hb⟩ := h.redo
      rw [hredo] at hb
      rw [Stack.again_eq hredo]
      exact ⟨⟨a, path_append.mpr ⟨r.state, ha, hb.1, hb.2.1, rfl⟩⟩, b, hb.2.2⟩

theorem Stack.Linked.execute (h : r.Linked apply) (k : κ) : (r.execute apply max k).Linked apply := by
  obtain ⟨a, ha⟩ := h.undo
  constructor
  · have hpath : Path apply a (r.undo ++ [⟨k, r.state, apply k r.state⟩]) (apply k r.state) :=
      path_append.mpr ⟨r.state, ha, rfl, rfl, rfl⟩
    rw [← List.take_append_drop ((r.undo ++ [_]).length - max) (r.undo ++ [_]),
      path_append] at hpath
    obtain ⟨c, -, hc⟩ := hpath
    exact ⟨c, hc⟩
  · exact ⟨_, rfl⟩

theorem Stack.Linked.clearRedo (h : r.Linked apply) : ({ r with redo := [] }).Linked apply where
  undo := h.undo
  redo := ⟨r.state, rfl⟩

/-! ## Requests that leave the undone steps alone -/

/-- Starting with `n` steps on the undo stack, no request redoes more than the first `done`
steps. What comes behind a new command is not looked at. -/
def LeavesUndone (done : ℕ) : ℕ → List (Request κ) → Prop
  | _, [] => True
  | n, .cancel :: requests => LeavesUndone done (n - 1) requests
  | n, .redo :: requests => n < done ∧ LeavesUndone done (n + 1) requests
  | _, .execute _ :: _ => True

/-- The stacks agree but for steps that only the first one can redo. -/
structure Stack.Extends (r r' : Stack σ κ) : Prop where
  state : r.state = r'.state
  undo : r.undo = r'.undo
  redo : ∃ rest, r.redo = r'.redo ++ rest

theorem Stack.Extends.refl (r : Stack σ κ) : r.Extends r := ⟨rfl, rfl, [], (List.append_nil _).symm⟩

theorem Stack.Extends.execute (h : r.Extends r') (k : κ) :
    r.execute apply max k = r'.execute apply max k := by
  rw [Stack.execute, Stack.execute, h.state, h.undo]

theorem Stack.extends_clearRedo (r : Stack σ κ) : r.Extends { r with redo := [] } :=
  ⟨rfl, rfl, r.redo, rfl⟩

theorem Stack.Extends.foldl {requests : List (Request κ)} {done : ℕ} (h : r.Extends r')
    (hdone : r.undo.length + r'.redo.length = done)
    (hleaves : LeavesUndone done r.undo.length requests) :
    (requests.foldl (Stack.take apply max) r).Extends
      (requests.foldl (Stack.take apply max) r') := by
  induction requests generalizing r r' with
  | nil => exact h
  | cons request requests ih =>
      rw [List.foldl_cons, List.foldl_cons]
      cases request with
      | execute k =>
          have heq : r.take apply max (.execute k) = r'.take apply max (.execute k) := h.execute k
          rw [heq]
          exact Stack.Extends.refl _
      | cancel =>
          obtain ⟨rest, hrest⟩ := h.redo
          rcases r.undo.eq_nil_or_concat' with hundo | ⟨steps, step, hundo⟩
          · have hundo' : r'.undo = [] := h.undo.symm.trans hundo
            have hr : r.take apply max .cancel = r := Stack.cancel_of_nil hundo
            have hr' : r'.take apply max .cancel = r' := Stack.cancel_of_nil hundo'
            rw [hr, hr']
            have hzero : r.undo.length - 1 = r.undo.length := by rw [hundo]; rfl
            rw [LeavesUndone, hzero] at hleaves
            exact ih h hdone hleaves
          · have hundo' : r'.undo = steps ++ [step] := h.undo.symm.trans hundo
            have hr : r.take apply max .cancel = _ := Stack.cancel_eq hundo
            have hr' : r'.take apply max .cancel = _ := Stack.cancel_eq hundo'
            rw [hr, hr']
            rw [LeavesUndone, hundo, List.length_append, List.length_singleton,
              Nat.add_sub_cancel] at hleaves
            rw [hundo, List.length_append, List.length_singleton] at hdone
            refine ih ⟨rfl, rfl, rest, ?_⟩ ?_ hleaves
            · dsimp only
              rw [hrest]
              rfl
            · dsimp only
              rw [List.length_cons]
              omega
      | redo =>
          obtain ⟨rest, hrest⟩ := h.redo
          obtain ⟨hn, hleaves⟩ := hleaves
          cases hredo' : r'.redo with
          | nil =>
              rw [hredo', List.length_nil] at hdone
              omega
          | cons step steps =>
              have hredo : r.redo = step :: (steps ++ rest) := by rw [hrest, hredo']; rfl
              have hr : r.take apply max .redo = _ := Stack.again_eq hredo
              have hr' : r'.take apply max .redo = _ := Stack.again_eq hredo'
              rw [hr, hr']
              rw [hredo', List.length_cons] at hdone
              refine ih ⟨rfl, ?_, rest, rfl⟩ ?_ ?_
              · dsimp only
                rw [h.undo]
              · dsimp only
                rw [List.length_append, List.length_singleton]
                omega
              · dsimp only
                rwa [List.length_append, List.length_singleton]

end

end Undo
