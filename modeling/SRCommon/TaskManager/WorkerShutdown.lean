import Mathlib.Logic.Relation
import SRCommon.TaskManager.ThreadWorker

/-!
# A worker that is shut down

`Update` tests for a shutdown behind a state that was executed with success
only. The flags are cleared by other threads, at any place of the call and also
between the two tests.
-/

namespace SRCommon

/-- Where a worker is in `Update`. -/
inductive UpdatePhase where
  | head
  | active
  | alive
  | returned
  deriving DecidableEq

/-- A call of `Update` so far, and how often it has called `Execute`. -/
structure UpdateCall where
  currentState : ℕ
  isActive : Bool := true
  isAlive : Bool := true
  phase : UpdatePhase := .head
  calls : ℕ := 0

inductive UpdateAction where
  | update
  | deactivate
  | stopAsync

/-- The number of states, and what the calls of `Execute` return one after the other. -/
structure UpdatedWorker where
  size : ℕ
  results : ℕ → ThreadWorkerResult

namespace UpdatedWorker

variable (this : UpdatedWorker)

def executed (s : UpdateCall) : UpdateCall :=
  match this.results s.calls with
  | .success => { s with phase := .active, calls := s.calls + 1 }
  | .repeat_ => { s with calls := s.calls + 1 }
  | .break_ => { s with currentState := 0, phase := .returned, calls := s.calls + 1 }
  | .working => { s with calls := s.calls + 1 }

def update (s : UpdateCall) : Option UpdateCall :=
  match s.phase with
  | .head =>
      some (if s.currentState < this.size then this.executed s
        else { s with currentState := 0, phase := .returned })
  | .active => some { s with phase := if s.isActive then .alive else .returned }
  | .alive =>
      some (if s.isAlive then { s with currentState := s.currentState + 1, phase := .head }
        else { s with phase := .returned })
  | .returned => none

def step (s : UpdateCall) : UpdateAction → Option UpdateCall
  | .update => this.update s
  | .deactivate => some { s with isActive := false }
  | .stopAsync => some { s with isAlive := false }

def Next (s s' : UpdateCall) : Prop := ∃ action, this.step s action = some s'

def Runs : UpdateCall → UpdateCall → Prop := Relation.ReflTransGen this.Next

/-- The next step of the worker but for its tests is a call of `Execute`. -/
def ExecutesNext (s : UpdateCall) : Prop :=
  match s.phase with
  | .head => s.currentState < this.size
  | .active => s.isActive ∧ s.isAlive ∧ s.currentState + 1 < this.size
  | .alive => s.isAlive ∧ s.currentState + 1 < this.size
  | .returned => False

end UpdatedWorker

def UpdateCall.IsShutDown (s : UpdateCall) : Prop := s.isActive = false ∨ s.isAlive = false

/-- The loop is left, or its test for a shutdown comes next. -/
def ThreadWorkerResult.Leaves (result : ThreadWorkerResult) : Prop :=
  result = .success ∨ result = .break_

namespace UpdatedWorker

variable {this : UpdatedWorker} {s s' : UpdateCall}

theorem isShutDown_next (h : s.IsShutDown) (hnext : this.Next s s') : s'.IsShutDown := by
  obtain ⟨action, hstep⟩ := hnext
  cases action with
  | update =>
      have hflags : s'.isActive = s.isActive ∧ s'.isAlive = s.isAlive := by
        simp only [step, update, executed] at hstep
        grind
      rw [UpdateCall.IsShutDown, hflags.1, hflags.2]
      exact h
  | deactivate =>
      cases hstep
      exact Or.inl rfl
  | stopAsync =>
      cases hstep
      exact Or.inr rfl

/-- A worker that is shut down makes no call later than its next step. -/
theorem not_executesNext_next (h : s.IsShutDown) (hs : ¬ this.ExecutesNext s)
    (hnext : this.Next s s') : ¬ this.ExecutesNext s' ∧ s'.calls = s.calls := by
  obtain ⟨action, hstep⟩ := hnext
  cases action with
  | update =>
      simp only [step, update] at hstep
      simp only [ExecutesNext, UpdateCall.IsShutDown] at h hs ⊢
      cases hphase : s.phase <;> grind
  | deactivate =>
      cases hstep
      simp only [ExecutesNext] at hs ⊢
      grind
  | stopAsync =>
      cases hstep
      simp only [ExecutesNext] at hs ⊢
      grind

/-- The call that is next is made, or still next, or no longer so. -/
theorem executesNext_next (h : s.IsShutDown) (hs : this.ExecutesNext s)
    (hleaves : (this.results s.calls).Leaves) (hnext : this.Next s s') :
    s'.calls = s.calls ∨ s'.calls = s.calls + 1 ∧ ¬ this.ExecutesNext s' := by
  obtain ⟨action, hstep⟩ := hnext
  cases action with
  | update =>
      simp only [step, update, executed] at hstep
      simp only [ExecutesNext, UpdateCall.IsShutDown] at h hs ⊢
      obtain hresult | hresult := hleaves <;> cases hphase : s.phase <;> grind
  | deactivate =>
      cases hstep
      exact Or.inl rfl
  | stopAsync =>
      cases hstep
      exact Or.inl rfl

/-- What holds while a worker that is shut down goes on: the one call is still to come, or it is
made and there is no other. -/
theorem runs_calls (h : s.IsShutDown) (hleaves : this.ExecutesNext s → (this.results s.calls).Leaves)
    (hruns : this.Runs s s') :
    s'.IsShutDown ∧ (this.ExecutesNext s ∧ s'.calls = s.calls ∨
      ¬ this.ExecutesNext s' ∧ s'.calls ≤ s.calls + 1) := by
  induction hruns with
  | refl =>
      refine ⟨h, ?_⟩
      by_cases hs : this.ExecutesNext s
      · exact Or.inl ⟨hs, rfl⟩
      · exact Or.inr ⟨hs, Nat.le_succ _⟩
  | @tail t t' _ hnext ih =>
      obtain ⟨hshut, hcases⟩ := ih
      refine ⟨isShutDown_next hshut hnext, ?_⟩
      by_cases ht : this.ExecutesNext t
      · obtain ⟨hs, hcalls⟩ := hcases.resolve_right fun hright => hright.1 ht
        rw [← hcalls] at hleaves
        obtain hsame | ⟨hcall, hnot⟩ := executesNext_next hshut ht (hleaves hs) hnext
        · exact Or.inl ⟨hs, hsame.trans hcalls⟩
        · exact Or.inr ⟨hnot, by omega⟩
      · obtain ⟨hnot, hcalls⟩ := not_executesNext_next hshut ht hnext
        have hle : t.calls ≤ s.calls + 1 := by
          obtain ⟨-, heq⟩ | ⟨-, hle⟩ := hcases
          · exact Nat.le_succ_of_le (Nat.le_of_eq heq)
          · exact hle
        exact Or.inr ⟨hnot, by omega⟩

/-- A result on which the loop goes on without a test is followed by another call. -/
theorem exists_runs_of_not_leaves (h : s.IsShutDown) (hs : this.ExecutesNext s)
    (hnot : ¬ (this.results s.calls).Leaves) : ∃ s', this.Runs s s' ∧ s'.calls = s.calls + 2 := by
  have hcalls (t : UpdateCall) : (this.executed t).calls = t.calls + 1 := by
    rw [executed]
    split <;> rfl
  -- From the head of the loop two calls are made in a row.
  have hhead (t : UpdateCall) (hphase : t.phase = .head) (hlt : t.currentState < this.size)
      (heq : t.calls = s.calls) : ∃ s', this.Runs t s' ∧ s'.calls = s.calls + 2 := by
    have hfirst : this.executed t = { t with calls := t.calls + 1 } := by
      rw [executed, heq]
      cases hresult : this.results s.calls with
      | success => exact absurd (Or.inl hresult) hnot
      | break_ => exact absurd (Or.inr hresult) hnot
      | repeat_ => rfl
      | working => rfl
    have hstep₁ : this.Next t (this.executed t) := ⟨.update, by simp [step, update, hphase, hlt]⟩
    have hstep₂ : this.Next (this.executed t) (this.executed (this.executed t)) :=
      ⟨.update, by simp [step, update, hfirst, hphase, hlt]⟩
    refine ⟨_, (Relation.ReflTransGen.single hstep₁).tail hstep₂, ?_⟩
    rw [hcalls, hcalls, heq]
  cases hphase : s.phase with
  | head =>
      rw [ExecutesNext, hphase] at hs
      exact hhead s hphase hs rfl
  | active =>
      rw [ExecutesNext, hphase] at hs
      obtain hactive | halive := h
      · exact absurd hs.1 (by simp [hactive])
      · exact absurd hs.2.1 (by simp [halive])
  | alive =>
      rw [ExecutesNext, hphase] at hs
      obtain ⟨halive, hlt⟩ := hs
      have hstep : this.Next s { s with currentState := s.currentState + 1, phase := .head } :=
        ⟨.update, by simp [step, update, hphase, halive]⟩
      obtain ⟨s', hruns, hcount⟩ :=
        hhead { s with currentState := s.currentState + 1, phase := .head } rfl hlt rfl
      exact ⟨s', hruns.head hstep, hcount⟩
  | returned =>
      rw [ExecutesNext, hphase] at hs
      exact hs.elim

/-- At most one more call is made if and only if the result of the next one leaves the loop or
leads to its test, where there is a next one. -/
theorem notices_shutdown_iff (this : UpdatedWorker) (s : UpdateCall) (h : s.IsShutDown) :
    (∀ s', this.Runs s s' → s'.calls ≤ s.calls + 1) ↔
      (this.ExecutesNext s → (this.results s.calls).Leaves) := by
  constructor
  · intro hle hs
    by_contra hnot
    obtain ⟨s', hruns, hcalls⟩ := exists_runs_of_not_leaves h hs hnot
    have := hle s' hruns
    omega
  · intro hleaves s' hruns
    obtain ⟨-, ⟨-, heq⟩ | ⟨-, hle⟩⟩ := runs_calls h hleaves hruns
    · exact Nat.le_succ_of_le (Nat.le_of_eq heq)
    · exact hle

/-- A state whose start condition is never met again. -/
theorem not_notices_shutdown :
    ¬ ∀ (this : UpdatedWorker) (s : UpdateCall), s.IsShutDown →
      ∀ s', this.Runs s s' → s'.calls ≤ s.calls + 1 := by
  intro h
  have hshut : UpdateCall.IsShutDown { currentState := 0, isAlive := false } := Or.inr rfl
  have hexists : ∃ s', (⟨1, fun _ => .repeat_⟩ : UpdatedWorker).Runs
      { currentState := 0, isAlive := false } s' ∧ s'.calls = 2 :=
    exists_runs_of_not_leaves hshut Nat.zero_lt_one (by simp [ThreadWorkerResult.Leaves])
  obtain ⟨s', hruns, hcalls⟩ := hexists
  have hle : s'.calls ≤ 1 := h _ _ hshut s' hruns
  omega

theorem notices_shutdown_iff_two :
    (∀ s', (⟨2, fun _ => .success⟩ : UpdatedWorker).Runs { currentState := 0, isAlive := false } s' →
        s'.calls ≤ 1) ∧
      ¬ ∀ s', (⟨2, fun _ => .repeat_⟩ : UpdatedWorker).Runs { currentState := 1, isActive := false }
        s' → s'.calls ≤ 1 :=
  ⟨(notices_shutdown_iff ⟨2, fun _ => .success⟩ { currentState := 0, isAlive := false }
      (Or.inr rfl)).mpr fun _ => Or.inl rfl,
    fun h => ((notices_shutdown_iff ⟨2, fun _ => .repeat_⟩ { currentState := 1, isActive := false }
      (Or.inl rfl)).mp h Nat.one_lt_two).elim ThreadWorkerResult.noConfusion
        ThreadWorkerResult.noConfusion⟩

end UpdatedWorker

end SRCommon
