import Mathlib.Data.List.Basic
import Mathlib.Logic.Function.Basic
import Mathlib.Tactic.Common
import SRCommon.Lib.PartialRun

/-!
# Stack

The nodes are linked from the top down. A copy goes the same way and pushes
what it meets, so that the top of the one is the bottom of the other.
-/

namespace SRCommon

/-- The data of the nodes, from the head on. -/
structure Stack (T : Type) where
  head : List T := []
  size : UInt64 := 0

namespace Stack

variable {T : Type}

def push (s : Stack T) (value : T) : Stack T where
  head := value :: s.head
  size := s.size + 1

/-- An empty stack has no node to read. -/
def pop (s : Stack T) : Option (Stack T × T) :=
  match s.head with
  | [] => none
  | data :: next => some ({ head := next, size := s.size - 1 }, data)

def clear (_ : Stack T) : Stack T := { head := [], size := 0 }

/-- `Push` for each of the nodes that follow. -/
def pushNodes (s : Stack T) : List T → Stack T
  | [] => s
  | data :: next => pushNodes (s.push data) next

/-- The copy constructor. -/
def copy (other : Stack T) : Stack T := pushNodes {} other.head

/-- `operator=` on the objects of a program, which are told apart by their addresses. -/
def assign {ι : Type} [DecidableEq ι] (objects : ι → Stack T) (this other : ι) : ι → Stack T :=
  if this = other then objects
  else Function.update objects this (pushNodes (objects this).clear (objects other).head)

inductive Call (T : Type) where
  | push (value : T)
  | pop

def step (s : Stack T) : Call T → Option (Stack T × Option T)
  | .push value => some (s.push value, none)
  | .pop => s.pop.map fun r => (r.1, some r.2)

/-- `Pop` until no node is left. -/
inductive Pops : Stack T → List T → Prop
  | last {s : Stack T} (h : s.pop = none) : Pops s []
  | next {s s' : Stack T} {value : T} {values : List T} (h : s.pop = some (s', value))
      (hrest : Pops s' values) : Pops s (value :: values)

/-- Two objects cannot be told apart by popping them to the end. -/
structure Alike (s t : Stack T) : Prop where
  size_eq : s.size = t.size
  pops_iff : ∀ values, s.Pops values ↔ t.Pops values

variable {s t : Stack T}

theorem pop_eq_none (h : s.head = []) : s.pop = none := by
  rw [pop, h]

theorem pop_eq_some {data : T} {next : List T} (h : s.head = data :: next) :
    s.pop = some ({ head := next, size := s.size - 1 }, data) := by
  rw [pop, h]

theorem pops_iff_head {values : List T} : s.Pops values ↔ s.head = values := by
  constructor
  · intro h
    induction h with
    | @last s h =>
        cases hs : s.head with
        | nil => rfl
        | cons data next =>
            rw [pop_eq_some hs] at h
            cases h
    | @next s s' value values h _ ih =>
        cases hs : s.head with
        | nil =>
            rw [pop_eq_none hs] at h
            cases h
        | cons data next =>
            rw [pop_eq_some hs] at h
            cases h
            exact congrArg (value :: ·) ih
  · intro h
    induction values generalizing s with
    | nil => exact .last (pop_eq_none h)
    | cons value values ih => exact .next (pop_eq_some h) (ih rfl)

theorem alike_iff : Alike s t ↔ s.size = t.size ∧ s.head = t.head := by
  constructor
  · rintro ⟨hsize, hpops⟩
    exact ⟨hsize, (pops_iff_head.mp ((hpops s.head).mp (pops_iff_head.mpr rfl))).symm⟩
  · rintro ⟨hsize, hhead⟩
    refine ⟨hsize, fun values => ?_⟩
    rw [pops_iff_head, pops_iff_head, hhead]

/-! ## Sizes -/

/-- The size counts the nodes, as far as it can. -/
def Counted (s : Stack T) : Prop := s.size = UInt64.ofNat s.head.length

theorem counted_empty : ({} : Stack T).Counted := rfl

theorem Counted.push (h : s.Counted) (value : T) : (s.push value).Counted := by
  rw [Counted] at h ⊢
  simp [Stack.push, h]

theorem Counted.pop (h : s.Counted) {r : Stack T × T} (hr : s.pop = some r) : r.1.Counted := by
  cases hs : s.head with
  | nil =>
      rw [pop_eq_none hs] at hr
      cases hr
  | cons data next =>
      rw [pop_eq_some hs] at hr
      cases hr
      rw [Counted] at h ⊢
      simp [h, hs]

theorem Counted.step (h : s.Counted) {call : Call T} {r : Stack T × Option T}
    (hr : s.step call = some r) : r.1.Counted := by
  cases call with
  | push value =>
      cases hr
      exact h.push value
  | pop =>
      obtain ⟨q, hq, rfl⟩ := Option.map_eq_some_iff.mp hr
      exact h.pop hq

theorem counted_of_run {calls : List (Call T)} {r : Stack T × List (Option T)}
    (h : Steps.run step {} calls = some r) : r.1.Counted :=
  Steps.run_invariant (I := Counted) (fun _ _ _ hs hr => hs.step hr) counted_empty h

/-! ## Copies -/

theorem head_pushNodes (s : Stack T) (nodes : List T) :
    (s.pushNodes nodes).head = nodes.reverse ++ s.head := by
  induction nodes generalizing s with
  | nil => rfl
  | cons data next ih =>
      rw [pushNodes, ih, List.reverse_cons, List.append_assoc]
      rfl

theorem Counted.pushNodes (h : s.Counted) (nodes : List T) : (s.pushNodes nodes).Counted := by
  induction nodes generalizing s with
  | nil => exact h
  | cons data next ih => exact ih (h.push data)

/-- A copy has the size of the stack and its values the other way round. -/
theorem alike_pushNodes_iff (h : s.Counted) :
    Alike s (pushNodes {} s.head) ↔ s.head = s.head.reverse := by
  have hcopy : (pushNodes {} s.head).Counted := counted_empty.pushNodes s.head
  have hhead := head_pushNodes {} s.head
  rw [List.append_nil] at hhead
  have hsize : s.size = (pushNodes {} s.head).size := by
    rw [h, hcopy, hhead, List.length_reverse]
  rw [alike_iff, and_iff_right hsize, hhead]

theorem copyAlike_iff {ι : Type} [DecidableEq ι] (calls : List (Call T)) (s : Stack T)
    (h : ∃ answers, Steps.run step {} calls = some (s, answers)) :
    (Alike s s.copy ↔ s.head = s.head.reverse) ∧
      ∀ (objects : ι → Stack T) (this other : ι), objects other = s →
        (Alike (assign objects this other other) (assign objects this other this) ↔
          this = other ∨ s.head = s.head.reverse) := by
  obtain ⟨answers, hrun⟩ := h
  have hcounted : s.Counted := counted_of_run hrun
  refine ⟨alike_pushNodes_iff hcounted, ?_⟩
  rintro objects this other rfl
  by_cases hself : this = other
  · subst hself
    exact iff_of_true (alike_iff.mpr ⟨rfl, rfl⟩) (.inl rfl)
  · have hthis : assign objects this other this = pushNodes {} (objects other).head := by
      rw [assign, if_neg hself, Function.update_self]
      rfl
    have hother : assign objects this other other = objects other := by
      rw [assign, if_neg hself, Function.update_of_ne (Ne.symm hself)]
    rw [hthis, hother, alike_pushNodes_iff hcounted, or_iff_right hself]

/-- A stack that reads the same both ways. -/
theorem copyAlike_palindrome :
    ∃ s : Stack ℕ, s.head = [1, 2, 1] ∧ Alike s s.copy ∧
      Alike (assign (fun _ => s) false true true) (assign (fun _ => s) false true false) := by
  have h := copyAlike_iff (ι := Bool) [.push 1, .push 2, .push 3, .pop, .push 1]
    { head := [1, 2, 1], size := 3 } ⟨[none, none, none, some 3, none], rfl⟩
  exact ⟨_, rfl, h.1.mpr rfl, (h.2 (fun _ => _) false true rfl).mpr (.inr rfl)⟩

theorem not_alike_copies :
    ∃ s : Stack ℕ, ∃ answers, Steps.run step {} [.push 1, .push 2] = some (s, answers) ∧
      ¬ Alike s s.copy ∧
      ¬ Alike (assign (fun _ => s) false true true) (assign (fun _ => s) false true false) := by
  refine ⟨_, _, rfl, fun h => ?_, fun h => ?_⟩
  · exact absurd (alike_iff.mp h).2 (by decide)
  · exact absurd (alike_iff.mp h).2 (by decide)

end Stack

end SRCommon
