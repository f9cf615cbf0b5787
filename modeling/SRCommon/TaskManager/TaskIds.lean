import SRCommon.Lib.PartialRun
import SRCommon.TaskManager.TaskManager

/-!
# Task ids

Every task is given the id zero, and no result is looked up. Ids tell tasks
apart in just the runs with one task, as long as that task goes on.
-/

namespace SRCommon

theorem TaskManager.not_isFinal_getResult (this : TaskManager) (taskId : UInt64) :
    (this.getResult taskId).isFinal = false := by
  rw [getResult]
  split <;> rfl

namespace TaskRuns

/-- What callers may take an id for. -/
structure Identified (s : TaskRuns) : Prop where
  nodup : ((s.manager.tasks.filter fun task => !task.state.isFinal).map Task.id).Nodup
  pending : ∀ task ∈ s.manager.tasks,
    s.manager.getResult task.id = if task.state.isFinal then task.state else .launched
  collected : ∀ entry ∈ s.collected, entry.2.isFinal ∧ s.manager.getResult entry.1 = entry.2

/-- There is one task at most, and it has not come to an end. -/
structure Single (s : TaskRuns) : Prop where
  collected : s.collected = []
  tasks : s.manager.tasks = [] ∨ ∃ task : Task, s.manager.tasks = [task] ∧
    task.id = 0 ∧ task.id ∈ s.manager.ids ∧ task.state.isFinal = false

/-- The step starts the first task, or does not bring a task to its end. -/
def KeepsSingle (s : TaskRuns) : TaskStep → Prop
  | .execute _ _ => s.manager.tasks = []
  | .pass outcome => ∀ task, s.current = some task → task.isWaiting → task.callable →
      task.thread = false → task.createThread = false → outcome.isFinal = false
  | .store n state => ∀ task, s.manager.tasks[n]? = some task → task.thread →
      state.isFinal = false
  | _ => True

variable {s : TaskRuns}

theorem Single.identified (h : s.Single) : s.Identified where
  nodup := by
    rcases h.tasks with htasks | ⟨task, htasks, -, -, hstate⟩
    · rw [htasks]
      exact List.nodup_nil
    · rw [htasks, List.filter_cons_of_pos (by rw [hstate]; rfl)]
      exact List.nodup_singleton _
  pending task hmem := by
    rcases h.tasks with htasks | ⟨task', htasks, -, hids, hstate⟩
    · rw [htasks] at hmem
      cases hmem
    · rw [htasks, List.mem_singleton] at hmem
      rw [hmem, hstate, TaskManager.getResult, if_pos hids]
      rfl
  collected entry hmem := by
    rw [h.collected] at hmem
    cases hmem

/-- The result of a task that has come to an end is not found. -/
theorem Identified.tasks_not_final (h : s.Identified) {task : Task}
    (hmem : task ∈ s.manager.tasks) : task.state.isFinal = false := by
  by_contra hfinal
  rw [Bool.not_eq_false] at hfinal
  have hresult := h.pending task hmem
  have hnot := s.manager.not_isFinal_getResult task.id
  rw [hresult, if_pos hfinal, hfinal] at hnot
  cases hnot

theorem Identified.collected_eq_nil (h : s.Identified) : s.collected = [] := by
  apply List.eq_nil_iff_forall_not_mem.mpr
  intro entry hmem
  obtain ⟨hfinal, hresult⟩ := h.collected entry hmem
  have hnot := s.manager.not_isFinal_getResult entry.1
  rw [hresult, hfinal] at hnot
  cases hnot

/-! ## Steps -/

theorem Single.execute (h : s.Single) (htasks : s.manager.tasks = []) (task : Task)
    (hstate : task.state.isFinal = false) :
    Single { s with manager := (s.manager.execute task).2 } where
  collected := h.collected
  tasks := by
    refine Or.inr ⟨{ task with id := TaskManager.getUniqueId }, ?_, rfl,
      Finset.mem_insert_self _ _, hstate⟩
    rw [TaskManager.execute, htasks]
    rfl

theorem single_execute_iff (h : s.Single) (callable createThread : Bool) :
    Identified { s with manager := (s.manager.execute { createThread, callable }).2 } ↔
      s.manager.tasks = [] := by
  constructor
  · intro hidentified
    rcases h.tasks with htasks | ⟨task, htasks, hid, -, hstate⟩
    · exact htasks
    · have hnodup := hidentified.nodup
      rw [TaskManager.execute, htasks, List.singleton_append,
        List.filter_cons_of_pos (by rw [hstate]; rfl), List.filter_cons_of_pos rfl, List.map_cons,
        hid] at hnodup
      exact absurd List.mem_cons_self (List.nodup_cons.mp hnodup).1
  · intro htasks
    exact (h.execute htasks { createThread, callable } rfl).identified

/-- A change of the one task that keeps its id and does not end it. -/
theorem Single.set (h : s.Single) {n : ℕ} {task : Task} (hget : s.manager.tasks[n]? = some task)
    {task' : Task} (hid : task'.id = task.id) (hstate : task'.state.isFinal = false)
    (pIt : Option ℕ) :
    Single { s with
      manager := { s.manager with tasks := s.manager.tasks.set n task' }
      pIt := pIt } where
  collected := h.collected
  tasks := by
    rcases h.tasks with htasks | ⟨task₀, htasks, hid₀, hids, -⟩
    · rw [htasks] at hget
      cases hget
    · rw [htasks] at hget
      cases n with
      | succ n => cases hget
      | zero =>
          obtain rfl := Option.some.inj hget
          refine Or.inr ⟨task', ?_, hid.trans hid₀, hid ▸ hids, hstate⟩
          change s.manager.tasks.set 0 task' = [task']
          rw [htasks]
          rfl

theorem Single.not_isFinal (h : s.Single) {n : ℕ} {task : Task}
    (hget : s.manager.tasks[n]? = some task) : task.state.isFinal = false :=
  h.identified.tasks_not_final (List.mem_of_getElem? hget)

/-- What a pass makes of a task. -/
theorem visited_cases (task : Task) (outcome : Task.State) :
    (TaskManager.visited task outcome).id = task.id ∧
      ((TaskManager.visited task outcome).state = task.state ∨
        (TaskManager.visited task outcome).state = .launched ∨
        (task.isWaiting ∧ task.callable ∧ task.thread = false ∧ task.createThread = false ∧
          TaskManager.visited task outcome = { task with state := outcome })) := by
  rw [TaskManager.visited]
  split
  · next hwaiting =>
    rw [Task.run]
    split
    · exact ⟨rfl, Or.inl rfl⟩
    · next hready =>
      push Not at hready
      obtain ⟨-, hcallable, hthread⟩ := hready
      split
      · exact ⟨rfl, Or.inr (Or.inl rfl)⟩
      · next hcreate =>
        exact ⟨rfl, Or.inr (Or.inr ⟨hwaiting, hcallable, Bool.eq_false_iff.mpr hthread,
          Bool.eq_false_iff.mpr hcreate, rfl⟩)⟩
  · exact ⟨rfl, Or.inl rfl⟩

theorem single_pass (h : s.Single) {task : Task} {pIt : ℕ}
    (hget : s.manager.tasks[pIt]? = some task) {outcome : Task.State}
    (hstate : (TaskManager.visited task outcome).state.isFinal = false) :
    (s.pass (TaskManager.visited task outcome) pIt).Single := by
  have hgoes : (TaskManager.visited task outcome).isCompleted = false := by
    rw [Task.isCompleted, hstate, Bool.false_and]
  rw [pass, hgoes]
  exact h.set hget (visited_cases task outcome).1 hstate (some (pIt + 1))

theorem isFinal_visited (h : s.Single) {task : Task} {pIt : ℕ}
    (hget : s.manager.tasks[pIt]? = some task) {outcome : Task.State}
    (hkeeps : task.isWaiting → task.callable → task.thread = false → task.createThread = false →
      outcome.isFinal = false) :
    (TaskManager.visited task outcome).state.isFinal = false := by
  obtain ⟨-, hsame | hlaunched | ⟨hwaiting, hcallable, hthread, hcreate, hvisited⟩⟩ :=
    visited_cases task outcome
  · rw [hsame]
    exact h.not_isFinal hget
  · rw [hlaunched]
    rfl
  · rw [hvisited]
    exact hkeeps hwaiting hcallable hthread hcreate

/-- A task that ends within the loop leaves no result that is found. -/
theorem not_identified_pass {task : Task} {pIt : ℕ} {outcome : Task.State}
    (hthread : task.thread = false) (hfinal : outcome.isFinal)
    (hvisited : TaskManager.visited task outcome = { task with state := outcome }) :
    ¬ (s.pass (TaskManager.visited task outcome) pIt).Identified := by
  intro hidentified
  have hcompleted : (TaskManager.visited task outcome).isCompleted := by
    rw [hvisited, Task.isCompleted, hfinal, hthread]
    rfl
  have hnil := hidentified.collected_eq_nil
  rw [pass, if_pos hcompleted] at hnil
  exact absurd hnil (by simp)

theorem keepsSingle_step (h : s.Single) {i : TaskStep} {r : TaskRuns × Option UInt64}
    (hi : s.KeepsSingle i) (hr : step s i = some r) : r.1.Single := by
  cases i with
  | execute callable createThread =>
      obtain rfl := Option.some.inj hr
      exact h.execute hi { createThread, callable } rfl
  | begin_ =>
      obtain ⟨-, hr⟩ := Option.ite_none_right_eq_some.mp hr
      obtain rfl := Option.some.inj hr
      exact ⟨h.collected, h.tasks⟩
  | pass outcome =>
      obtain ⟨pIt, hpIt, hr⟩ := Option.bind_eq_some_iff.mp hr
      obtain ⟨task, hget, hr⟩ := Option.bind_eq_some_iff.mp hr
      obtain rfl := Option.some.inj hr
      have hcurrent : s.current = some task := by rw [current, hpIt, Option.bind_some, hget]
      exact single_pass h hget (isFinal_visited h hget (hi task hcurrent))
  | end_ =>
      obtain ⟨-, hr⟩ := Option.ite_none_right_eq_some.mp hr
      obtain rfl := Option.some.inj hr
      exact ⟨h.collected, h.tasks⟩
  | store n state =>
      obtain ⟨task, hget, hr⟩ := Option.bind_eq_some_iff.mp hr
      obtain ⟨hthread, hr⟩ := Option.ite_none_right_eq_some.mp hr
      obtain rfl := Option.some.inj hr
      have hstate : state.isFinal = false := hi task hget hthread
      have hid : ({ task with state } : Task).id = task.id := rfl
      exact h.set hget hid hstate s.pIt

theorem identified_step_iff (h : s.Single) {i : TaskStep} {r : TaskRuns × Option UInt64}
    (hr : step s i = some r) : r.1.Identified ↔ s.KeepsSingle i := by
  refine ⟨fun hidentified => ?_, fun hi => (keepsSingle_step h hi hr).identified⟩
  cases i with
  | execute callable createThread =>
      obtain rfl := Option.some.inj hr
      exact (single_execute_iff h callable createThread).mp hidentified
  | pass outcome =>
      obtain ⟨pIt, hpIt, hr⟩ := Option.bind_eq_some_iff.mp hr
      obtain ⟨task, hget, hr⟩ := Option.bind_eq_some_iff.mp hr
      obtain rfl := Option.some.inj hr
      intro task' hcurrent hwaiting hcallable hthread hcreate
      rw [current, hpIt, Option.bind_some, hget] at hcurrent
      obtain rfl := Option.some.inj hcurrent
      by_contra hfinal
      refine not_identified_pass hthread (Bool.not_eq_false _ ▸ hfinal) ?_ hidentified
      have hrun : task.run outcome = some { task with state := outcome } := by
        have hstate : task.state = .waiting := of_decide_eq_true hwaiting
        rw [Task.run, if_neg (by simp [hstate, hcallable, hthread]), if_neg (by simp [hcreate])]
      rw [TaskManager.visited, if_pos hwaiting, hrun, Option.getD_some]
  | store n state =>
      obtain ⟨task, hget, hr⟩ := Option.bind_eq_some_iff.mp hr
      obtain ⟨hthread, hr⟩ := Option.ite_none_right_eq_some.mp hr
      obtain rfl := Option.some.inj hr
      intro task' _ _
      exact hidentified.tasks_not_final
        (List.mem_set (List.getElem?_eq_some_iff.mp hget).1 { task with state })
  | begin_ => trivial
  | end_ => trivial

theorem keepsSingle_of_step_eq_none {i : TaskStep} (hr : step s i = none) : s.KeepsSingle i := by
  cases i with
  | execute callable createThread => cases hr
  | pass outcome =>
      intro task hcurrent
      obtain ⟨pIt, hpIt, hget⟩ := Option.bind_eq_some_iff.mp hcurrent
      rw [step, hpIt, Option.bind_eq_bind, Option.bind_some, hget] at hr
      cases hr
  | store n state =>
      intro task hget hthread
      rw [step, hget, Option.bind_eq_bind, Option.bind_some, if_pos hthread] at hr
      cases hr
  | begin_ => trivial
  | end_ => trivial

theorem single_initial : Single ({} : TaskRuns) := ⟨rfl, Or.inl rfl⟩

/-- Ids tell tasks apart in just the runs that execute one task at most and do not end it. -/
theorem identified_iff_keepsSingle (is : List TaskStep) :
    Steps.Throughout step (fun _ _ s' => s'.Identified) ({} : TaskRuns) is ↔
      Steps.Along step KeepsSingle ({} : TaskRuns) is :=
  Steps.throughout_iff_along_of_keeps (I := Single) (fun _ _ _ h hr => identified_step_iff h hr)
    (fun _ _ _ h hi hr => keepsSingle_step h hi hr)
    (fun _ _ _ hr => keepsSingle_of_step_eq_none hr) single_initial is

/-- Two tasks in the queue have one id, and the result of a task that has ended is unknown. -/
theorem not_identified :
    ¬ Steps.Throughout step (fun _ _ s' => s'.Identified) ({} : TaskRuns)
        [.execute true false, .execute true false] ∧
      ¬ Steps.Throughout step (fun _ _ s' => s'.Identified) ({} : TaskRuns)
        [.execute true false, .begin_, .pass .completed, .end_] := by
  constructor
  · intro h
    have hnodup := ((h _ rfl).2 _ rfl).1.nodup
    exact absurd hnodup (by decide)
  · intro h
    have hcollected := (((h _ rfl).2 _ rfl).2 _ rfl).1.collected_eq_nil
    cases hcollected

end TaskRuns

end SRCommon
