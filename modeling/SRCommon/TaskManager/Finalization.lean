import Mathlib.Data.List.Nodup
import Mathlib.Logic.Relation
import SRCommon.TaskManager.ThreadWorker

/-!
# Stopping the workers

Once the workers are no longer alive each goes over its states and finalizes
those that are first in the list. `Stop` waits for an empty list and then
deactivates the workers one after the other. A name leaves the list before its
state is finalized, and every thread may go on in between.
-/

namespace SRCommon

/-- The names of the document, each of them once. -/
def addFinalize (finalize : List Text) (item : Option Text) : List Text :=
  item.elim finalize fun name => if name ∈ finalize then finalize else finalize ++ [name]

def loadFinalize (items : List (Option Text)) : List Text := items.foldl addFinalize []

theorem nodup_addFinalize {finalize : List Text} (h : finalize.Nodup) (item : Option Text) :
    (addFinalize finalize item).Nodup := by
  cases item with
  | none => exact h
  | some name =>
      rw [addFinalize, Option.elim_some]
      split
      · exact h
      · next hnew =>
          rw [← List.concat_eq_append]
          exact (List.nodup_concat finalize name).mpr ⟨hnew, h⟩

theorem nodup_loadFinalize (items : List (Option Text)) : (loadFinalize items).Nodup :=
  List.foldlRecOn items addFinalize List.nodup_nil fun _ h item _ => nodup_addFinalize h item

/-- Only `Load` writes the list of names to finalize. -/
structure FinalizedThreads extends ThreadsWorker where
  finalize : List Text
  nodup : finalize.Nodup

def FinalizedThreads.load (registered : Text → Bool) (items : List (Option Text))
    (threads : List ThreadNode) : FinalizedThreads where
  toThreadsWorker := ThreadsWorker.load registered threads
  finalize := loadFinalize items
  nodup := nodup_loadFinalize items

/-- Whether the name was the first, and the list after that. -/
def checkFinalize (name : Text) : List Text → Bool × List Text
  | [] => (false, [])
  | front :: rest => if front = name then (true, rest) else (false, front :: rest)

theorem checkFinalize_cons (name : Text) (rest : List Text) :
    checkFinalize name (name :: rest) = (true, rest) := if_pos rfl

theorem checkFinalize_cases (name : Text) (finalize : List Text) :
    checkFinalize name finalize = (false, finalize) ∨ ∃ rest, finalize = name :: rest := by
  cases finalize with
  | nil => exact .inl rfl
  | cons front rest =>
      by_cases hfront : front = name
      · exact .inr ⟨rest, by rw [hfront]⟩
      · exact .inl (if_neg hfront)

/-- Where a worker is in `Work`. -/
inductive WorkPhase where
  | head
  | active
  | update
  | check (i : ℕ)
  | popped (i : ℕ)
  | finalizing (i : ℕ)
  | exited
  deriving DecidableEq

/-- Where the calling thread is in `Stop`. -/
inductive StopPhase where
  | uncalled
  | waiting
  | deactivate (worker : ℕ)
  | join (worker : ℕ)
  | done
  deriving DecidableEq

inductive StopEvent where
  | finalizeBegin (name : Text)
  | finalizeEnd (name : Text)
  | deactivate (worker : ℕ)
  deriving DecidableEq

/-- Threads that run. What has happened so far is recorded, the oldest first. -/
structure RunningThreads where
  finalize : List Text
  isAlive : Bool := true
  isActive : ℕ → Bool := fun _ => true
  phase : ℕ → WorkPhase := fun _ => .head
  stop : StopPhase := .uncalled
  log : List StopEvent := []

inductive ThreadsAction where
  | work (worker : ℕ)
  | stop
  | stopAsync

def RunningThreads.setPhase (s : RunningThreads) (worker : ℕ) (phase : WorkPhase) :
    RunningThreads :=
  { s with phase := Function.update s.phase worker phase }

def RunningThreads.record (s : RunningThreads) (event : StopEvent) : RunningThreads :=
  { s with log := s.log ++ [event] }

namespace FinalizedThreads

variable (this : FinalizedThreads)

def start : RunningThreads := { finalize := this.finalize }

def stateName (worker i : ℕ) : Option Text :=
  this.threadWorkers[worker]?.bind fun w => w.states[i]?.map ThreadWorkerStateBase.name

/-- One step of `Work`. How `Update` gets to its end is left open. -/
def work (s : RunningThreads) (worker : ℕ) : Option RunningThreads :=
  if worker < this.threadWorkers.length then
    match s.phase worker with
    | .head => some (s.setPhase worker (if s.isActive worker then .active else .exited))
    | .active => some (s.setPhase worker (if s.isAlive then .update else .check 0))
    | .update => some (s.setPhase worker .head)
    | .check i =>
        (this.stateName worker i).elim (some (s.setPhase worker .head)) fun name =>
          let answer := checkFinalize name s.finalize
          some ({ s with finalize := answer.2 }.setPhase worker
            (if answer.1 then .popped i else .check (i + 1)))
    | .popped i => (this.stateName worker i).map fun name =>
        (s.record (.finalizeBegin name)).setPhase worker (.finalizing i)
    | .finalizing i => (this.stateName worker i).map fun name =>
        (s.record (.finalizeEnd name)).setPhase worker (.check (i + 1))
    | .exited => none
  else none

def stop (s : RunningThreads) : Option RunningThreads :=
  match s.stop with
  | .uncalled => some { s with isAlive := false, stop := .waiting }
  | .waiting => some (if s.finalize = [] then { s with stop := .deactivate 0 } else s)
  | .deactivate worker =>
      if worker < this.threadWorkers.length then
        some { s.record (.deactivate worker) with
          isActive := Function.update s.isActive worker false
          stop := .join worker }
      else some { s with stop := .done }
  | .join worker =>
      if s.phase worker = .exited then some { s with stop := .deactivate (worker + 1) } else none
  | .done => none

def step (s : RunningThreads) : ThreadsAction → Option RunningThreads
  | .work worker => this.work s worker
  | .stop => this.stop s
  | .stopAsync => some { s with isAlive := false }

/-- Some thread takes a step. -/
def Next (s s' : RunningThreads) : Prop := ∃ action, this.step s action = some s'

/-- The threads get from one state to the other, whichever of them goes on at each step. -/
def Runs : RunningThreads → RunningThreads → Prop := Relation.ReflTransGen this.Next

def isState (name : Text) : Bool :=
  this.threadWorkers.any fun worker => worker.states.any fun state => state.name = name

def HasState (worker : ℕ) (name : Text) : Prop := ∃ i, this.stateName worker i = some name

theorem isState_iff {name : Text} :
    this.isState name = true ↔ ∃ worker, this.HasState worker name := by
  simp only [isState, List.any_eq_true, decide_eq_true_eq, HasState, stateName,
    Option.bind_eq_some_iff, Option.map_eq_some_iff]
  constructor
  · rintro ⟨w, hw, state, hstate, rfl⟩
    obtain ⟨worker, hworker⟩ := List.mem_iff_getElem?.mp hw
    obtain ⟨i, hi⟩ := List.mem_iff_getElem?.mp hstate
    exact ⟨worker, i, w, hworker, state, hi, rfl⟩
  · rintro ⟨worker, i, w, hworker, state, hi, rfl⟩
    exact ⟨w, List.mem_of_getElem? hworker, state, List.mem_of_getElem? hi, rfl⟩

theorem lt_of_stateName {worker i : ℕ} {name : Text} (h : this.stateName worker i = some name) :
    worker < this.threadWorkers.length := by
  obtain ⟨w, hw, -⟩ := Option.bind_eq_some_iff.mp h
  exact (List.getElem?_eq_some_iff.mp hw).1

end FinalizedThreads

end SRCommon
