import Mathlib.Data.List.AList
import Mathlib.Data.Finset.Erase
import Mathlib.Data.Finset.Insert

/-!
# TaskManager

Tasks are kept in a list that the loop of the manager goes through. A task has
a thread of its own or runs within the loop. Nobody joins the thread of a task,
which stays joinable when its function has returned.
-/

namespace SRCommon

inductive Task.State where
  | unknown
  | waiting
  | launched
  | stopped
  | completed
  | failed
  deriving DecidableEq

def Task.State.isFinal : Task.State → Bool
  | .completed | .failed | .stopped => true
  | _ => false

/-- `callable` tells whether `m_function` holds a function, `thread` whether `m_thread` is set. -/
structure Task where
  createThread : Bool
  callable : Bool := true
  id : UInt64 := 0xffffffffffffffff
  state : Task.State := .waiting
  thread : Bool := false
  deriving DecidableEq

namespace Task

variable (task : Task)

def isWaiting : Bool := task.state = .waiting

def isCompleted : Bool := task.state.isFinal && !task.thread

/-- `outcome` is the state that the function leaves when it is called here. The answer is `none`
where `Run` returns false. -/
def run (outcome : State) : Option Task :=
  if task.state ≠ .waiting ∨ ¬ task.callable ∨ task.thread then none
  else if task.createThread then some { task with state := .launched, thread := true }
  else some { task with state := outcome }

end Task

structure TaskManager where
  tasks : List Task := []
  ids : Finset UInt64 := ∅
  results : AList fun _ : UInt64 => Task.State := ∅

namespace TaskManager

variable (this : TaskManager)

def getUniqueId : UInt64 := 0

def execute (task : Task) : UInt64 × TaskManager :=
  let uniqueId := getUniqueId
  (uniqueId,
    { this with
      ids := insert uniqueId this.ids
      tasks := this.tasks ++ [{ task with id := uniqueId }] })

def getResult (taskId : UInt64) : Task.State :=
  if taskId ∈ this.ids then .launched else .unknown

/-- `std::map::insert` keeps the entry that is there. -/
def insertResult (task : Task) : AList fun _ : UInt64 => Task.State :=
  if task.id ∈ this.results then this.results else this.results.insert task.id task.state

/-- The task at an iterator after `Run`, if it is waiting. -/
def visited (task : Task) (outcome : Task.State) : Task :=
  if task.isWaiting then (task.run outcome).getD task else task

def collect (task : Task) (pIt : ℕ) : TaskManager where
  results := this.insertResult task
  ids := this.ids.erase task.id
  tasks := this.tasks.eraseIdx pIt

end TaskManager

/-! ## Runs -/

/-- `pIt` is the iterator of the loop while it goes through the list. The tasks that it has taken
out are remembered with their last states. -/
structure TaskRuns where
  manager : TaskManager := {}
  pIt : Option ℕ := none
  collected : List (UInt64 × Task.State) := []

/-- A function that runs within the loop may call `Execute` itself, as the mutex is recursive. -/
inductive TaskStep where
  | execute (callable createThread : Bool)
  | begin_
  | pass (outcome : Task.State)
  | end_
  | store (task : ℕ) (state : Task.State)

namespace TaskRuns

variable (s : TaskRuns)

/-- The task at the iterator. -/
def current : Option Task := s.pIt.bind fun pIt => s.manager.tasks[pIt]?

/-- A pass of the loop over one task. -/
def pass (task : Task) (pIt : ℕ) : TaskRuns :=
  if task.isCompleted then
    { s with
      manager := s.manager.collect task pIt
      collected := s.collected ++ [(task.id, task.state)] }
  else
    { s with
      manager := { s.manager with tasks := s.manager.tasks.set pIt task }
      pIt := some (pIt + 1) }

/-- The answer is the id that `Execute` returns. Only the thread of a task stores a state outside
of the loop. -/
def step : TaskStep → Option (TaskRuns × Option UInt64)
  | .execute callable createThread =>
      let answer := s.manager.execute { createThread, callable }
      some ({ s with manager := answer.2 }, some answer.1)
  | .begin_ => if s.pIt = none then some ({ s with pIt := some 0 }, none) else none
  | .pass outcome => do
      let pIt ← s.pIt
      let task ← s.manager.tasks[pIt]?
      some (s.pass (TaskManager.visited task outcome) pIt, none)
  | .end_ =>
      if s.pIt = some s.manager.tasks.length then some ({ s with pIt := none }, none) else none
  | .store n state => do
      let task ← s.manager.tasks[n]?
      if task.thread then
        some ({ s with
          manager := { s.manager with tasks := s.manager.tasks.set n { task with state } } }, none)
      else none

end TaskRuns

end SRCommon
