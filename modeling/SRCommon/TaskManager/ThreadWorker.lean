import Mathlib.Logic.Function.Basic
import SRCommon.Lib.ByteText

/-!
# Workers and the conditions of their states

Each worker executes its states in turn. A call of `Execute` reads the states
of others when it begins and when its body is done, and other workers go on
in between. Workers that are stopped make no more calls.
-/

namespace SRCommon

inductive ThreadWorkerState where
  | idle
  | working
  | ready
  deriving DecidableEq

def ThreadWorkerState.values : List ThreadWorkerState := [idle, working, ready]

inductive ThreadWorkerResult where
  | success
  | working
  | repeat_
  | break_
  deriving DecidableEq

/-- `std::map`, the order of which does not matter for what is asked of it. -/
abbrev WorkerConditions := List (Text × ThreadWorkerState)

def WorkerConditions.set (name : Text) (state : ThreadWorkerState) :
    WorkerConditions → WorkerConditions
  | [] => [(name, state)]
  | (name', state') :: conditions =>
      if name' = name then (name', state) :: conditions
      else (name', state') :: set name state conditions

/-- A state without its present `m_state`. -/
structure ThreadWorkerStateBase where
  name : Text
  skipConditions : WorkerConditions := []
  startConditions : WorkerConditions := []
  finishConditions : WorkerConditions := []

namespace ThreadWorkerStateBase

variable (this : ThreadWorkerStateBase) (name : Text) (state : ThreadWorkerState)

def addStartCondition : ThreadWorkerStateBase :=
  { this with startConditions := this.startConditions.set name state }

def addFinishCondition : ThreadWorkerStateBase :=
  { this with finishConditions := this.finishConditions.set name state }

def addSkipCondition : ThreadWorkerStateBase :=
  { this with skipConditions := this.skipConditions.set name state }

end ThreadWorkerStateBase

/-! ## Loading -/

/-- The names under each state, as the document has them. -/
structure ConditionNode where
  items : ThreadWorkerState → List Text

structure StateNode where
  name : Option Text
  startCondition : Option ConditionNode := none
  skipCondition : Option ConditionNode := none
  finishCondition : Option ConditionNode := none

structure ThreadNode where
  name : Option Text
  states : Option (List StateNode)

structure ThreadWorker where
  name : Text
  states : List ThreadWorkerStateBase

structure ThreadsWorker where
  threadWorkers : List ThreadWorker

def addCondition (type : ℕ) (pState : ThreadWorkerStateBase) (name : Text)
    (state : ThreadWorkerState) : ThreadWorkerStateBase :=
  match type with
  | 0 => pState.addSkipCondition name state
  | 1 => pState.addStartCondition name state
  | 2 => pState.addFinishCondition name state
  | _ => pState

def processCondition (type : ℕ) (conditionNode : Option ConditionNode)
    (pState : ThreadWorkerStateBase) : ThreadWorkerStateBase :=
  conditionNode.elim pState fun node =>
    ThreadWorkerState.values.foldl (fun pState state =>
      (node.items state).foldl (fun pState name => addCondition type pState name state) pState)
      pState

/-- `registered` are the names that `AllocateState` knows. -/
def loadState (registered : Text → Bool) (state : StateNode) : Option ThreadWorkerStateBase := do
  let name ← state.name
  if registered name then
    let pState := processCondition 0 state.startCondition { name }
    let pState := processCondition 1 state.skipCondition pState
    some (processCondition 2 state.finishCondition pState)
  else none

def loadThread (registered : Text → Bool) (thread : ThreadNode) : Option ThreadWorker := do
  let name ← thread.name
  let states ← thread.states
  some { name, states := states.filterMap (loadState registered) }

def ThreadsWorker.load (registered : Text → Bool) (threads : List ThreadNode) : ThreadsWorker where
  threadWorkers := threads.filterMap (loadThread registered)

/-! ## Execution -/

/-- Where a worker is in its call of `Execute`. -/
inductive ExecutePhase where
  | entry
  | body
  | finish
  deriving DecidableEq

/-- A state is known by its worker and its place there. -/
structure WorkersState where
  state : ℕ × ℕ → ThreadWorkerState := fun _ => .idle
  currentState : ℕ → ℕ := fun _ => 0
  phase : ℕ → ExecutePhase := fun _ => .entry

inductive WorkerStep where
  | enter (worker : ℕ)
  | body (worker : ℕ) (result : ThreadWorkerResult)
  | finish (worker : ℕ)

namespace ThreadsWorker

variable (this : ThreadsWorker)

/-- The states of all workers, in the order in which `AddThread` sees them. -/
def instances : List ((ℕ × ℕ) × ThreadWorkerStateBase) :=
  this.threadWorkers.zipIdx.flatMap fun worker =>
    worker.1.states.zipIdx.map fun state => ((worker.2, state.2), state.1)

/-- The first state with the name is the one in `m_states`. -/
def find (name : Text) : Option (ℕ × ℕ) :=
  (this.instances.find? fun instance_ => instance_.2.name = name).map Prod.fst

def getState (s : WorkersState) (name : Text) : ThreadWorkerState :=
  (this.find name).elim .idle s.state

def holds (s : WorkersState) (conditions : WorkerConditions) : Bool :=
  conditions.all fun condition => this.getState s condition.1 = condition.2

def current (s : WorkersState) (worker : ℕ) : Option ThreadWorkerStateBase :=
  this.threadWorkers[worker]?.bind fun w => w.states[s.currentState worker]?

/-- The worker goes on with its next state, from the last one to the first. -/
def advance (s : WorkersState) (worker : ℕ) : WorkersState :=
  let next := s.currentState worker + 1
  let size := this.threadWorkers[worker]?.elim 0 fun w => w.states.length
  { s with
    currentState := Function.update s.currentState worker (if next < size then next else 0)
    phase := Function.update s.phase worker .entry }

end ThreadsWorker

namespace WorkersState

variable (s : WorkersState) (worker : ℕ)

def setState (state : ThreadWorkerState) : WorkersState :=
  { s with state := Function.update s.state (worker, s.currentState worker) state }

def setPhase (phase : ExecutePhase) : WorkersState :=
  { s with phase := Function.update s.phase worker phase }

end WorkersState

namespace ThreadsWorker

variable (this : ThreadsWorker)

/-- The answer is what `Execute` returns, if the call ends with the step. -/
def step (s : WorkersState) : WorkerStep → Option (WorkersState × Option ThreadWorkerResult)
  | .enter worker => do
      let pState ← this.current s worker
      if s.phase worker ≠ .entry then none
      else match s.state (worker, s.currentState worker) with
        | .idle =>
            if pState.skipConditions ≠ [] ∧ this.holds s pState.skipConditions then
              some (this.advance s worker, some .success)
            else if ¬ this.holds s pState.startConditions then some (s, some .repeat_)
            else some ((s.setState worker .working).setPhase worker .body, none)
        | .working => some (s.setPhase worker .body, none)
        | .ready => some (s.setPhase worker .finish, none)
  | .body worker result =>
      if s.phase worker ≠ .body then none
      else match result with
        | .success => some ((s.setState worker .ready).setPhase worker .finish, none)
        | .break_ =>
            some ({ s.setPhase worker .entry with
              currentState := Function.update s.currentState worker 0 }, some .break_)
        | result => some (s.setPhase worker .entry, some result)
  | .finish worker => do
      let pState ← this.current s worker
      if s.phase worker ≠ .finish then none
      else if ¬ this.holds s pState.finishConditions then
        some (s.setPhase worker .entry, some .repeat_)
      else some (this.advance (s.setState worker .idle) worker, some .success)

end ThreadsWorker

end SRCommon
