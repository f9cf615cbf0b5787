import SRCommon.SRLM.ComputeNodes

/-!
# Flows of a logical machine

`UpdateMachine` goes through the active nodes. A node is executed, and each of
its outputs that is available brings the node behind it: the first one in the
place of the node, the others right behind it. No class asks for a repetition.
The loops run on fuel.

A compute node that is dirty is executed when one of its outputs is read. What
that does to the nodes is a parameter.
-/

namespace SRCommon

namespace DataType

/-- `*GetEnum()`, which has no meaning where there is no integer of 64 bits. -/
def getEnum : DataType → Option Int64
  | leaf .flow value => some value
  | leaf (.enum _) value => some value
  | leaf (.value .int64) value => some value
  | leaf (.value .uint64) value => some (UInt64.toInt64 value)
  | _ => none

def getBool : DataType → Option Bool
  | leaf (.value .bool) value => some value
  | _ => none

def getString : DataType → Option Text
  | leaf (.value .string) value => some value
  | _ => none

end DataType

/-- Which class a node is of. Compute nodes are of several classes. -/
inductive FlowKind where
  | compute
  | connector
  | start
  | debugPrint
  | sequence
  | branch
  | startReset
  | endReset
  | synchronize
deriving DecidableEq

/-- `GetType`. -/
def FlowKind.getType : FlowKind → LogicalNodeType
  | compute => .compute
  | connector => .connector
  | startReset => .startReset
  | endReset => .endReset
  | start | debugPrint | sequence | branch | synchronize => .executable

/-- The nodes by their addresses. -/
abbrev RunningNodes (ν : Type) := ν → RunningNode ν

namespace RunningNode

variable {ν : Type} (this : RunningNode ν)

def addStatus (status : UInt64) : RunningNode ν := { this with status := this.status ||| status }

def hasErrors : Bool := this.status &&& LogicalNodeStatus.errorStatus ≠ 0

def isSuccessfullyCompleted : Bool :=
  this.status &&& LogicalNodeStatus.success ≠ 0 && !this.hasErrors

/-- `*GetOutput(index)->GetEnum() = value`. -/
def setOutput (index : ℕ) (state : FlowState) : Option (RunningNode ν) := do
  let pin ← this.outputs[index]?
  let pData ← pin.pData.setEnum state.toInt64
  some { this with outputs := this.outputs.set index { pin with pData } }

/-- What a sequence does with an output. -/
def makeAvailable (pin : NodePin (Option ν) DataType) : Option (NodePin (Option ν) DataType) := do
  let state ← pin.pData.getEnum
  if state ≠ FlowState.notAvailable.toInt64 then some pin
  else (pin.pData.setEnum FlowState.available.toInt64).map fun pData => { pin with pData }

end RunningNode

namespace RunningNodes

variable {ν : Type} [DecidableEq ν]

def modify (s : RunningNodes ν) (n : ν) (f : RunningNode ν → Option (RunningNode ν)) :
    Option (RunningNodes ν) :=
  (f (s n)).map (Function.update s n)

def addStatus (s : RunningNodes ν) (n : ν) (status : UInt64) : RunningNodes ν :=
  Function.update s n ((s n).addStatus status)

/-! ## Execution of a node -/

section

variable (kind : ν → FlowKind) (compute : RunningNodes ν → ν → Option (RunningNodes ν))

/-- `GetOutput`: an output out of range is reported. -/
def getOutput (s : RunningNodes ν) (n : ν) (index : ℕ) : RunningNodes ν × Option DataType :=
  match (s n).outputs[index]? with
  | none => (s.addStatus n LogicalNodeStatus.outputRangeError, none)
  | some pin => (s, some pin.pData)

/-- The own data of an input, after an error. -/
def rejectInput (s : RunningNodes ν) (n : ν) (index : ℕ) (status : UInt64) :
    RunningNodes ν × Option DataType :=
  (s.addStatus n status, ((s n).inputs[index]?).map NodePin.pData)

/-- The status that is asked for a flow, and for the values of other nodes, is that of the node
itself. -/
def calcInput (s : RunningNodes ν) (n : ν) (index : ℕ) :
    Option (RunningNodes ν × Option DataType) := do
  let pin ← (s n).inputs[index]?
  match firstLink pin.connections with
  | none => some (s, some pin.pData)
  | some link =>
      if (kind link.1).getType = .compute then do
        let s ← compute s link.1
        if (s link.1).hasErrors then
          some (s.rejectInput n index LogicalNodeStatus.computeError)
        else some (s.getOutput link.1 link.2)
      else if pin.pData.getClass = .flow then
        if (s n).hasErrors then some (s.rejectInput n index LogicalNodeStatus.notExecuted)
        else some (s.getOutput link.1 link.2)
      else if !(s n).isSuccessfullyCompleted then
        some (s.rejectInput n index LogicalNodeStatus.notExecuted)
      else some (s.getOutput link.1 link.2)

/-- The message and its type are read from the left to the right, and printed. -/
def executeDebugPrint (s : RunningNodes ν) (n : ν) : Option (RunningNodes ν) := do
  let (s, msg) ← calcInput kind compute s n 1
  let _ ← (← msg).getString
  let (s, type) ← calcInput kind compute s n 2
  let _ ← (← type).getEnum
  s.modify n fun node => node.setOutput 0 .available

def executeBranch (s : RunningNodes ν) (n : ν) : Option (RunningNodes ν) := do
  let (s, condition) ← calcInput kind compute s n 1
  let holds ← (← condition).getBool
  let s ← s.modify n fun node => node.setOutput 0 (if holds then .available else .notAvailable)
  s.modify n fun node => node.setOutput 1 (if holds then .notAvailable else .available)

/-- The loop over the inputs ends at the first one that is not executed. -/
def awaitInputs (n : ν) : List ℕ → RunningNodes ν → Option (RunningNodes ν × Bool)
  | [], s => some (s, true)
  | i :: is, s => do
      let (s, input) ← calcInput kind compute s n i
      let state ← (← input).getEnum
      if state ≠ FlowState.executed.toInt64 then some (s, false) else awaitInputs n is s

def executeSynchronize (s : RunningNodes ν) (n : ν) : Option (RunningNodes ν) := do
  let (s, arrived) ← awaitInputs kind compute n (List.range (s n).inputs.length) s
  s.modify n fun node => node.setOutput 0 (if arrived then .available else .notAvailable)

/-- What the class of a node does. -/
def executeClass (s : RunningNodes ν) (n : ν) : Option (RunningNodes ν) :=
  match kind n with
  | .compute | .connector => none
  | .start | .startReset | .endReset => s.modify n fun node => node.setOutput 0 .available
  | .debugPrint => executeDebugPrint kind compute s n
  | .sequence => s.modify n fun node =>
      (node.outputs.mapM RunningNode.makeAvailable).map fun outputs => { node with outputs }
  | .branch => executeBranch kind compute s n
  | .synchronize => executeSynchronize kind compute s n

/-- `Execute`, which ends with that of the base class. -/
def executeNode (s : RunningNodes ν) (n : ν) : Option (RunningNodes ν) :=
  (executeClass kind compute s n).map fun s => s.addStatus n LogicalNodeStatus.success

end

end RunningNodes

/-! ## The machine -/

/-- `executed` records the nodes in the order in which they are executed. -/
structure FlowMachine (ν : Type) extends RunningMachine ν where
  executed : List ν := []

namespace FlowMachine

variable {ν : Type} [DecidableEq ν]

section

variable (kind : ν → FlowKind) (compute : RunningNodes ν → ν → Option (RunningNodes ν))

/-- `Init`, with the entry points in the order of their names. -/
def init (nodes : RunningNodes ν) (entryPoints : List ν) : FlowMachine ν where
  nodes := nodes
  active := entryPoints.map fun pNode => ⟨some pNode, none⟩
  currentNode := 0

def getCurrentPin (m : FlowMachine ν) : Option (ν × ℕ) :=
  (m.active[m.currentNode]?).bind ActiveNodeInfo.pFromPin

def setCurrentNode (m : FlowMachine ν) (pNode : Option ν) (pFromPin : Option (ν × ℕ)) :
    FlowMachine ν :=
  { m with toRunningMachine := m.toRunningMachine.setCurrentNode pNode pFromPin }

/-- What the loop over the outputs keeps. -/
structure PassedPins (ν : Type) where
  m : FlowMachine ν
  needContinue : Bool
  offset : ℕ

def passPin (pNode : ν) (r : PassedPins ν) (pin : NodePin (Option ν) DataType × ℕ) :
    Option (PassedPins ν) :=
  if pin.1.pData.getClass ≠ .flow then some r
  else do
    let state ← pin.1.pData.getEnum
    if state = FlowState.notAvailable.toInt64 then some r
    else if !r.needContinue then
      some { r with
        m := r.m.setCurrentNode pin.1.getFirstNode (some (pNode, pin.2))
        needContinue := true }
    else
      some { r with
        m := { r.m with
          active := r.m.active.insertIdx r.offset ⟨pin.1.getFirstNode, some (pNode, pin.2)⟩ }
        offset := r.offset + 1 }

def processExecutable (m : FlowMachine ν) : Option (FlowMachine ν × Bool) :=
  match m.getCurrentNode with
  | none => some (m, false)
  | some pNode => do
      let nodes ← RunningNodes.executeNode kind compute m.nodes pNode
      let m := { m with nodes, executed := m.executed ++ [pNode] }
      if (nodes pNode).hasErrors then some (m, false)
      else do
        let r ← (nodes pNode).outputs.zipIdx.foldlM (passPin pNode) ⟨m, false, m.currentNode + 1⟩
        some (r.m, r.needContinue)

def processReset (fuel : ℕ) (m : FlowMachine ν) : Option (FlowMachine ν × Bool) :=
  match m.getCurrentNode with
  | none => none
  | some pStart => do
      let (machine, goesOn) ← m.toRunningMachine.processReset fuel
      some (⟨machine, m.executed ++ [pStart]⟩, goesOn)

/-- The pin that led to the node is executed now. -/
def leavePin (m : FlowMachine ν) : Option (FlowMachine ν) :=
  match m.getCurrentPin with
  | none => some m
  | some pin =>
      (RunningNodes.modify m.nodes pin.1 fun node => node.setOutput pin.2 .executed).map
        fun nodes => { m with nodes }

def execute (fuel : ℕ) (m : FlowMachine ν) : Option (FlowMachine ν × Bool) :=
  match m.getCurrentNode with
  | none => some (m, false)
  | some pNode =>
      if (kind pNode).getType = .compute then some (m, false)
      else do
        let m ← m.leavePin
        match (kind pNode).getType with
        | .executable | .endReset => m.processExecutable kind compute
        | .startReset => m.processReset fuel
        | .compute | .connector => some (m, false)

/-- `while (Execute(dt));`. -/
def executeAll (resetFuel : ℕ) : ℕ → FlowMachine ν → Option (FlowMachine ν)
  | 0, _ => none
  | fuel + 1, m => do
      let (m, goesOn) ← m.execute kind compute resetFuel
      if goesOn then executeAll resetFuel fuel m else some m

/-- The loop of `UpdateMachine`. -/
def updateLoop (innerFuel : ℕ) : ℕ → FlowMachine ν → Option (FlowMachine ν)
  | 0, _ => none
  | fuel + 1, m =>
      if m.currentNode < m.active.length then do
        let m ← m.executeAll kind compute innerFuel innerFuel
        match m.getCurrentNode with
        | none => updateLoop innerFuel fuel { m with active := m.active.eraseIdx m.currentNode }
        | some _ => updateLoop innerFuel fuel { m with currentNode := m.currentNode + 1 }
      else some m

def updateMachine (fuel : ℕ) (m : FlowMachine ν) : Option (FlowMachine ν) :=
  updateLoop kind compute fuel fuel { m with currentNode := 0 }

end

end FlowMachine

end SRCommon
