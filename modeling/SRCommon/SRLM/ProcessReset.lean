import SRCommon.Lib.QueueSearch
import SRCommon.SRLM.DataType
import SRCommon.SRLM.LogicalNode

/-!
# Resets of a part of a machine

`ProcessReset` goes through the nodes behind a start node, up to the end nodes,
and takes back what they have done. The loop runs on fuel.
-/

namespace SRCommon

open QueueSearch (Reaches meet search)

inductive FlowState where
  | notAvailable
  | available
  | executed

def FlowState.toInt64 : FlowState → Int64
  | notAvailable => 0
  | available => 1
  | executed => 2

namespace DataType

/-- `*GetEnum() = value`, which has no meaning where there is no integer of 64 bits. -/
def setEnum (this : DataType) (value : Int64) : Option DataType :=
  match this with
  | leaf .flow _ => some (leaf .flow value)
  | leaf (.enum reflector) _ => some (leaf (.enum reflector) value)
  | leaf (.value .int64) _ => some (leaf (.value .int64) value)
  | leaf (.value .uint64) _ => some (leaf (.value .uint64) value.toUInt64)
  | _ => none

/-- What is stored is an integer of 64 bits. -/
def HoldsInteger (this : DataType) : Prop :=
  this.getClass ∈ [DataTypeClass.flow, .enum, .int64, .uint64]

theorem isSome_setEnum {this : DataType} (value : Int64) :
    (this.setEnum value).isSome ↔ this.HoldsInteger := by
  rcases this with ⟨type, old⟩ | ⟨name, vars⟩
  · rcases type with _ | _ | _ | reflector | type
    · simp [setEnum, HoldsInteger, getClass, LeafType.getClass]
    · exact iff_of_true rfl List.mem_cons_self
    · simp [setEnum, HoldsInteger, getClass, LeafType.getClass]
    · exact iff_of_true rfl (List.mem_cons_of_mem _ List.mem_cons_self)
    · cases type <;> simp [setEnum, HoldsInteger, getClass, LeafType.getClass, ValueType.getClass]
  · simp [setEnum, HoldsInteger, getClass]

theorem getClass_of_setEnum {this data : DataType} {value : Int64}
    (h : this.setEnum value = some data) : data.getClass = this.getClass := by
  unfold setEnum at h
  split at h <;> cases h <;> rfl

end DataType

namespace LogicalNodeStatus

def none : UInt64 := (1 : UInt64) <<< 0

def success : UInt64 := (1 : UInt64) <<< 1

end LogicalNodeStatus

/-- A node with its status. A link may be null. -/
structure RunningNode (ν : Type) extends LogicalNode (Option ν) DataType where
  status : UInt64

/-- `pFromPin` is an output by its node and its number there. -/
structure ActiveNodeInfo (ν : Type) where
  pNode : Option ν
  pFromPin : Option (ν × ℕ)

structure RunningMachine (ν : Type) where
  nodes : ν → RunningNode ν
  active : List (ActiveNodeInfo ν)
  currentNode : ℕ

variable {ν : Type}

def NodePin.getFirstNode (pin : NodePin (Option ν) DataType) : Option ν :=
  pin.connections.head?.bind NodeConnect.pNode

def NodePin.resetFlow (pin : NodePin (Option ν) DataType) : NodePin (Option ν) DataType :=
  match pin.pData with
  | .leaf .flow _ => { pin with pData := .leaf .flow FlowState.notAvailable.toInt64 }
  | _ => pin

namespace RunningNode

variable (this : RunningNode ν)

def resetOutputFlows : RunningNode ν :=
  { this with outputs := this.outputs.map NodePin.resetFlow }

def resetStatus : RunningNode ν := { this with status := LogicalNodeStatus.none }

/-- `*GetOutput(0)->GetEnum() = value`: without outputs there is a null pointer. -/
def setFirstOutput (value : Int64) : Option (RunningNode ν) :=
  match this.outputs with
  | [] => none
  | pin :: outputs => (pin.pData.setEnum value).map fun pData =>
      { this with outputs := { pin with pData } :: outputs }

/-- `StartResetNode::Execute`. -/
def executeStartReset : Option (RunningNode ν) :=
  (this.setFirstOutput FlowState.available.toInt64).map fun this =>
    { this with status := this.status ||| LogicalNodeStatus.success }

def outputConnections : List (NodeConnect (Option ν)) := this.outputs.flatMap NodePin.connections

/-- The first output can take a state. -/
def HasState : Prop := ∃ pin, this.outputs.head? = some pin ∧ pin.pData.HoldsInteger

end RunningNode

variable [DecidableEq ν]

/-- A node that is met gets behind the others. -/
def passConnection (nodes : ν → RunningNode ν) (r : List ν × List ν)
    (connection : NodeConnect (Option ν)) : List ν × List ν :=
  match connection.pNode with
  | none => r
  | some pNode =>
      if pNode ∈ r.1 then r
      else if (nodes pNode).type = .endReset then r
      else (pNode :: r.1, r.2 ++ [pNode])

def resetNode (pStart : ν) (nodes : ν → RunningNode ν) (pCurrentNode : ν) : ν → RunningNode ν :=
  if pCurrentNode = pStart then nodes
  else Function.update nodes pCurrentNode (nodes pCurrentNode).resetOutputFlows.resetStatus

/-- The loop over the queue, with the nodes that have been passed. -/
def resetNodes (pStart : ν) :
    ℕ → (ν → RunningNode ν) → List ν → List ν → Option (ν → RunningNode ν)
  | 0, _, _, _ => none
  | _ + 1, nodes, _, [] => some nodes
  | fuel + 1, nodes, passed, pCurrentNode :: queue =>
      let nodes := resetNode pStart nodes pCurrentNode
      let r := (nodes pCurrentNode).outputConnections.foldl (passConnection nodes) (passed, queue)
      resetNodes pStart fuel nodes r.1 r.2

namespace RunningMachine

variable (m : RunningMachine ν)

def getCurrentNode : Option ν := (m.active[m.currentNode]?).bind ActiveNodeInfo.pNode

def setCurrentNode (pNode : Option ν) (pFromPin : Option (ν × ℕ)) : RunningMachine ν :=
  { m with active := m.active.set m.currentNode ⟨pNode, pFromPin⟩ }

/-- The transition to the node behind the first output. -/
def leaveStart (pStart : ν) : Option (RunningMachine ν) :=
  ((m.nodes pStart).setFirstOutput FlowState.executed.toInt64).map fun node =>
    setCurrentNode { m with nodes := Function.update m.nodes pStart node }
      (node.outputs.head?.bind NodePin.getFirstNode) (some (pStart, 0))

/-- The current node is a `StartResetNode`. -/
def processReset (fuel : ℕ) : Option (RunningMachine ν × Bool) := do
  let pStart ← m.getCurrentNode
  let node ← (m.nodes pStart).executeStartReset
  let nodes := Function.update m.nodes pStart node
  if node.outputs = [] then some ({ m with nodes }, false)
  else
    let nodes ← resetNodes pStart fuel nodes [pStart] [pStart]
    let m ← leaveStart { m with nodes } pStart
    some (m, true)

end RunningMachine

end SRCommon
