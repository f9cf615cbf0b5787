import Mathlib.Data.List.Basic
import Mathlib.Logic.Function.Basic
import Mathlib.Tactic.Common

/-!
# Pins and links of logical nodes

A link is stored at both of its ends, with the node at the far end and the
number of the pin there. Inputs and outputs are handled alike, and each method
of the source is the shared one at its side.
-/

namespace SRCommon

inductive LogicalNodeType where
  | compute
  | executable
  | connector
  | startReset
  | endReset
deriving DecidableEq

@[ext]
structure NodeConnect (ν : Type) where
  pNode : ν
  pinIndex : ℕ
deriving DecidableEq

/-- `δ` is what a pin has besides its links. -/
structure NodePin (ν δ : Type) where
  connections : List (NodeConnect ν) := []
  pData : δ

structure LogicalNode (ν δ : Type) where
  type : LogicalNodeType
  inputs : List (NodePin ν δ)
  outputs : List (NodePin ν δ)

inductive PinSide where
  | input
  | output
deriving DecidableEq

def PinSide.other : PinSide → PinSide
  | .input => .output
  | .output => .input

/-- The nodes of a machine by their addresses. -/
abbrev LogicalGraph (ν δ : Type) := ν → LogicalNode ν δ

namespace PinSide

theorem other_other (side : PinSide) : side.other.other = side := by
  cases side <;> rfl

theorem other_ne (side : PinSide) : side.other ≠ side := by
  cases side <;> nofun

theorem eq_other_of_ne {side side' : PinSide} (h : side' ≠ side) : side' = side.other := by
  cases side <;> cases side' <;> first | rfl | exact absurd rfl h

end PinSide

variable {ν δ : Type}

namespace LogicalNode

variable (this : LogicalNode ν δ)

def pins : PinSide → List (NodePin ν δ)
  | .input => this.inputs
  | .output => this.outputs

def withPins : PinSide → List (NodePin ν δ) → LogicalNode ν δ
  | .input, inputs => { this with inputs }
  | .output, outputs => { this with outputs }

theorem pins_withPins (side : PinSide) (pins : List (NodePin ν δ)) :
    (this.withPins side pins).pins side = pins := by
  cases side <;> rfl

theorem pins_withPins_of_ne {side side' : PinSide} (h : side' ≠ side)
    (pins : List (NodePin ν δ)) : (this.withPins side pins).pins side' = this.pins side' := by
  obtain rfl := PinSide.eq_other_of_ne h
  cases side <;> rfl

/-- The links at a pin, none for a pin that is not there. -/
def links (side : PinSide) (p : ℕ) : List (NodeConnect ν) :=
  ((this.pins side)[p]?).elim [] NodePin.connections

theorem lt_length_of_mem_links {side : PinSide} {p : ℕ} {c : NodeConnect ν}
    (h : c ∈ this.links side p) : p < (this.pins side).length := by
  unfold links at h
  by_contra hlen
  rw [List.getElem?_eq_none (Nat.not_lt.mp hlen)] at h
  cases h

variable [DecidableEq ν]

/-- A pin out of range is reported and left out. -/
def addConnection (side : PinSide) (pNode : ν) (nodePinIndex pinIndex : ℕ) : LogicalNode ν δ :=
  this.withPins side ((this.pins side).modify pinIndex fun pin =>
    { pin with connections := pin.connections ++ [⟨pNode, nodePinIndex⟩] })

def addInputConnection (pNode : ν) (nodePinIndex pinIndex : ℕ) : LogicalNode ν δ :=
  this.addConnection .input pNode nodePinIndex pinIndex

def addOutputConnection (pNode : ν) (nodePinIndex pinIndex : ℕ) : LogicalNode ν δ :=
  this.addConnection .output pNode nodePinIndex pinIndex

/-- The first link to the node is erased. The number of the pin is not checked. -/
def removeConnection (side : PinSide) (pNode : ν) (pinIndex : ℕ) : Option (LogicalNode ν δ) :=
  if pinIndex < (this.pins side).length then
    some (this.withPins side ((this.pins side).modify pinIndex fun pin =>
      { pin with connections := pin.connections.eraseP fun connect => connect.pNode = pNode }))
  else none

def removeInputConnection (pNode : ν) (pinIndex : ℕ) : Option (LogicalNode ν δ) :=
  this.removeConnection .input pNode pinIndex

def removeOutputConnection (pNode : ν) (pinIndex : ℕ) : Option (LogicalNode ν δ) :=
  this.removeConnection .output pNode pinIndex

end LogicalNode

variable [DecidableEq ν]

namespace LogicalGraph

variable (g : LogicalGraph ν δ)

/-- The far end is told the number of the removed pin, not that of its own. -/
def removeFarEnd (side : PinSide) (this : ν) (index : ℕ) (g : LogicalGraph ν δ)
    (connection : NodeConnect ν) : Option (LogicalGraph ν δ) :=
  ((g connection.pNode).removeConnection side.other this index).map
    (Function.update g connection.pNode)

def removePin (side : PinSide) (this : ν) (index : ℕ) : Option (LogicalGraph ν δ) :=
  (((g this).pins side)[index]?).elim (some g) fun pin =>
    (pin.connections.foldlM (removeFarEnd side this index) g).map fun g =>
      Function.update g this ((g this).withPins side (((g this).pins side).eraseIdx index))

def removeInput (this : ν) (index : ℕ) : Option (LogicalGraph ν δ) := g.removePin .input this index

def removeOutput (this : ν) (index : ℕ) : Option (LogicalGraph ν δ) := g.removePin .output this index

/-- A link as `LogicalMachine::Load` creates it. -/
def link (startNode : ν) (startPinIndex : ℕ) (endNode : ν) (endPinIndex : ℕ) :
    LogicalGraph ν δ :=
  let g := Function.update g startNode
    ((g startNode).addOutputConnection endNode endPinIndex startPinIndex)
  Function.update g endNode ((g endNode).addInputConnection startNode startPinIndex endPinIndex)

end LogicalGraph

inductive LinkRequest (ν : Type) where
  | link (startNode : ν) (startPinIndex : ℕ) (endNode : ν) (endPinIndex : ℕ)
  | removeInput (node : ν) (index : ℕ)
  | removeOutput (node : ν) (index : ℕ)

def LogicalGraph.step (g : LogicalGraph ν δ) : LinkRequest ν → Option (LogicalGraph ν δ × Unit)
  | .link startNode startPinIndex endNode endPinIndex =>
      some (g.link startNode startPinIndex endNode endPinIndex, ())
  | .removeInput node index => (g.removeInput node index).map fun g => (g, ())
  | .removeOutput node index => (g.removeOutput node index).map fun g => (g, ())

end SRCommon
