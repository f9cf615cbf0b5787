import SRCommon.Serialization.ToString

/-!
# The serializer

`SRASerializer` appends nodes under its stack. Writing a leaf leaves the stack
alone, `Begin` opens a container that is then the current node, and `End`
returns to the parent.
-/

namespace SRCommon

structure SRASerializer where
  root : SRANode := sraNode (.create "Root") .root
  stack : List ℕ := []
  isNeedWriteDefaults : Bool := false

namespace SRASerializer

def currentNode (s : SRASerializer) : SRANode := getNode s.root s.stack

def appendNode (s : SRASerializer) (node : SRANode) : SRASerializer :=
  { s with root := updateNode s.stack (Rose.append [node]) s.root }

def writeString (value : Text) (name : SerializationId) (s : SRASerializer) : SRASerializer :=
  s.appendNode (.node { id := name, type := .string, string := value } [])

def writeBool (value : Bool) (name : SerializationId) (s : SRASerializer) : SRASerializer :=
  s.appendNode (.node { id := name, type := .boolean, data := .boolean value } [])

def writeInt (value : Int64) (name : SerializationId) (s : SRASerializer) : SRASerializer :=
  s.appendNode (.node { id := name, type := .integer, data := .integer value } [])

def writeDouble (value : UInt64) (name : SerializationId) (s : SRASerializer) : SRASerializer :=
  s.appendNode (.node { id := name, type := .floating, data := .floating value } [])

/-- The new node is the last child of the current one. -/
def beginNode (node : SRANode) (s : SRASerializer) : SRASerializer :=
  let s' := s.appendNode node
  { s' with stack := (s'.currentNode.children.length - 1) :: s'.stack }

/-- On a node that is no array the source only logs. -/
def beginItem (id : SerializationId) (s : SRASerializer) : SRASerializer :=
  s.beginNode (sraNode id .item)

def beginObject (name : SerializationId) (s : SRASerializer) : SRASerializer :=
  s.beginNode (sraNode name .object)

/-- The size is a hint for `reserve`. -/
def beginArray (_size : ℕ) (name : SerializationId) (s : SRASerializer) : SRASerializer :=
  s.beginNode (sraNode name .array)

/-- `m_stack.pop_back()`, which the accessors call after a `Begin` only. -/
def endNode (s : SRASerializer) : SRASerializer := { s with stack := s.stack.tail }

def endItem (s : SRASerializer) : SRASerializer := s.endNode

def endObject (s : SRASerializer) : SRASerializer := s.endNode

def endArray (s : SRASerializer) : SRASerializer := s.endNode

/-! ## What the calls append -/

/-- The nodes were appended under the stack, which is as it was. -/
def appendNodes (s : SRASerializer) (nodes : List SRANode) : SRASerializer :=
  { s with root := Rose.modifyAt s.stack (Rose.append nodes) s.root }

def Valid (s : SRASerializer) : Prop := (s.root.at? s.stack).isSome

theorem Valid.appendNodes {s : SRASerializer} (h : s.Valid) (nodes : List SRANode) :
    (s.appendNodes nodes).Valid := by
  simpa [Valid, SRASerializer.appendNodes, Rose.at?_modifyAt] using h

theorem appendNodes_nil {s : SRASerializer} (h : s.Valid) : s.appendNodes [] = s := by
  obtain ⟨n, hn⟩ := Option.isSome_iff_exists.mp h
  rw [appendNodes, Rose.modifyAt_id hn (Rose.append_nil n)]

theorem appendNodes_appendNodes (s : SRASerializer) (ns ms : List SRANode) :
    (s.appendNodes ns).appendNodes ms = s.appendNodes (ns ++ ms) := by
  simp [appendNodes, Rose.modifyAt_append_append]

@[simp] theorem isNeedWriteDefaults_appendNodes (s : SRASerializer) (nodes : List SRANode) :
    (s.appendNodes nodes).isNeedWriteDefaults = s.isNeedWriteDefaults := rfl

@[simp] theorem isNeedWriteDefaults_beginNode (s : SRASerializer) (node : SRANode) :
    (s.beginNode node).isNeedWriteDefaults = s.isNeedWriteDefaults := rfl

theorem appendNode_eq {s : SRASerializer} (h : s.Valid) (node : SRANode) :
    s.appendNode node = s.appendNodes [node] := by
  obtain ⟨n, hn⟩ := Option.isSome_iff_exists.mp h
  rw [appendNode, updateNode_of_some hn, appendNodes]

theorem Valid.beginNode {s : SRASerializer} (h : s.Valid) (node : SRANode) :
    (s.beginNode node).Valid := by
  obtain ⟨n, hn⟩ := Option.isSome_iff_exists.mp h
  have hat : (Rose.modifyAt s.stack (Rose.append [node]) s.root).at? s.stack =
      some (n.append [node]) := by rw [Rose.at?_modifyAt, hn, Option.map_some]
  simp [Valid, SRASerializer.beginNode, appendNode, updateNode_of_some hn, currentNode,
    getNode_of_some hat, Rose.at?_append_child hn]

/-- What is appended between `Begin` and `End` becomes the children of the new node. -/
theorem endNode_appendNodes_beginNode {s : SRASerializer} (h : s.Valid) (fields : SRANodeFields)
    (children : List SRANode) :
    ((s.beginNode (.node fields [])).appendNodes children).endNode =
      s.appendNodes [.node fields children] := by
  obtain ⟨n, hn⟩ := Option.isSome_iff_exists.mp h
  have hat : (Rose.modifyAt s.stack (Rose.append [.node fields []]) s.root).at? s.stack =
      some (n.append [.node fields []]) := by rw [Rose.at?_modifyAt, hn, Option.map_some]
  have hchild := Rose.modifyAt_append_child hn (.node fields []) (Rose.append children)
  simp only [beginNode, appendNode, updateNode_of_some hn, currentNode, getNode_of_some hat,
    Rose.children_append, List.length_append, List.length_singleton, Nat.add_sub_cancel,
    appendNodes, endNode, List.tail_cons, hchild]
  rfl

end SRASerializer

end SRCommon
