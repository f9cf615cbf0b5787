import SRCommon.Serialization.LoadFromFile

/-!
# The deserializer

`SRADeserializer` reads under its walker. `Begin` moves the walker to a child
with the hash of the given id, and `End` moves it back to the parent. Each of
them leaves the walker alone on some of its paths.
-/

namespace SRCommon

namespace SRADeserializer

def walkNode (d : SRADeserializer) : SRANode := getNode d.root d.walker

def pushWalker (d : SRADeserializer) (index : ℕ) : SRADeserializer :=
  { d with walker := index :: d.walker }

def popWalker (d : SRADeserializer) : SRADeserializer := { d with walker := d.walker.tail }

def HasHash (id : SerializationId) (node : SRANode) : Prop := node.label.id.hash = id.hash

instance (id : SerializationId) : DecidablePred (HasHash id) :=
  fun node => inferInstanceAs (Decidable (node.label.id.hash = id.hash))

/-- The child that a loop over the children with a `break` or `return` stops at. -/
def findChild? (id : SerializationId) (node : SRANode) : Option SRANode :=
  node.children.find? fun child => HasHash id child

def findIndex? (id : SerializationId) (node : SRANode) : Option ℕ :=
  node.children.findIdx? fun child => HasHash id child

/-! ## Begin and End -/

/-- The index comes as a `uint32_t`; `none` is the result `false`. -/
def beginItem (id : SerializationId) (index : ℕ) (d : SRADeserializer) : Option SRADeserializer :=
  match d.walkNode.children[index % 2 ^ 32]? with
  | none => none
  | some child => if HasHash id child then some (d.pushWalker (index % 2 ^ 32)) else none

def endItem (d : SRADeserializer) : SRADeserializer :=
  if d.walker = [] then d.report .endItemInvalidWalker
  else if d.walkNode.label.type ≠ .item then d.report .endItemNotItem
  else
    let d := d.popWalker
    if d.walkNode.label.type ≠ .array then d.report .endItemNotArray else d

/-- `none` is the result `false`. -/
def beginObject (id : SerializationId) (d : SRADeserializer) : Option SRADeserializer :=
  (findIndex? id d.walkNode).map d.pushWalker

def endObject (d : SRADeserializer) : SRADeserializer :=
  if d.walker = [] then d.report .endObjectInvalidWalker
  else if d.walkNode.label.type ≠ .object then d.report .endObjectInvalidType
  else d.popWalker

/-- The size of the array that was found, zero if none was. -/
def beginArray (id : SerializationId) (d : SRADeserializer) : ℕ × SRADeserializer :=
  match findIndex? id d.walkNode, findChild? id d.walkNode with
  | some i, some child => (child.children.length, d.pushWalker i)
  | _, _ => (0, d)

/-- A node of another type is reported and left all the same. -/
def endArray (d : SRADeserializer) : SRADeserializer :=
  if d.walker = [] then d.report .endArrayInvalidWalker
  else if d.walkNode.label.type ≠ .array then (d.report .endArrayInvalidType).popWalker
  else d.popWalker

/-! ## Reading leaves -/

/-- The first child with the hash is read if it has the type; else the value stays. -/
def readChild {α : Type} (type : SRASerializationDataType) (get : SRANodeFields → α) (value : α)
    (name : SerializationId) (node : SRANode) : α :=
  match findChild? name node with
  | some child => if child.label.type = type then get child.label else value
  | none => value

def readValue {α : Type} (type : SRASerializationDataType) (get : SRANodeFields → α) (value : α)
    (name : SerializationId) (d : SRADeserializer) : α :=
  readChild type get value name d.walkNode

def readString (value : Text) (name : SerializationId) (d : SRADeserializer) : Text :=
  d.readValue .string (·.string) value name

def readBool (value : Bool) (name : SerializationId) (d : SRADeserializer) : Bool :=
  d.readValue .boolean (·.data.asBoolean) value name

/-- `ReadIntegerImpl<T>`; the cast to `T` keeps the low bits. -/
def readIntegerImpl {width : ℕ} (value : BitVec width) (name : SerializationId)
    (d : SRADeserializer) : BitVec width :=
  d.readValue .integer (fun n => n.data.asInteger.toBitVec.setWidth width) value name

def readFloat (fl : FloatOps) (value : UInt32) (name : SerializationId) (d : SRADeserializer) :
    UInt32 :=
  d.readValue .floating (fun n => fl.narrow n.data.asFloating) value name

def readDouble (value : UInt64) (name : SerializationId) (d : SRADeserializer) : UInt64 :=
  d.readValue .floating (·.data.asFloating) value name

end SRADeserializer

end SRCommon
