import SRCommon.Common.Hashes
import SRCommon.Lib.RoseTree

/-!
# The tree of a `.sra` document

Serializer and deserializer both hold a tree of `SRANode`s and stacks of
child indices that point into it. A stack is kept with its `back()` as the
head of the list.
-/

namespace SRCommon

/-- An id is compared by its hash alone; the name is what files show. -/
structure SerializationId where
  hash : UInt64
  name : Text
  deriving DecidableEq

namespace SerializationId

def maxNameLength : ℕ := 256

/-- `SerializationId()`: no name and the hash zero. -/
def default : SerializationId := ⟨0, []⟩

/-- `strncpy` copies up to a zero byte or to the end of the buffer, whose last
byte stays zero. The hash is taken of the whole text. -/
def createFromString (text : Text) : SerializationId :=
  ⟨computeHash text, Text.cstr (text.take (maxNameLength - 1))⟩

def createFromCStr (text : Text) : SerializationId :=
  ⟨computeHashCStr text, Text.cstr (text.take (maxNameLength - 1))⟩

/-- `Create` takes a literal, which the compiler keeps below `MaxNameLength`. -/
def create (text : String) : SerializationId := createFromString (Text.lit text)

/-- What a reader makes of the id a writer printed. -/
def reread (id : SerializationId) : SerializationId := createFromString id.name

/-- Ids of zero-free texts that fit the name buffer. -/
def Proper (id : SerializationId) : Prop :=
  ∃ text : Text, text.length < maxNameLength ∧ 0 ∉ text ∧ id = createFromString text

theorem Proper.reread {id : SerializationId} (h : id.Proper) : id.reread = id := by
  obtain ⟨text, hlen, hzero, rfl⟩ := h
  have htake : text.take (maxNameLength - 1) = text := by
    apply List.take_of_length_le
    omega
  simp [SerializationId.reread, createFromString, htake, Text.cstr_eq_self hzero]

theorem zero_notMem_name_createFromString (text : Text) :
    0 ∉ (createFromString text).name := Text.zero_notMem_cstr _

theorem length_name_createFromString (text : Text) :
    (createFromString text).name.length < maxNameLength := by
  have hle : (Text.cstr (text.take (maxNameLength - 1))).length ≤ maxNameLength - 1 :=
    (List.takeWhile_prefix _).length_le.trans (List.length_take_le _ _)
  have hpos : 0 < maxNameLength := by decide
  simp only [createFromString]
  omega

end SerializationId

inductive SRASerializationDataType where
  | unknown
  | root
  | string
  | boolean
  | integer
  | floating
  | object
  | item
  | array
  deriving DecidableEq

/-- The union of the leaf values; the constructor is the member written last. -/
inductive SRATrivialDataType where
  | boolean (b : Bool)
  | integer (i : Int64)
  | floating (d : UInt64)
  deriving DecidableEq

namespace SRATrivialDataType

/-- The members are read under the node type that was set together with them. -/
def asBoolean : SRATrivialDataType → Bool
  | boolean b => b
  | _ => false

def asInteger : SRATrivialDataType → Int64
  | integer i => i
  | _ => 0

def asFloating : SRATrivialDataType → UInt64
  | floating d => d
  | _ => 0

end SRATrivialDataType

structure SRANodeFields where
  id : SerializationId := .default
  type : SRASerializationDataType := .unknown
  string : Text := []
  data : SRATrivialDataType := .boolean false
  deriving DecidableEq

abbrev SRANode := Rose SRANodeFields

/-- `SRANode(id, type)`. -/
def sraNode (id : SerializationId) (type : SRASerializationDataType) : SRANode :=
  .node { id := id, type := type } []

/-- What the code takes from the C++ library for `float` and `double`, on bit
patterns: printing, parsing, conversions and the comparison with zero. -/
structure FloatOps where
  toText : UInt64 → Text
  stod : Text → Option UInt64
  widen : UInt32 → UInt64
  narrow : UInt64 → UInt32
  equalsZero : UInt32 → Bool

/-- Floating point on the numbers 0 and 1.5. -/
def sampleFloats : FloatOps where
  toText d := if d = 0x3ff8000000000000 then Text.lit "1.500000" else Text.lit "0.000000"
  stod t := some (if t = Text.lit "1.500000" then 0x3ff8000000000000 else 0)
  widen f := if f = 0x3fc00000 then 0x3ff8000000000000 else 0
  narrow d := if d = 0x3ff8000000000000 then 0x3fc00000 else 0
  equalsZero f := f = 0

/-! ## `SRAISerialization::GetNode` -/

/-- An invalid stack gives the root, after a logged error. -/
def getNode (root : SRANode) (stack : List ℕ) : SRANode := (root.at? stack).getD root

/-- Writing through the reference that `GetNode` returns. -/
def updateNode (stack : List ℕ) (f : SRANode → SRANode) (root : SRANode) : SRANode :=
  if (root.at? stack).isSome then root.modifyAt stack f else f root

theorem getNode_of_some {root n : SRANode} {stack : List ℕ} (h : root.at? stack = some n) :
    getNode root stack = n := by simp [getNode, h]

theorem updateNode_of_some {root n : SRANode} {stack : List ℕ} (h : root.at? stack = some n)
    (f : SRANode → SRANode) : updateNode stack f root = Rose.modifyAt stack f root := by
  simp [updateNode, h]

theorem count_getNode_le (root : SRANode) (stack : List ℕ) :
    (getNode root stack).count ≤ root.count := by
  cases h : root.at? stack with
  | none => simp [getNode, h]
  | some n => simpa [getNode, h] using Rose.count_at?_le h

theorem count_updateNode_le {f : SRANode → SRANode} {k : ℕ}
    (h : ∀ n, (f n).count ≤ n.count + k) (stack : List ℕ) (root : SRANode) :
    (updateNode stack f root).count ≤ root.count + k := by
  unfold updateNode
  split
  · exact Rose.count_modifyAt_le h stack root
  · exact h root

end SRCommon
