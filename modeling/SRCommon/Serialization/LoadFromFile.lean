import SRCommon.Serialization.Node

/-!
# Reading a document

`SRADeserializer::LoadFromFile` takes the lines one by one. A line is read as
a depth, a kind and a payload; `m_stack` is popped down to the depth and then
changed by the kind. `none` stands for undefined behaviour: `pop_back` on an
empty vector, or the overflow of the `int32_t` line counter.
-/

namespace SRCommon

open Text

/-! ## Reports -/

/-- What `ReportError` and the `SRHalt`s of `SRADeserializer` are called with. -/
inductive SRAReport where
  | doubleRoot (line : ℕ)
  | typeNotFound (line : ℕ)
  | invalidType (type : Text)
  | endItemInvalidWalker
  | endItemNotItem
  | endItemNotArray
  | endObjectInvalidWalker
  | endObjectInvalidType
  | endArrayInvalidWalker
  | endArrayInvalidType
  deriving DecidableEq

def SRAReport.message : SRAReport → Text
  | doubleRoot line => lit "Double root on line: " ++ natText line
  | typeNotFound line => lit "Type not found on line: " ++ natText line
  | invalidType type => lit "Invalid type: " ++ type
  | endItemInvalidWalker => lit "SRADeserializer::EndItem() : invalid walker!"
  | endItemNotItem => lit "SRADeserializer::EndItem() : node type is not Item!"
  | endItemNotArray => lit "SRADeserializer::EndItem() : node type is not Array!"
  | endObjectInvalidWalker => lit "SRADeserializer::EndObject() : invalid walker!"
  | endObjectInvalidType => lit "SRADeserializer::EndObject() : invalid node type!"
  | endArrayInvalidWalker => lit "SRADeserializer::EndArray() : invalid walker!"
  | endArrayInvalidType => lit "SRADeserializer::EndArray() : invalid node type!"

structure SRADeserializer where
  root : SRANode := .node {} []
  stack : List ℕ := []
  walker : List ℕ := []
  reports : List SRAReport := []

namespace SRADeserializer

def report (d : SRADeserializer) (r : SRAReport) : SRADeserializer :=
  { d with reports := d.reports ++ [r] }

def currentNode (d : SRADeserializer) : SRANode := getNode d.root d.stack

end SRADeserializer

/-! ## Decoding a line -/

inductive RecordKind where
  | root
  | value
  | object
  | array
  | item
  | string
  | boolean
  | integer
  | floating
  deriving DecidableEq

/-- The labels of the `switch` on the kind. -/
def RecordKind.ofChar? (c : UInt8) : Option RecordKind :=
  if c = ch 'r' then some root
  else if c = ch 'v' then some value
  else if c = ch 'o' then some object
  else if c = ch 'a' then some array
  else if c = ch 'k' then some item
  else if c = ch 's' then some string
  else if c = ch 'b' then some boolean
  else if c = ch 'i' then some integer
  else if c = ch 'f' then some floating
  else none

/-- Leading tabs go, unless the line has nothing else. -/
def stripTabs (line : Text) : Text :=
  if line.all (· = ch '\t') then line else line.dropWhile (· = ch '\t')

/-- `LexicalCast<int32_t>` and `LexicalCast<int64_t>` hand `data()` to `stoi` and
`stoll`, so the argument is all that follows in the buffer; an exception gives zero. -/
def lexicalCastInt32 (data : Text) : ℤ := (sto 32 data).getD 0

def lexicalCastInt64 (data : Text) : Int64 := Int64.ofInt ((sto 64 data).getD 0)

def lexicalCastDouble (fl : FloatOps) (data : Text) : UInt64 := (fl.stod data).getD 0

/-- `static_cast<size_t>` of the depth. -/
def sizeOfDepth (depth : ℤ) : ℕ := (depth % 2 ^ 64).toNat

def payload (line : Text) : Text := after (ch ':') line

/-- `while (m_stack.size() + 1 > depth && !m_stack.empty()) m_stack.pop_back();` -/
def popToDepth (depth : ℕ) : List ℕ → List ℕ
  | [] => []
  | i :: stack =>
      if (i :: stack).length + 1 > depth then popToDepth depth stack else i :: stack

/-! ## The loop -/

namespace SRADeserializer

/-- `emplace_back` on the children of the current node and on `m_stack`. -/
def openNode (d : SRADeserializer) (fields : SRANodeFields) : SRADeserializer :=
  { d with
    root := updateNode d.stack (Rose.append [.node fields []]) d.root
    stack := d.currentNode.children.length :: d.stack }

def relabelCurrent (d : SRADeserializer) (f : SRANodeFields → SRANodeFields) :
    SRADeserializer :=
  { d with root := updateNode d.stack (Rose.relabel f) d.root }

def popStack (d : SRADeserializer) : Option SRADeserializer :=
  match d.stack with
  | [] => none
  | _ :: stack => some { d with stack := stack }

/-- The `switch` of the loop. -/
def applyRecord (fl : FloatOps) (kind : RecordKind) (line : Text) (d : SRADeserializer) :
    Option SRADeserializer :=
  let id := SerializationId.createFromString (payload line)
  match kind with
  | .root => some (d.relabelCurrent fun n => { n with type := .root, id := id })
  | .value => some (d.openNode { id := id })
  | .object => some (d.openNode { id := id, type := .object })
  | .array => some (d.openNode { id := id, type := .array })
  | .item => some (d.openNode { id := id, type := .item })
  | .string => (d.relabelCurrent fun n =>
      { n with type := .string, string := payload line }).popStack
  | .boolean => (d.relabelCurrent fun n =>
      { n with type := .boolean, data := .boolean (payload line = lit "true") }).popStack
  | .integer => (d.relabelCurrent fun n =>
      { n with type := .integer, data := .integer (lexicalCastInt64 (payload line)) }).popStack
  | .floating => (d.relabelCurrent fun n =>
      { n with
        type := .floating
        data := .floating (lexicalCastDouble fl (payload line)) }).popStack

/-- The body of the loop for the line with index `i`. -/
def loadLine (fl : FloatOps) (i : ℕ) (rawLine : Text) (d : SRADeserializer) :
    Option SRADeserializer :=
  let line := stripTabs rawLine
  if line = [] then some d
  else
    let depth := lexicalCastInt32 line
    if depth = 0 ∧ d.stack ≠ [] then some (d.report (.doubleRoot (i + 1)))
    else
      match after (ch '-') line with
      | [] => some (d.report (.typeNotFound (i + 1)))
      | c :: rest =>
          let d := { d with stack := popToDepth (sizeOfDepth depth) d.stack }
          match RecordKind.ofChar? c with
          | some kind => d.applyRecord fl kind line
          | none => some (d.report (.invalidType (cstr (c :: rest))))

def int32Max : ℕ := 2 ^ 31 - 1

/-- The loop from index `i` on; incrementing an `int32_t` past its maximum is undefined. -/
def loadLines (fl : FloatOps) : ℕ → List Text → SRADeserializer → Option SRADeserializer
  | _, [], d => some d
  | i, line :: lines, d =>
      (d.loadLine fl i line).bind fun d' =>
        if i = int32Max then none else loadLines fl (i + 1) lines d'

/-- `LoadFromFile` on the lines of an existing file. -/
def loadFromFile (fl : FloatOps) (lines : List Text) (d : SRADeserializer) :
    Option (SRADeserializer × Bool) :=
  match lines with
  | [] => some (d, false)
  | header :: rest =>
      if lit "sra format" <:+: header then (loadLines fl 1 rest d).map (·, true)
      else some (d, false)

end SRADeserializer

end SRCommon
