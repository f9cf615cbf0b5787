import SRCommon.Common.HashManager
import SRCommon.Lib.SortedMap
import SRCommon.Resources.Xml
import SRCommon.SRLM.DataType

/-!
# Logical values in XML

`SaveXml` writes the variables of a struct under the decimal digits of their
hashes. `LoadXml` takes what it finds there for their names.
-/

namespace SRCommon

open DataTypeClass (toStringAtom)

/-- The variables of structs are kept in the order of their hashes. -/
abbrev DataVars := List (UInt64 × DataType)

def DataVars.Sorted (vars : DataVars) : Prop := SortedMap.Sorted UInt64.toNat vars

/-- `AddVariable`. A variable that is there is replaced. -/
def DataVars.addVariable (vars : DataVars) (name : UInt64) (data : DataType) : DataVars :=
  SortedMap.insert UInt64.toNat name data vars

/-- The registered types: structs by the hashes of their names, and enumerations. -/
structure DataTypeManager where
  structs : UInt64 → Option DataVars
  sorted : ∀ hash vars, structs hash = some vars → vars.Sorted
  reflectors : List Text := []

namespace ValueType

/-- The name of the attribute with the value. -/
def attributeName (type : ValueType) : Text := type.getClass.toStringAtom

/-- In the order of their classes. -/
def all : List ValueType :=
  [bool, float, double, string, int8, int16, int32, int64, uint8, uint16, uint32, uint64]

def default : (type : ValueType) → type.Value
  | bool => false
  | float => (0 : UInt32)
  | double => (0 : UInt64)
  | string => []
  | int8 => (0 : Int8)
  | int16 => (0 : Int16)
  | int32 => (0 : Int32)
  | int64 => (0 : Int64)
  | uint8 => (0 : UInt8)
  | uint16 => (0 : UInt16)
  | uint32 => (0 : UInt32)
  | uint64 => (0 : UInt64)

/-- The text of a value in an attribute. The numbers are converted to wider ones before. -/
def toXml (xml : XmlConversions) : (type : ValueType) → type.Value → Text
  | bool, value => cond value (Text.lit "true") (Text.lit "false")
  | float, value => xml.floatText value
  | double, value => xml.doubleText value
  | string, value => value
  | int8, value => Text.intText (Int8.toInt value)
  | int16, value => Text.intText (Int16.toInt value)
  | int32, value => Text.intText (Int32.toInt value)
  | int64, value => Text.intText (Int64.toInt value)
  | uint8, value => Text.natText (UInt8.toNat value)
  | uint16, value => Text.natText (UInt16.toNat value)
  | uint32, value => Text.natText (UInt32.toNat value)
  | uint64, value => Text.natText (UInt64.toNat value)

def ofXml (xml : XmlConversions) : (type : ValueType) → Text → type.Value
  | bool, text => xml.asBool text
  | float, text => xml.asFloat text
  | double, text => xml.asDouble text
  | string, text => text
  | int8, text => (xml.asInt text).toInt8
  | int16, text => (xml.asInt text).toInt16
  | int32, text => xml.asInt text
  | int64, text => xml.asLLong text
  | uint8, text => (xml.asUInt text).toUInt8
  | uint16, text => (xml.asUInt text).toUInt16
  | uint32, text => xml.asUInt text
  | uint64, text => xml.asULLong text

end ValueType

namespace DataTypeClass

/-- The class of a value, `SetCustomValue` of which `LoadXml` calls. -/
def valueType : DataTypeClass → Option ValueType
  | bool => some .bool
  | float => some .float
  | double => some .double
  | string => some .string
  | int8 => some .int8
  | int16 => some .int16
  | int32 => some .int32
  | int64 => some .int64
  | uint8 => some .uint8
  | uint16 => some .uint16
  | uint32 => some .uint32
  | uint64 => some .uint64
  | _ => .none

end DataTypeClass

namespace DataType

/-- What `DataTypeAllocator` can allocate, by class. -/
def allocators : List DataType :=
  [leaf .none (), leaf .flow (0 : Int64), leaf (.enum none) (0 : Int64), struct (-1) [],
    leaf .array ()] ++ ValueType.all.map fun type => leaf (.value type) type.default

def allocate (hashName : UInt64) : Option DataType :=
  allocators.find? fun data => data.getHashName = hashName

end DataType

namespace DataTypeManager

variable (types : DataTypeManager)

def reflector (name : Text) : Option Text :=
  types.reflectors.find? fun r => hashArrayRepresentation r = hashArrayRepresentation name

def createByName (name : Text) : Option DataType :=
  let hashName := hashArrayRepresentation name
  (types.structs hashName).elim
    ((DataType.allocate hashName).or
      ((types.reflector name).map fun r => .leaf (.enum (some r)) (0 : Int64)))
    fun vars => some (.struct hashName vars)

end DataTypeManager

def XmlTag.appendNames (tag : XmlTag) (data : DataType) : XmlTag :=
  (tag.appendAttribute (Text.lit "Name") data.getName).appendAttribute (Text.lit "Class")
    data.getClass.toStringAtom

def XmlTag.appendValue (tag : XmlTag) (xml : XmlConversions) :
    (type : LeafType) → type.Value → XmlTag
  | .none, _ => tag
  | .flow, _ => tag
  | .array, _ => tag
  | .enum none, _ => tag
  | .enum (some _), value =>
      tag.appendAttribute (ValueType.attributeName .int64) (ValueType.toXml xml .int64 value)
  | .value type, value => tag.appendAttribute type.attributeName (type.toXml xml value)

def varTag (hashName : UInt64) : XmlTag :=
  ({ name := Text.lit "Var" } : XmlTag).appendAttribute (Text.lit "VarName")
    (Text.natText hashName.toNat)

namespace DataType

section

variable (names : HashManager) (xml : XmlConversions)

mutual

/-- The name of a struct is looked up, and without a name a null pointer is read. -/
def saveXml : DataType → XmlTag → Option XmlNode
  | leaf type value, tag =>
      some (.node ((tag.appendNames (leaf type value)).appendValue xml type value) [])
  | struct name vars, tag => do
      let info ← names.strings name
      let nodes ← saveVars vars
      let tag := tag.appendNames (struct name vars)
      some (.node (tag.appendAttribute (Text.lit "Struct") info.data) nodes)

def saveVars : List (UInt64 × DataType) → Option (List XmlNode)
  | [] => some []
  | (hashName, var) :: vars => do
      let node ← saveXml var (varTag hashName)
      let nodes ← saveVars vars
      some (node :: nodes)

end

end

section

variable (types : DataTypeManager) (xml : XmlConversions)

/-- The cases of `LoadXml`, given how the variables of a struct are loaded. -/
def loadAs (data : DataType) (tag : XmlTag) (name : Text) (loadVars : DataVars → Option DataVars) :
    DataTypeClass → Option (Option DataType)
  | .struct =>
      match data with
      | struct _ vars => (loadVars vars).map fun vars =>
          some (struct (hashArrayRepresentation (tag.text (Text.lit "Struct"))) vars)
      | _ => some none
  | .enum =>
      (types.reflector name).elim (some none) fun r =>
        let value : Int64 := xml.asLLong (tag.text (ValueType.attributeName .int64))
        match data with
        | leaf (.enum _) _ => some (some (leaf (.enum (some r)) value))
        | leaf .flow _ => some (some (leaf .flow value))
        | _ => some none
  | c => c.valueType.elim (some (some data)) fun type =>
      (data.setCustomValue type (type.ofXml xml (tag.text type.attributeName))).map some

mutual

/-- `some none` stands for the null pointer. -/
def loadXml : XmlNode → Option (Option DataType)
  | .node tag nodes =>
      (tag.getAttribute (Text.lit "Name")).elim (some none) fun name =>
        (types.createByName name).elim (some none) fun data =>
          data.loadAs types xml tag name (loadVars nodes)
            (DataTypeClass.fromString (tag.text (Text.lit "Class")))

/-- A variable that cannot be loaded is left out. -/
def loadVars : List XmlNode → DataVars → Option DataVars
  | [], vars => some vars
  | node :: nodes, vars =>
      if node.label.name = Text.lit "Var" then do
        let data ← loadXml node
        loadVars nodes (data.elim vars (vars.addVariable
          (hashArrayRepresentation (node.label.text (Text.lit "VarName")))))
      else loadVars nodes vars

end

end

end DataType

end SRCommon
