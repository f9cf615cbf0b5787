import SRCommon.FileSystem.Path
import SRCommon.Lib.KeyedUpdate
import SRCommon.Types.NumberReads

/-!
# Properties

The properties of a component: standard ones, paths, enumerators, references to
properties that are kept elsewhere, and containers of properties. They save
blocks behind a version, the name of their type and a size.
-/

namespace SRCommon

open MarshalUtils

/-- An atom is known by its text. That two texts may have one hash is left out. -/
abbrev StringAtom := Text

/-- The types of the values that are modelled; `Float`, vectors and others are not. -/
inductive StandardPropertyType where
  | bool
  | int8
  | uint8
  | int16
  | uint16
  | int32
  | uint32
  | int64
  | uint64
  | string
  | stringAtom
  deriving DecidableEq

namespace StandardPropertyType

def all : List StandardPropertyType :=
  [bool, int8, uint8, int16, uint16, int32, uint32, int64, uint64, string, stringAtom]

/-- `EnumReflector::ToStringAtom`. -/
def toStringAtom : StandardPropertyType → StringAtom
  | bool => Text.lit "Bool"
  | int8 => Text.lit "Int8"
  | uint8 => Text.lit "UInt8"
  | int16 => Text.lit "Int16"
  | uint16 => Text.lit "UInt16"
  | int32 => Text.lit "Int32"
  | uint32 => Text.lit "UInt32"
  | int64 => Text.lit "Int64"
  | uint64 => Text.lit "UInt64"
  | string => Text.lit "String"
  | stringAtom => Text.lit "StringAtom"

/-- `EnumReflector::FromString`, which gives `Unknown` for what is no name. -/
def fromString (value : StringAtom) : Option StandardPropertyType :=
  all.find? fun type => type.toStringAtom = value

end StandardPropertyType

/-- What the getter of a `StandardProperty` gives. -/
inductive StandardValue where
  | bool (value : Bool)
  | int8 (value : Int8)
  | uint8 (value : UInt8)
  | int16 (value : Int16)
  | uint16 (value : UInt16)
  | int32 (value : Int32)
  | uint32 (value : UInt32)
  | int64 (value : Int64)
  | uint64 (value : UInt64)
  | string (value : Text)
  | stringAtom (value : StringAtom)
  deriving DecidableEq

namespace Marshal

/-- `Write` of a number that is converted to the type. -/
def writeNumber (s : Marshal) (t : CppType) (n : ℕ) : Option Marshal :=
  saveValue s (⟨n % t.range .lp64, Nat.mod_lt _ (t.range_pos .lp64)⟩ : t.Value .lp64)

/-- `Write` of a `std::string` or a `StringAtom`. -/
def writeString (s : Marshal) (value : Text) : Option Marshal := saveShortString s value

def readString (s : Marshal) : Option (Text × Marshal) := loadShortStr s

end Marshal

namespace StandardValue

def type : StandardValue → StandardPropertyType
  | bool _ => .bool
  | int8 _ => .int8
  | uint8 _ => .uint8
  | int16 _ => .int16
  | uint16 _ => .uint16
  | int32 _ => .int32
  | uint32 _ => .uint32
  | int64 _ => .int64
  | uint64 _ => .uint64
  | string _ => .string
  | stringAtom _ => .stringAtom

/-- The `switch` of `StandardProperty::SaveProperty`: `none` where the type is not supported. -/
def write (pBlock : Marshal) : StandardValue → Option (Option Marshal)
  | bool value => some (pBlock.writeNumber .bool value.toNat)
  | int16 value => some (pBlock.writeNumber .int value.toInt32.toUInt32.toNat)
  | uint16 value => some (pBlock.writeNumber .unsignedInt value.toNat)
  | int32 value => some (pBlock.writeNumber .int value.toUInt32.toNat)
  | uint32 value => some (pBlock.writeNumber .unsignedInt value.toNat)
  | string value | stringAtom value => some (pBlock.writeString value)
  | int8 _ | uint8 _ | int64 _ | uint64 _ => none

/-- The `switch` of `StandardProperty::LoadProperty`. -/
def read (pBlock : Marshal) : StandardValue → Option StandardValue
  | bool _ => (pBlock.readNumber .bool).map fun r => bool (decide (r.1 ≠ 0))
  | int16 _ => (pBlock.readNumber .short).map fun r => int16 (UInt16.ofNat r.1).toInt16
  | uint16 _ => (pBlock.readNumber .unsignedShort).map fun r => uint16 (UInt16.ofNat r.1)
  | int32 _ => (pBlock.readNumber .int).map fun r => int32 (UInt32.ofNat r.1).toInt32
  | uint32 _ => (pBlock.readNumber .unsignedInt).map fun r => uint32 (UInt32.ofNat r.1)
  | string _ => pBlock.readString.map fun r => string r.1
  | stringAtom _ => pBlock.readString.map fun r => stringAtom r.1
  | value => some value

end StandardValue

structure PropertyBase where
  name : StringAtom
  dontSave : Bool := false
  /-- What the condition gives. -/
  isActive : Bool := true

/-- A property with the variable that its getter and its setter are about. -/
inductive Property where
  | standard (base : PropertyBase) (value : StandardValue)
  | path (base : PropertyBase) (value : Path)
  | enum (base : PropertyBase) (value : StringAtom)
  /-- The getter may give a null pointer. -/
  | external (base : PropertyBase) (property : Option Property)
  | container (base : PropertyBase) (properties : List Property)

namespace PropertyBase

/-- `AllocatePropertyBlock` gives a block. -/
def isSaved (base : PropertyBase) : Bool := !base.dontSave && base.isActive

/-- `SR_REGISTER_TYPE_TRAITS_PROPERTY` is used with this number everywhere. -/
def version : ℕ := 1000

def savePropertyBase (base : PropertyBase) (typeName : StringAtom) (marshal pBlock : Marshal) :
    Option Marshal :=
  if base.dontSave then some marshal
  else do
    let marshal ← marshal.writeNumber .unsignedShort version
    let marshal ← marshal.writeString typeName
    let marshal ← marshal.writeNumber .unsignedInt pBlock.size.toNat
    marshal.append pBlock

def loadPropertyBase (base : PropertyBase) (typeName : StringAtom) (marshal : Marshal) :
    Option (Option Marshal × Marshal) :=
  if base.dontSave then some (none, marshal)
  else do
    let (loadedVersion, marshal) ← marshal.readNumber .unsignedShort
    let (loadedTypeName, marshal) ← marshal.readString
    let (size, marshal) ← marshal.readNumber .unsignedInt
    let (pBlock, marshal) ← marshal.readBytesPtr (UInt64.ofNat size)
    if loadedTypeName ≠ typeName then some (none, marshal)
    else if loadedVersion ≠ version then some (none, marshal)
    else some (pBlock, marshal)

end PropertyBase

namespace Property

def base : Property → PropertyBase
  | standard base _ | path base _ | enum base _ | external base _ | container base _ => base

def name (p : Property) : StringAtom := p.base.name

def isSaved (p : Property) : Bool := p.base.isSaved

/-- `GetPropertyTypeName`. -/
def typeName : Property → StringAtom
  | standard .. => Text.lit "StandardProperty"
  | path .. => Text.lit "PathProperty"
  | enum .. => Text.lit "EnumProperty"
  | external .. => Text.lit "ExternalProperty"
  | container .. => Text.lit "PropertyContainer"

/-! ## Saving -/

mutual

def saveProperty : Property → Marshal → Option Marshal
  | standard base value, marshal =>
      if base.isSaved then do
        let pBlock ← Marshal.writeString Stream.empty value.type.toStringAtom
        match value.write pBlock with
        | none => some marshal
        | some written => written.bind (base.savePropertyBase (Text.lit "StandardProperty") marshal)
      else some marshal
  | path base value, marshal =>
      if base.isSaved then
        (Marshal.writeString Stream.empty value.text).bind
          (base.savePropertyBase (Text.lit "PathProperty") marshal)
      else some marshal
  | enum base value, marshal =>
      if base.isSaved then
        (Marshal.writeString Stream.empty value).bind
          (base.savePropertyBase (Text.lit "EnumProperty") marshal)
      else some marshal
  | external base property, marshal =>
      if base.isSaved then do
        let externalBlock ← (match property with
          | some pExternal => saveProperty pExternal Stream.empty
          | none => some Stream.empty)
        -- the size and the external block go in front of the block, which stays empty
        let marshal ← marshal.writeNumber .unsignedInt externalBlock.size.toNat
        let marshal ← marshal.append externalBlock
        base.savePropertyBase (Text.lit "ExternalProperty") marshal Stream.empty
      else some marshal
  | container base properties, marshal =>
      if base.isSaved then do
        let (count, propertiesMarshal) ← saveProperties properties 0 Stream.empty
        let pBlock ← Marshal.writeNumber Stream.empty .unsignedShort count.toNat
        let pBlock ← pBlock.append propertiesMarshal
        base.savePropertyBase (Text.lit "PropertyContainer") marshal pBlock
      else some marshal

/-- The loop of `PropertyContainer::SaveProperty`. -/
def saveProperties : List Property → UInt16 → Marshal → Option (UInt16 × Marshal)
  | [], count, propertiesMarshal => some (count, propertiesMarshal)
  | p :: properties, count, propertiesMarshal =>
      if p.isSaved then do
        let propertyMarshal ← saveProperty p Stream.empty
        let propertiesMarshal ← propertiesMarshal.writeString p.name
        let propertiesMarshal ←
          propertiesMarshal.writeNumber .unsignedInt propertyMarshal.size.toNat
        let propertiesMarshal ← propertiesMarshal.append propertyMarshal
        saveProperties properties (count + 1) propertiesMarshal
      else saveProperties properties count propertiesMarshal

end

/-! ## Loading -/

/-- The loop of `PropertyContainer::LoadProperty`. -/
def loadProperties (load : Property → Marshal → Option (Property × Marshal)) :
    ℕ → Marshal → List Property → Option (List Property)
  | 0, _, properties => some properties
  | count + 1, pBlock, properties => do
      let (name, pBlock) ← pBlock.readString
      let (size, pBlock) ← pBlock.readNumber .unsignedInt
      let (propertyMarshal, pBlock) ← pBlock.readBytes (UInt64.ofNat size)
      let properties ← KeyedUpdate.update Property.name name
        (fun p => (load p propertyMarshal).map Prod.fst) properties
      loadProperties load count pBlock properties

/-- What the `LoadProperty` functions do with the block. -/
def loadBlock (fuel : ℕ) (load : Property → Marshal → Option (Property × Marshal))
    (pBlock : Marshal) : Property → Option Property
  | standard base value => do
      let (typeName, pBlock) ← pBlock.readString
      if StandardPropertyType.fromString typeName ≠ some value.type then some (standard base value)
      else (value.read pBlock).map (standard base)
  | path base _ => do
      let (text, _) ← pBlock.readString
      (Path.ofString fuel text).map (path base)
  | enum base _ => pBlock.readString.map fun r => enum base r.1
  | external base property => do
      let (blockSize, pBlock) ← pBlock.readNumber .unsignedInt
      let (externalBlock, _) ← pBlock.readBytes (UInt64.ofNat blockSize)
      match property with
      | some pExternal => (load pExternal externalBlock).map fun r => external base (some r.1)
      | none => some (external base none)
  | container base properties => do
      let (count, pBlock) ← pBlock.readNumber .unsignedShort
      (loadProperties load count pBlock properties).map (container base)

/-- The recursion, and the loop that makes a path of a text, run on fuel. -/
def loadProperty : ℕ → Property → Marshal → Option (Property × Marshal)
  | 0, _, _ => none
  | fuel + 1, p, marshal => do
      let (pBlock, marshal) ← p.base.loadPropertyBase p.typeName marshal
      match pBlock with
      | none => some (p, marshal)
      | some pBlock => (loadBlock (fuel + 1) (loadProperty fuel) pBlock p).map (·, marshal)

end Property

end SRCommon
