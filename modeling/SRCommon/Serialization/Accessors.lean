import SRCommon.Serialization.SRADeserializer
import SRCommon.Serialization.SRASerializer

/-!
# Accessors

The specializations of `ObjectDataAccessor` as one family indexed by the C++
type they are for. Pairs, math vectors and serializable classes save and load
an object whose body is a sequence of members. `SRADeserializer` answers
`IsDefault` and `IsPreserveMode` with `false`, so `Serialization::Load` always
calls the accessor and containers are cleared before they are filled.
-/

namespace SRCommon

inductive IntKind where
  | int8
  | int16
  | int32
  | int64
  | uint8
  | uint16
  | uint32
  | uint64
  deriving DecidableEq

namespace IntKind

def width : IntKind → ℕ
  | int8 | uint8 => 8
  | int16 | uint16 => 16
  | int32 | uint32 => 32
  | int64 | uint64 => 64

def signed : IntKind → Bool
  | int8 | int16 | int32 | int64 => true
  | uint8 | uint16 | uint32 | uint64 => false

/-- `static_cast<int64_t>`. -/
def toInt64 (k : IntKind) (value : BitVec k.width) : Int64 :=
  Int64.ofBitVec (if k.signed then value.signExtend 64 else value.setWidth 64)

/-- The cast back keeps the low bits, so it undoes the cast to 64 bits. -/
theorem setWidth_toInt64 (k : IntKind) (value : BitVec k.width) :
    (k.toInt64 value).toBitVec.setWidth k.width = value := by
  have hwidth : k.width ≤ 64 := by cases k <;> decide
  rw [toInt64, Int64.toBitVec_ofBitVec]
  split
  · ext i hi
    have hi64 : i < 64 := by omega
    rw [BitVec.getElem_setWidth, BitVec.getLsbD_signExtend, if_pos hi, BitVec.getLsbD_eq_getElem hi]
    simp [hi64]
  · rw [BitVec.setWidth_setWidth_of_le _ hwidth, BitVec.setWidth_eq]

end IntKind

/-- An accessor saves a value under an id; a body saves the members of an object. -/
inductive AccessorKind where
  | value
  | body

inductive Accessor : AccessorKind → Type → Type 1
  | boolean : Accessor .value Bool
  | integer (k : IntKind) : Accessor .value (BitVec k.width)
  | float : Accessor .value UInt32
  | double : Accessor .value UInt64
  | string : Accessor .value Text
  | vector {α : Type} (a : Accessor .value α) : Accessor .value (List α)
  | array {α : Type} (n : ℕ) (isDefault : α → Bool) (a : Accessor .value α) :
      Accessor .value (Vector α n)
  | map {κ α : Type} (key : Accessor .value κ) (mapped : Accessor .value α) :
      Accessor .value (List (κ × α))
  | set {α β : Type} (second : α → β) (a : Accessor .value β) : Accessor .value (List α)
  | object {α : Type} (init : α) (body : Accessor .body α) : Accessor .value α
  | nothing : Accessor .body Unit
  | member {α : Type} (id : SerializationId) (a : Accessor .value α) : Accessor .body α
  | checked {α : Type} (id : SerializationId) (isDefault : α → Bool) (a : Accessor .value α) :
      Accessor .body α
  | seq {α β : Type} (first : Accessor .body α) (second : Accessor .body β) :
      Accessor .body (α × β)

namespace Accessor

/-- The value-initialized element that `emplace_back()` makes. -/
def dflt : {kind : AccessorKind} → {α : Type} → Accessor kind α → α
  | _, _, boolean => false
  | _, _, integer _ => 0
  | _, _, float => 0
  | _, _, double => 0
  | _, _, string => []
  | _, _, vector _ => []
  | _, _, array n _ a => Vector.replicate n a.dflt
  | _, _, map _ _ => []
  | _, _, set _ _ => []
  | _, _, object init _ => init
  | _, _, nothing => ()
  | _, _, member _ a => a.dflt
  | _, _, checked _ _ a => a.dflt
  | _, _, seq a b => (a.dflt, b.dflt)

/-! ## Pairs and math vectors -/

/-- `ObjectDataAccessor<std::pair<T, U>>`. -/
def pair {α β : Type} (a : Accessor .value α) (b : Accessor .value β) : Accessor .value (α × β) :=
  object (a.dflt, b.dflt) (seq (member (.create "first") a) (member (.create "second") b))

section

variable {α : Type} (isDefault : α → Bool) (a : Accessor .value α)

/-- `SR_DATA_ACCESSOR_VECTOR2`. -/
def vector2 : Accessor .value (α × α) :=
  object (a.dflt, a.dflt)
    (seq (checked (.create "x") isDefault a) (checked (.create "y") isDefault a))

/-- `SR_DATA_ACCESSOR_VECTOR3`. -/
def vector3 : Accessor .value (α × α × α) :=
  object (a.dflt, a.dflt, a.dflt)
    (seq (checked (.create "x") isDefault a)
      (seq (checked (.create "y") isDefault a) (checked (.create "z") isDefault a)))

/-- `SR_DATA_ACCESSOR_VECTOR4` and the accessor of `Quaternion`. -/
def vector4 : Accessor .value (α × α × α × α) :=
  object (a.dflt, a.dflt, a.dflt, a.dflt)
    (seq (checked (.create "x") isDefault a)
      (seq (checked (.create "y") isDefault a)
        (seq (checked (.create "z") isDefault a) (checked (.create "w") isDefault a))))

end

/-- `IsDefault` of an integer type. -/
def isDefaultInteger {width : ℕ} (value : BitVec width) : Bool := value = 0

def iVector2 := vector2 isDefaultInteger (integer .int32)
def iVector3 := vector3 isDefaultInteger (integer .int32)
def iVector4 := vector4 isDefaultInteger (integer .int32)
def uVector2 := vector2 isDefaultInteger (integer .uint32)
def uVector3 := vector3 isDefaultInteger (integer .uint32)
def uVector4 := vector4 isDefaultInteger (integer .uint32)

def bVector2 := vector2 (fun value => !value) boolean
def bVector3 := vector3 (fun value => !value) boolean
def bVector4 := vector4 (fun value => !value) boolean

def fVector2 (fl : FloatOps) := vector2 fl.equalsZero float
def fVector3 (fl : FloatOps) := vector3 fl.equalsZero float
def fVector4 (fl : FloatOps) := vector4 fl.equalsZero float

/-! ## Save -/

def vectorItemId : SerializationId := .create "i"
def vectorDataId : SerializationId := .create "d"
def itemId : SerializationId := .create "item"
def dataId : SerializationId := .create "data"

section Save

variable (fl : FloatOps)

/-- `ObjectDataAccessor<T>::Save`; a body gets no id of its own. -/
def save : {kind : AccessorKind} → {α : Type} → Accessor kind α → α → SerializationId →
    SRASerializer → SRASerializer
  | _, _, boolean, value, id, s => s.writeBool value id
  | _, _, integer k, value, id, s => s.writeInt (k.toInt64 value) id
  | _, _, float, value, id, s => s.writeDouble (fl.widen value) id
  | _, _, double, value, id, s => s.writeDouble value id
  | _, _, string, value, id, s => s.writeString value id
  | _, _, vector a, value, id, s =>
      (value.foldl (fun s item => (a.save item vectorDataId (s.beginItem vectorItemId)).endItem)
        (s.beginArray value.length id)).endArray
  | _, _, array n isDefault a, value, id, s =>
      (value.toList.foldl (fun s item =>
        if s.isNeedWriteDefaults || !isDefault item then
          (a.save item dataId (s.beginItem itemId)).endItem
        else s) (s.beginArray n id)).endArray
  | _, _, map key mapped, value, id, s =>
      (value.foldl (fun s item =>
        (mapped.save item.2 (.create "second")
          (key.save item.1 (.create "first") (s.beginObject itemId))).endObject)
        (s.beginArray value.length id)).endArray
  | _, _, set second a, value, id, s =>
      (value.foldl (fun s item => a.save (second item) itemId s)
        (s.beginArray value.length id)).endArray
  | _, _, object _ body, value, id, s => (body.save value id (s.beginObject id)).endObject
  | _, _, nothing, _, _, s => s
  | _, _, member id a, value, _, s => a.save value id s
  | _, _, checked id isDefault a, value, _, s =>
      if !s.isNeedWriteDefaults && isDefault value then s else a.save value id s
  | _, _, seq a b, value, id, s => b.save value.2 id (a.save value.1 id s)

end Save

/-! ## Load -/

section Load

open SRADeserializer

/-- The loop of `ObjectDataAccessorVector::Load`; `none` means that it has not
ended when the fuel has. -/
def loadItems {α : Type} (loadItem : α → SRADeserializer → Option (α × SRADeserializer))
    (init : α) : ℕ → ℕ → List α → SRADeserializer → Option (List α × SRADeserializer)
  | 0, _, _, _ => none
  | fuel + 1, index, value, d =>
      match d.beginItem vectorItemId index with
      | none => some (value, d)
      | some d =>
          (loadItem init d).bind fun (item, d) =>
            loadItems loadItem init fuel (index + 1) (value ++ [item]) d.endItem

variable (fl : FloatOps)

/-- `ObjectDataAccessor<T>::Load` into a destination that holds `value`. -/
def load : {kind : AccessorKind} → {α : Type} → Accessor kind α → α → SerializationId →
    SRADeserializer → Option (α × SRADeserializer)
  | _, _, boolean, value, id, d => some (d.readBool value id, d)
  | _, _, integer _, value, id, d => some (d.readIntegerImpl value id, d)
  | _, _, float, value, id, d => some (d.readFloat fl value id, d)
  | _, _, double, value, id, d => some (d.readDouble value id, d)
  | _, _, string, value, id, d => some (d.readString value id, d)
  | _, _, vector a, value, id, d =>
      let (size, d) := d.beginArray id
      if size = 0 then some (value, d)
      else
        (loadItems (fun item d => a.load item vectorDataId d) a.dflt (d.root.count + 1) 0 [] d).map
          fun (value, d) => (value, d.endArray)
  -- The loops over the items of these three are commented out in the source.
  | _, _, array _ _ _, value, id, d => some (value, (d.beginArray id).2.endArray)
  | _, _, map _ _, _, id, d => some ([], (d.beginArray id).2.endArray)
  | _, _, set _ _, _, id, d => some ([], (d.beginArray id).2.endArray)
  | _, _, object _ body, value, id, d =>
      match d.beginObject id with
      | none => some (value, d)
      | some d => (body.load value id d).map fun (value, d) => (value, d.endObject)
  | _, _, nothing, value, _, d => some (value, d)
  | _, _, member id a, value, _, d => a.load value id d
  | _, _, checked id _ a, value, _, d => a.load value id d
  | _, _, seq a b, value, id, d =>
      (a.load value.1 id d).bind fun (first, d) =>
        (b.load value.2 id d).map fun (second, d) => ((first, second), d)

end Load

end Accessor

end SRCommon
