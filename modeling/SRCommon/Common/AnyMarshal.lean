import SRCommon.Common.BaseMarshal

/-!
# Any values

`SaveAny` and `LoadAny` of `AnyMarshal.h`, and the type an `std::any` has for
them. `AnyVisitor` compares `typeid`s, so a type is found only under the very
name it stands under in the list.
-/

namespace SRCommon

inductive StandardType where
  | unknown
  | bool
  | int8
  | uint8
  | int16
  | uint16
  | int32
  | uint32
  | int64
  | uint64
  | float
  | double
  | string
  deriving DecidableEq

namespace StandardType

def code : StandardType → ℕ
  | unknown => 0
  | bool => 1
  | int8 => 2
  | uint8 => 3
  | int16 => 4
  | uint16 => 5
  | int32 => 6
  | uint32 => 7
  | int64 => 8
  | uint64 => 9
  | float => 10
  | double => 11
  | string => 12

/-- The `static_cast` back; the other enumerators are handled like `Unknown`. -/
def ofCode : ℕ → StandardType
  | 1 => bool
  | 2 => int8
  | 3 => uint8
  | 4 => int16
  | 5 => uint16
  | 6 => int32
  | 7 => uint32
  | 8 => int64
  | 9 => uint64
  | 10 => float
  | 11 => double
  | 12 => string
  | _ => unknown

@[simp] theorem ofCode_code (type : StandardType) : ofCode type.code = type := by
  cases type <;> rfl

/-- The type that the `case` of `SaveAny` and `LoadAny` names, such as `int8_t`. -/
def cppType (m : DataModel) : StandardType → Option CppType
  | unknown | string => none
  | bool => some .bool
  | int8 => some .signedChar
  | uint8 => some .unsignedChar
  | int16 => some .short
  | uint16 => some .unsignedShort
  | int32 => some .int
  | uint32 => some .unsignedInt
  | int64 =>
      match m with
      | .lp64 => some .long
      | .llp64 => some .longLong
  | uint64 =>
      match m with
      | .lp64 => some .unsignedLong
      | .llp64 => some .unsignedLongLong
  | float => some .float
  | double => some .double

end StandardType

/-- An `std::any` that is empty or holds a fundamental type or a string. -/
inductive AnyValue (m : DataModel) where
  | empty
  | scalar (t : CppType) (x : CppType.Value m t)
  | string (str : List UInt8)

namespace MarshalUtils

variable {m : DataModel}

/-- The overload that the visitor calls. A `std::string` is passed as an rvalue, for which
`auto&&` is the better match. -/
def visit : CppType → StandardType
  | .bool => .bool
  | .char => .int8
  | .unsignedChar => .uint8
  | .short => .int16
  | .unsignedShort => .uint16
  | .int => .int32
  | .unsignedInt => .uint32
  | .longLong => .int64
  | .unsignedLongLong => .uint64
  | .float => .float
  | .double => .double
  | .signedChar | .long | .unsignedLong => .unknown

def getStandardType : AnyValue m → StandardType
  | .scalar t _ => visit t
  | .empty | .string _ => .unknown

/-- `std::any_cast`, which throws unless the types are the same. -/
def anyCast (t : CppType) : AnyValue m → Option (CppType.Value m t)
  | .scalar u x => if h : u = t then some (h ▸ x) else none
  | _ => none

def typeCode (type : StandardType) : CppType.Value m .unsignedShort :=
  ⟨type.code, by cases type <;> cases m <;> decide⟩

/-- The `switch` of `SaveAny`. The exception is caught, after the type has been written. -/
def saveAnyAs (type : StandardType) (s : Stream) (any : AnyValue m) : Option Stream :=
  match type.cppType m with
  | some t =>
      match anyCast t any with
      | some x => saveValue s x
      | none => some s
  | none =>
      match type, any with
      | .string, .string str => saveString s str
      | _, _ => some s

def saveAny (s : Stream) (any : AnyValue m) : Option Stream := do
  let type := getStandardType any
  let s ← saveValue s (typeCode (m := m) type)
  saveAnyAs type s any

variable (m)

/-- The `switch` of `LoadAny`. -/
def loadAnyAs (type : StandardType) (s : Stream) : Option (AnyValue m × Stream) :=
  match type.cppType m with
  | some t => (loadValue m t s).map fun r => (.scalar t r.1, r.2)
  | none =>
      match type with
      | .string => (loadStr s).map fun r => (.string r.1, r.2)
      | _ => some (.empty, s)

def loadAny (s : Stream) : Option (AnyValue m × Stream) := do
  let (code, s) ← loadValue m .unsignedShort s
  loadAnyAs m (StandardType.ofCode code) s

end MarshalUtils

end SRCommon
