import SRCommon.Common.AnyMarshal
import SRCommon.Math.Vector3

/-!
# Marshal

`SR_HTYPES_NS::Marshal`, a stream with typed reads and writes and with reads
of whole blocks.
-/

namespace SRCommon

abbrev Marshal := Stream

/-- The types `Write` and `Read` choose a format for. `std::vector<bool>` has no data to
write. -/
inductive MarshalType where
  | scalar (t : CppType)
  | string
  | unicodeString
  | vector (t : CppType) (h : t ≠ .bool)
  | any

namespace MarshalType

def Value (m : DataModel) : MarshalType → Type
  | scalar t => t.Value m
  | string => List UInt8
  | unicodeString => List UInt32
  | vector t _ => List (t.Value m)
  | any => AnyValue m

end MarshalType

namespace Marshal

open MarshalUtils

variable (m : DataModel)

/-- A value of one of the types. -/
abbrev Item := Σ T : MarshalType, T.Value m

variable {m}

def write (s : Marshal) : Item m → Option Marshal
  | ⟨.scalar _, value⟩ => saveValue s value
  | ⟨.string, value⟩ => saveShortString s value
  | ⟨.unicodeString, value⟩ => saveUnicodeString s value
  | ⟨.vector _ _, value⟩ => saveVector s value
  | ⟨.any, value⟩ => saveAny s value

variable (m)

def read (s : Marshal) : (T : MarshalType) → Option (T.Value m × Marshal)
  | .scalar t => loadValue m t s
  | .string => loadShortStr s
  | .unicodeString => loadUnicodeString s
  | .vector t _ => loadVector m t s
  | .any => loadAny m s

def readBytes (s : Marshal) (count : UInt64) : Option (Marshal × Marshal) :=
  if s.pos + count > s.capacity then some (Stream.empty, s)
  else (Stream.create (s.cells.drop s.pos.toNat) count).map fun marshal => (marshal, s.skip count)

def readBytesPtr (s : Marshal) (count : UInt64) : Option (Option Marshal × Marshal) :=
  if s.pos + count > s.capacity then some (none, s)
  else
    (Stream.create (s.cells.drop s.pos.toNat) count).map fun marshal =>
      (some marshal, s.skip count)

def fullCopy (s : Marshal) : Marshal := (Stream.copy s).setPosition s.pos

/-- `Valid()`. -/
def valid (s : Marshal) : Bool := s.data.isSome

/-- `Append(Marshal::Ptr&)`. -/
def append (s marshal : Marshal) : Option Marshal :=
  if marshal.valid ∧ marshal.size > 0 then Stream.write s marshal.cells marshal.size else some s

end Marshal

/-!
## Vectors in a marshal

An `IVector3` is three `int32_t` in a row, for `Read` as for `View`.
-/

/-- The `int32_t` with these four bytes. -/
def int32OfBytes (bytes : List UInt8) : ℤ :=
  (BitVec.ofNat 32 (LittleEndian.ofBytes bytes)).toInt

/-- `sizeof(IVector3)`. -/
def IVector3.sizeOf : ℕ := 12

def IVector3.ofBytes (bytes : List UInt8) : IVector3 :=
  ⟨int32OfBytes (bytes.take 4), int32OfBytes ((bytes.drop 4).take 4),
    int32OfBytes ((bytes.drop 8).take 4)⟩

namespace Marshal

open MarshalUtils

/-- `View<IVector3>(offset)`. -/
def viewIVector3 (s : Marshal) (offset : ℕ) : Option IVector3 :=
  if offset + IVector3.sizeOf ≤ s.cells.length then
    (known ((s.cells.drop offset).take IVector3.sizeOf)).map IVector3.ofBytes
  else none

/-- A component of `Read<IVector3>()`. -/
def readInt32 (s : Marshal) : Option (ℤ × Marshal) := do
  let (buffer, s) ← Stream.read s (zeros 4) 4
  let bytes ← known buffer
  some (int32OfBytes bytes, s)

/-- `Read<IVector3>()`. -/
def readIVector3 (s : Marshal) : Option (IVector3 × Marshal) := do
  let (x, s) ← readInt32 s
  let (y, s) ← readInt32 s
  let (z, s) ← readInt32 s
  some (⟨x, y, z⟩, s)

end Marshal

end SRCommon
