import SRCommon.Lib.LittleEndian
import SRCommon.Types.Stream

/-!
# MarshalUtils

The functions of `BaseMarshal.h` for the fundamental types, strings and
vectors. A value of a fundamental type is the number its bytes stand for, and
what a variable holds is `none` before it is assigned.
-/

namespace SRCommon

/-- `long` is `int64_t` on Linux and Android and 32 bits wide on Windows. -/
inductive DataModel where
  | lp64
  | llp64
  deriving DecidableEq

inductive CppType where
  | bool
  | char
  | signedChar
  | unsignedChar
  | short
  | unsignedShort
  | int
  | unsignedInt
  | long
  | unsignedLong
  | longLong
  | unsignedLongLong
  | float
  | double
  deriving DecidableEq

namespace CppType

def sizeOf (m : DataModel) : CppType → ℕ
  | bool | char | signedChar | unsignedChar => 1
  | short | unsignedShort => 2
  | int | unsignedInt | float => 4
  | long | unsignedLong =>
      match m with
      | .lp64 => 8
      | .llp64 => 4
  | longLong | unsignedLongLong | double => 8

/-- `IsNumber<T>() || IsLogical<T>()`: the list has every type here but plain `char`. -/
def isNumber : CppType → Bool
  | char => false
  | _ => true

/-- The number of values; a `bool` is one byte, zero or one. -/
def range (m : DataModel) : CppType → ℕ
  | bool => 2
  | t => 256 ^ t.sizeOf m

abbrev Value (m : DataModel) (t : CppType) := Fin (t.range m)

theorem range_pos (m : DataModel) (t : CppType) : 0 < t.range m := by
  cases t <;> cases m <;> decide

theorem range_le (m : DataModel) (t : CppType) : t.range m ≤ 256 ^ t.sizeOf m := by
  cases t <;> cases m <;> decide

theorem sizeOf_pos (m : DataModel) (t : CppType) : 0 < t.sizeOf m := by
  cases t <;> cases m <;> decide

theorem sizeOf_lt (m : DataModel) (t : CppType) : t.sizeOf m < 16 := by
  cases t <;> cases m <;> decide

/-- `T()`. -/
def zero (m : DataModel) (t : CppType) : Value m t := ⟨0, range_pos m t⟩

def bytes {m : DataModel} {t : CppType} (x : Value m t) : List UInt8 :=
  LittleEndian.toBytes (t.sizeOf m) x

end CppType

namespace MarshalUtils

variable (m : DataModel)

/-- The bytes of a variable, `none` if one is indeterminate. -/
def known (buffer : List Cell) : Option (List UInt8) := buffer.mapM id

def decode (t : CppType) (buffer : List Cell) : Option (CppType.Value m t) :=
  (known buffer).bind fun bytes =>
    if h : LittleEndian.ofBytes bytes < t.range m then some ⟨LittleEndian.ofBytes bytes, h⟩
    else none

def zeros (n : ℕ) : List Cell := List.replicate n (some 0)

def indeterminate (n : ℕ) : List Cell := List.replicate n none

/-- `stream.write((const char*)&value, count)`. -/
def writeBytes (s : Stream) (bytes : List UInt8) (count : UInt64) : Option Stream :=
  s.write (bytes.map some) count

variable {m}

def saveValue {t : CppType} (s : Stream) (value : CppType.Value m t) : Option Stream :=
  if t.isNumber then writeBytes s (CppType.bytes value) (UInt64.ofNat (t.sizeOf m)) else some s

variable (m)

def loadValue (t : CppType) (s : Stream) : Option (CppType.Value m t × Stream) :=
  if t.isNumber then do
    let (buffer, s) ← s.read (zeros (t.sizeOf m)) (UInt64.ofNat (t.sizeOf m))
    let value ← decode m t buffer
    some (value, s)
  else some (CppType.zero m t, s)

/-- The conversion of an `int16_t` to `size_t`. -/
def toSize (size : BitVec 16) : UInt64 := UInt64.ofBitVec (size.signExtend 64)

/-- A string behind its length in an `int16_t`; `width` is the size of a character. -/
def saveCounted {α : Type} (encode : α → List UInt8) (width : UInt64) (s : Stream) (str : List α) :
    Option Stream := do
  let size := BitVec.ofNat 16 str.length
  let s ← writeBytes s (LittleEndian.toBytes 2 size.toNat) 2
  writeBytes s (str.flatMap encode) (toSize size * width)

def byteBytes (c : UInt8) : List UInt8 := [c]

def charBytes (c : UInt32) : List UInt8 := LittleEndian.toBytes 4 c.toNat

def saveShortString : Stream → List UInt8 → Option Stream := saveCounted byteBytes 1

def saveUnicodeString : Stream → List UInt32 → Option Stream := saveCounted charBytes 4

def saveString (s : Stream) (str : List UInt8) : Option Stream := do
  let size := UInt64.ofNat str.length
  let s ← writeBytes s (LittleEndian.toBytes 8 size.toNat) 8
  writeBytes s str size

def saveVector {m : DataModel} {t : CppType} (s : Stream) (vector : List (CppType.Value m t)) :
    Option Stream := do
  let size := UInt64.ofNat vector.length
  let s ← writeBytes s (LittleEndian.toBytes 8 size.toNat) 8
  if size > 0 then
    writeBytes s (vector.flatMap CppType.bytes) (size * UInt64.ofNat (t.sizeOf m))
  else some s

/-- The elements of a block, one after the other. -/
def elements {α : Type} (width : ℕ) (decode : List Cell → Option α) :
    ℕ → List Cell → Option (List α)
  | 0, _ => some []
  | n + 1, buffer => do
      let x ← decode (buffer.take width)
      let xs ← elements width decode n (buffer.drop width)
      some (x :: xs)

/-- Reading a length field into a variable that is not initialized. -/
def loadSize (width : ℕ) (s : Stream) : Option (ℕ × Stream) := do
  let (buffer, s) ← s.read (indeterminate width) (UInt64.ofNat width)
  let bytes ← known buffer
  some (LittleEndian.ofBytes bytes, s)

/-- `resize` throws when the elements do not fit in `PTRDIFF_MAX` bytes. -/
def loadVector (t : CppType) (s : Stream) : Option (List (CppType.Value m t) × Stream) := do
  let (size, s) ← loadSize 8 s
  if size > 0 then
    guard (size * t.sizeOf m < 2 ^ 63)
    let count := UInt64.ofNat (size * t.sizeOf m)
    let (buffer, s) ← s.read (zeros (size * t.sizeOf m)) count
    let vector ← elements (t.sizeOf m) (decode m t) size buffer
    some (vector, s)
  else some ([], s)

/-- `SR_UINT16_MAX`. -/
def uint16Max : ℕ := 65535

/-- A string behind its length in a field of `field` bytes. -/
def loadCounted {α : Type} (field width : ℕ) (decode : List Cell → Option α) (s : Stream) :
    Option (List α × Stream) := do
  let (size, s) ← loadSize field s
  if size ≥ uint16Max then some ([], s)
  else
    let (buffer, s) ← s.read (zeros (size * width)) (UInt64.ofNat (size * width))
    let str ← elements width decode size buffer
    some (str, s)

def decodeByte (buffer : List Cell) : Option UInt8 := buffer.headD none

def decodeChar (buffer : List Cell) : Option UInt32 :=
  (known buffer).map fun bytes => UInt32.ofNat (LittleEndian.ofBytes bytes)

def loadShortStr : Stream → Option (List UInt8 × Stream) := loadCounted 2 1 decodeByte

def loadUnicodeString : Stream → Option (List UInt32 × Stream) := loadCounted 2 4 decodeChar

def loadStr : Stream → Option (List UInt8 × Stream) := loadCounted 8 1 decodeByte

end MarshalUtils

end SRCommon
