import Mathlib.Algebra.Group.Int.Defs
import Mathlib.Algebra.Group.Nat.Defs
import Mathlib.Data.List.Basic

/-!
# Conversion between the forms of Unicode

Code units are unsigned and as wide as `CharType`. An iterator and its end are
the units that are left.
-/

namespace SRCommon

namespace Utf

abbrev CodePoint := UInt32

def Illegal : CodePoint := 0xFFFFFFFF

def Incomplete : CodePoint := 0xFFFFFFFE

def IsValidCodePoint (v : CodePoint) : Bool :=
  if v > 0x10FFFF then false else !(0xD800 ≤ v && v ≤ 0xDFFF)

/-! ## One byte -/

namespace Utf8

def trailLength (c : UInt8) : ℤ :=
  if c < 128 then 0
  else if c < 194 then -1
  else if c < 224 then 1
  else if c < 240 then 2
  else if c ≤ 244 then 3
  else -1

def width (value : CodePoint) : ℤ :=
  if value ≤ 0x7F then 1 else if value ≤ 0x7FF then 2 else if value ≤ 0xFFFF then 3 else 4

def isTrail (c : UInt8) : Bool := c &&& 0xC0 == 0x80

/-- The cases of the `switch`, which fall through from `trail_size` on. -/
def readRest : ℕ → CodePoint → List UInt8 → Except CodePoint CodePoint × List UInt8
  | 0, c, p => (.ok c, p)
  | _ + 1, _, [] => (.error Incomplete, [])
  | n + 1, c, tmp :: p =>
      if !isTrail tmp then (.error Illegal, p)
      else readRest n ((c <<< 6) ||| (tmp.toUInt32 &&& 0x3F)) p

def decode : List UInt8 → CodePoint × List UInt8
  | [] => (Incomplete, [])
  | lead :: p =>
      let trailSize := trailLength lead
      if trailSize < 0 then (Illegal, p)
      else if trailSize = 0 then (lead.toUInt32, p)
      else
        let c := lead.toUInt32 &&& ((1 <<< (6 - trailSize).toNat.toUInt32) - 1)
        match readRest trailSize.toNat c p with
        | (.error c, p) => (c, p)
        | (.ok c, p) =>
            if !IsValidCodePoint c then (Illegal, p)
            else if width c ≠ trailSize + 1 then (Illegal, p)
            else (c, p)

def encode (value : CodePoint) : List UInt8 :=
  if value ≤ 0x7F then [value.toUInt8]
  else if value ≤ 0x7FF then [((value >>> 6) ||| 0xC0).toUInt8, ((value &&& 0x3F) ||| 0x80).toUInt8]
  else if value ≤ 0xFFFF then
    [((value >>> 12) ||| 0xE0).toUInt8, (((value >>> 6) &&& 0x3F) ||| 0x80).toUInt8,
      ((value &&& 0x3F) ||| 0x80).toUInt8]
  else
    [((value >>> 18) ||| 0xF0).toUInt8, (((value >>> 12) &&& 0x3F) ||| 0x80).toUInt8,
      (((value >>> 6) &&& 0x3F) ||| 0x80).toUInt8, ((value &&& 0x3F) ||| 0x80).toUInt8]

end Utf8

/-! ## Two bytes -/

namespace Utf16

def combineSurrogate (w1 w2 : UInt16) : CodePoint :=
  (((w1 &&& 0x3FF).toUInt32 <<< 10) ||| (w2 &&& 0x3FF).toUInt32) + 0x10000

def decode : List UInt16 → CodePoint × List UInt16
  | [] => (Incomplete, [])
  | w1 :: current =>
      if w1 < 0xD800 || 0xDFFF < w1 then (w1.toUInt32, current)
      else if w1 > 0xDBFF then (Illegal, current)
      else match current with
        | [] => (Incomplete, [])
        | w2 :: current =>
            if w2 < 0xDC00 || 0xDFFF < w2 then (Illegal, current)
            else (combineSurrogate w1 w2, current)

def encode (u : CodePoint) : List UInt16 :=
  if u ≤ 0xFFFF then [u.toUInt16]
  else
    let u := u - 0x10000
    [((0xD800 : CodePoint) ||| (u >>> 10)).toUInt16,
      ((0xDC00 : CodePoint) ||| (u &&& 0x3FF)).toUInt16]

end Utf16

/-! ## Four bytes -/

namespace Utf32

def decode : List UInt32 → CodePoint × List UInt32
  | [] => (Incomplete, [])
  | c :: current => if !IsValidCodePoint c then (Illegal, current) else (c, current)

def encode (u : CodePoint) : List UInt32 := [u]

end Utf32

/-! ## Any size -/

/-- `sizeof(CharType)`. -/
inductive UnitSize where
  | one
  | two
  | four

namespace UnitSize

def CharType : UnitSize → Type
  | one => UInt8
  | two => UInt16
  | four => UInt32

def decode : (size : UnitSize) → List size.CharType → CodePoint × List size.CharType
  | one => Utf8.decode
  | two => Utf16.decode
  | four => Utf32.decode

def encode : (size : UnitSize) → CodePoint → List size.CharType
  | one => Utf8.encode
  | two => Utf16.encode
  | four => Utf32.encode

end UnitSize

inductive EncMethodType where
  | skip
  | stop

theorem Utf8.length_readRest (n : ℕ) (c : CodePoint) (p : List UInt8) :
    (readRest n c p).2.length ≤ p.length := by
  induction n generalizing c p with
  | zero => exact Nat.le_refl _
  | succ n ih =>
      cases p with
      | nil => exact Nat.le_refl _
      | cons tmp p =>
          rw [readRest]
          split
          · exact Nat.le_succ _
          · exact Nat.le_succ_of_le (ih _ p)

theorem Utf8.length_decode (lead : UInt8) (p : List UInt8) :
    (decode (lead :: p)).2.length ≤ p.length := by
  have hrest := length_readRest (trailLength lead).toNat
    (lead.toUInt32 &&& ((1 <<< (6 - trailLength lead).toNat.toUInt32) - 1)) p
  rw [decode]
  split
  · exact Nat.le_refl _
  split
  · exact Nat.le_refl _
  dsimp only
  split
  case h_1 h =>
    rw [h] at hrest
    exact hrest
  case h_2 h =>
    rw [h] at hrest
    split
    · exact hrest
    · split <;> exact hrest

theorem Utf16.length_decode (w1 : UInt16) (current : List UInt16) :
    (decode (w1 :: current)).2.length ≤ current.length := by
  rw [decode.eq_def]
  dsimp only
  split
  · exact Nat.le_refl _
  split
  · exact Nat.le_refl _
  cases current with
  | nil => exact Nat.le_refl _
  | cons w2 current =>
      dsimp only
      split <;> exact Nat.le_succ _

theorem Utf32.length_decode (c : UInt32) (current : List UInt32) :
    (decode (c :: current)).2.length ≤ current.length := by
  rw [decode]
  split <;> exact Nat.le_refl _

/-- A unit that is there is consumed. -/
theorem UnitSize.length_decode (size : UnitSize) (u : size.CharType) (p : List size.CharType) :
    (size.decode (u :: p)).2.length ≤ p.length := by
  cases size with
  | one => exact Utf8.length_decode u p
  | two => exact Utf16.length_decode u p
  | four => exact Utf32.length_decode u p

/-- The loop of `UtfToUtf` behind the units that are converted. -/
def utfToUtfFrom (sizeIn sizeOut : UnitSize) (how : EncMethodType)
    (result : List sizeOut.CharType) : List sizeIn.CharType → List sizeOut.CharType
  | [] => result
  | u :: p =>
      let c := sizeIn.decode (u :: p)
      if c.1 = Illegal ∨ c.1 = Incomplete then
        match how with
        | .stop => []
        | .skip => utfToUtfFrom sizeIn sizeOut how result c.2
      else utfToUtfFrom sizeIn sizeOut how (result ++ sizeOut.encode c.1) c.2
  termination_by p => p.length
  decreasing_by all_goals exact Nat.lt_succ_of_le (sizeIn.length_decode u p)

def utfToUtf (sizeIn sizeOut : UnitSize) (how : EncMethodType) (p : List sizeIn.CharType) :
    List sizeOut.CharType :=
  utfToUtfFrom sizeIn sizeOut how [] p

end Utf

end SRCommon
