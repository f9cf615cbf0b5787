import SRCommon.Lib.ByteText
import SRCommon.Lib.RoseTree

/-!
# XML nodes

A node has a name, attributes with texts and child nodes. What the XML library
reads back from the text of a number is a parameter, as far as it is known.
-/

namespace SRCommon

structure XmlTag where
  name : Text
  attributes : List (Text × Text) := []

abbrev XmlNode := Rose XmlTag

namespace XmlTag

variable (tag : XmlTag) (name value : Text)

/-- The first attribute with a name. -/
def getAttribute : Option Text := (tag.attributes.find? fun a => a.1 = name).map Prod.snd

def hasAttribute : Bool := (tag.getAttribute name).isSome

/-- `Attribute::ToString`, empty without the attribute. -/
def text : Text := (tag.getAttribute name).getD []

/-- A text is taken up to its first zero byte. -/
def appendAttribute : XmlTag :=
  { tag with attributes := tag.attributes ++ [(name, value.cstr)] }

theorem getAttribute_appendAttribute_self (h : ∀ a ∈ tag.attributes, a.1 ≠ name) :
    (tag.appendAttribute name value).getAttribute name = some value.cstr := by
  unfold getAttribute appendAttribute
  rw [List.find?_append, List.find?_eq_none.mpr (by simpa using h), Option.none_or]
  simp

theorem getAttribute_appendAttribute_of_ne {name' : Text} (h : name' ≠ name) :
    (tag.appendAttribute name' value).getAttribute name = tag.getAttribute name := by
  unfold getAttribute appendAttribute
  rw [List.find?_append, List.find?_singleton, if_neg (by simpa using h), Option.or_none]

end XmlTag

/-- The conversions of `pugixml`. Floating numbers are known by their bits. -/
structure XmlConversions where
  asInt : Text → Int32
  asUInt : Text → UInt32
  asLLong : Text → Int64
  asULLong : Text → UInt64
  asBool : Text → Bool
  asFloat : Text → UInt32
  asDouble : Text → UInt64
  floatText : UInt32 → Text
  doubleText : UInt64 → Text
  asInt_intText : ∀ n : Int32, asInt (Text.intText n.toInt) = n
  asUInt_natText : ∀ n : UInt32, asUInt (Text.natText n.toNat) = n
  asLLong_intText : ∀ n : Int64, asLLong (Text.intText n.toInt) = n
  asULLong_natText : ∀ n : UInt64, asULLong (Text.natText n.toNat) = n
  asBool_true : asBool (Text.lit "true") = true
  asBool_false : asBool (Text.lit "false") = false

end SRCommon
