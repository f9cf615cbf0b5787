import Mathlib.Logic.Function.Basic
import SRCommon.Common.Hashes

/-!
# Styles

The declarations of a style sheet, the copies of a style and `Merge`. A size
and the display know whether they have been declared. Colors and the scanning
of floating numbers are parameters.
-/

namespace SRCommon

/-!
## Names in style sheets

Properties and the values of enumerations are found by the hashes of their
names.
-/

inductive CSSBoxSizing where
  | contentBox
  | borderBox
  | inherit
  deriving DecidableEq

inductive CSSPosition where
  | absolute
  | relative
  | fixed
  | static
  | sticky
  deriving DecidableEq

inductive CSSDisplay where
  | block
  | inline
  | runIn
  | flow
  | flowRoot
  | table
  | flex
  | grid
  | ruby
  | blockFlow
  | inlineTable
  | flexRunIn
  | listItem
  | listItemBlock
  | listItemInline
  | listItemFlow
  | listItemFlowRoot
  | listItemBlockFlow
  | listItemBlockFlowRoot
  | flowListItemBlock
  | tableRowGroup
  | tableHeaderGroup
  | tableFooterGroup
  | tableRow
  | tableCell
  | tableColumnGroup
  | tableColumn
  | tableCaption
  | rubyBase
  | rubyText
  | rubyBaseContainer
  | rubyTextContainer
  | contents
  | none
  | inlineBlock
  | inlineFlex
  | inlineGrid
  | inherit
  | initial
  | unset
  deriving DecidableEq

def defaultCSSDisplay : CSSDisplay := .inline

def defaultCSSPosition : CSSPosition := .static

def defaultCSSBoxSizing : CSSBoxSizing := .contentBox

/-- `nameHash == "name"_atom_hash`. -/
def isAtom (atom : String) (name : Text) : Bool :=
  hashArrayRepresentation name = hashArrayRepresentation (Text.lit atom)

/-- A map by the hashes of names, which keeps the first of two with one hash. -/
def findAtom {α : Type} (map : List (String × α)) (str : Text) : Option α :=
  (map.find? fun entry => isAtom entry.1 str).map Prod.snd

def stringToCSSPosition (str : Text) : CSSPosition :=
  (findAtom [("absolute", CSSPosition.absolute), ("relative", .relative), ("fixed", .fixed),
    ("static", .static), ("sticky", .sticky)] str).getD defaultCSSPosition

def stringToCSSBoxSizing (str : Text) : CSSBoxSizing :=
  (findAtom [("content-box", CSSBoxSizing.contentBox), ("border-box", .borderBox),
    ("inherit", .inherit)] str).getD defaultCSSBoxSizing

def stringToCSSDisplay (str : Text) : CSSDisplay :=
  (findAtom [("block", CSSDisplay.block), ("inline", .inline), ("run-in", .runIn), ("flow", .flow),
    ("flow-root", .flowRoot), ("table", .table), ("flex", .flex), ("grid", .grid),
    ("ruby", .ruby), ("block-flow", .blockFlow), ("inline-table", .inlineTable),
    ("flex-run-in", .flexRunIn), ("list-item", .listItem), ("list-item-block", .listItemBlock),
    ("list-item-inline", .listItemInline), ("list-item-flow", .listItemFlow),
    ("list-item-flow-root", .listItemFlowRoot), ("list-item-block-flow", .listItemBlockFlow),
    ("list-item-block-flow-root", .listItemBlockFlowRoot),
    ("flow-list-item-block", .flowListItemBlock), ("table-row-group", .tableRowGroup),
    ("table-header-group", .tableHeaderGroup), ("table-footer-group", .tableFooterGroup),
    ("table-row", .tableRow), ("table-cell", .tableCell),
    ("table-column-group", .tableColumnGroup), ("table-column", .tableColumn),
    ("table-caption", .tableCaption), ("ruby-base", .rubyBase), ("ruby-text", .rubyText),
    ("ruby-base-container", .rubyBaseContainer), ("ruby-text-container", .rubyTextContainer),
    ("contents", .contents), ("none", .none), ("inline-block", .inlineBlock),
    ("inline-flex", .inlineFlex), ("inline-grid", .inlineGrid), ("inherit", .inherit),
    ("initial", .initial), ("unset", .unset)] str).getD defaultCSSDisplay

/-- The number of a size by its unit. A floating number is known by its bits. -/
inductive CSSSizeNumber where
  | px (px : Int16)
  | percent (percent : UInt32)
  | dpi (dpi : Int16)
  | deg (deg : UInt32)
  deriving DecidableEq

structure CSSSizeValue where
  number : CSSSizeNumber := .px 0
  autoValue : Bool := false
  deriving DecidableEq

/-- What is used of colors and floating numbers. -/
structure CSSValues (γ : Type) where
  stof : Text → Option UInt32
  parseColor : Text → γ
  defaultColor : γ

variable {γ : Type} (values : CSSValues γ)

/-- `LexicalCast<uint16_t>`, as an `int16_t`. The text behind the number ends the scan. -/
def lexicalCastUInt16 (value : Text) : Int16 := Int16.ofInt ((Text.sto 32 value).getD 0)

def CSSValues.lexicalCastFloat (value : Text) : UInt32 := (values.stof value).getD 0

def CSSSizeValue.parse (value : Text) : Option CSSSizeValue :=
  if (Text.lit "px").isSuffixOf value then some { number := .px (lexicalCastUInt16 value) }
  else if (Text.lit "%").isSuffixOf value then
    some { number := .percent (values.lexicalCastFloat value) }
  else if (Text.lit "dpi").isSuffixOf value then some { number := .dpi (lexicalCastUInt16 value) }
  else if (Text.lit "deg").isSuffixOf value then
    some { number := .deg (values.lexicalCastFloat value) }
  else if value = Text.lit "0" then some { number := .px 0 }
  else if value = Text.lit "auto" then some { autoValue := true }
  else none

/-! ## Optional values -/

/-- A value, and whether it is the default one. -/
structure CSSOptional (T : Type) where
  value : T
  isDefault : Bool := true

/-- `CSSOptional(const T&)`. -/
def CSSOptional.ofValue {T : Type} (value : T) : CSSOptional T := { value, isDefault := false }

abbrev CSSOptionalEnum (T : Type) := CSSOptional T

namespace CSSOptionalEnum

variable {T : Type}

def createDefault (value : T) : CSSOptionalEnum T :=
  { CSSOptional.ofValue value with isDefault := true }

/-- `operator=(const T&)`. -/
def assignValue (this : CSSOptionalEnum T) (value : T) : CSSOptionalEnum T :=
  { this with value, isDefault := false }

/-- The copy constructor and the move constructor take the value only. -/
def construct (other : CSSOptionalEnum T) : CSSOptionalEnum T := { value := other.value }

/-- So do the copy assignment and the move assignment. -/
def assign (this other : CSSOptionalEnum T) : CSSOptionalEnum T :=
  { this with value := other.value }

end CSSOptionalEnum

/-! ## Styles -/

/-- The members of type `CSSOptionalSizeValue`. -/
inductive CSSSizeProperty where
  | width
  | height
  | minWidth
  | minHeight
  | maxWidth
  | maxHeight
  | top
  | right
  | bottom
  | left
  | marginTop
  | marginRight
  | marginBottom
  | marginLeft
  | paddingTop
  | paddingRight
  | paddingBottom
  | paddingLeft
  | borderTop
  | borderRight
  | borderBottom
  | borderLeft
  | opacity
  | zIndex
  deriving DecidableEq

structure CSSStyle (γ : Type) where
  sizes : CSSSizeProperty → CSSOptional CSSSizeValue
  display : CSSOptionalEnum CSSDisplay
  position : CSSPosition
  color : γ
  backgroundColor : γ
  boxSizing : CSSBoxSizing

namespace CSSStyle

def default : CSSStyle γ where
  sizes := fun _ => { value := {} }
  display := .createDefault defaultCSSDisplay
  position := .static
  color := values.defaultColor
  backgroundColor := values.defaultColor
  boxSizing := .contentBox

def setSize (this : CSSStyle γ) (property : CSSSizeProperty) (value : CSSOptional CSSSizeValue) :
    CSSStyle γ :=
  { this with sizes := Function.update this.sizes property value }

end CSSStyle

/-! ## Declarations -/

/-- An assignment that `ParseProperty` makes. -/
inductive CSSAssignment (γ : Type) where
  | size (property : CSSSizeProperty) (value : CSSSizeValue)
  | display (value : CSSDisplay)
  | position (value : CSSPosition)
  | boxSizing (value : CSSBoxSizing)
  | color (value : γ)
  | backgroundColor (value : γ)
  deriving DecidableEq

def CSSStyle.assign (this : CSSStyle γ) : CSSAssignment γ → CSSStyle γ
  | .size property value => this.setSize property (.ofValue value)
  | .display value => { this with display := CSSOptionalEnum.assignValue this.display value }
  | .position value => { this with position := value }
  | .boxSizing value => { this with boxSizing := value }
  | .color value => { this with color := value }
  | .backgroundColor value => { this with backgroundColor := value }

def cssClassSizeProperties : List (String × CSSSizeProperty) :=
  [("max-width", .maxWidth), ("max-height", .maxHeight), ("width", .width), ("height", .height),
    ("min-width", .minWidth), ("min-height", .minHeight), ("top", .top), ("right", .right),
    ("bottom", .bottom), ("left", .left), ("margin-top", .marginTop),
    ("margin-right", .marginRight), ("margin-bottom", .marginBottom),
    ("margin-left", .marginLeft), ("padding-top", .paddingTop),
    ("padding-right", .paddingRight), ("padding-bottom", .paddingBottom),
    ("padding-left", .paddingLeft), ("border-top", .borderTop), ("border-right", .borderRight),
    ("border-bottom", .borderBottom), ("border-left", .borderLeft), ("opacity", .opacity),
    ("z-index", .zIndex)]

/-- `SplitView` at blanks. -/
def splitView (source : Text) : List Text :=
  (source.splitOn (Text.ch ' ')).filter fun token => token ≠ []

/-- The branches of `margin` and `padding`, in the order of the assignments. -/
def parseSides (topSide rightSide bottomSide leftSide : CSSSizeProperty) (data : Text) :
    List (CSSAssignment γ) :=
  match (splitView data).map (CSSSizeValue.parse values) with
  | [some result] =>
      [.size leftSide result, .size bottomSide result, .size rightSide result,
        .size topSide result]
  | [some result1, some result2] =>
      [.size bottomSide result1, .size topSide result1, .size leftSide result2,
        .size rightSide result2]
  | [some result1, some result2, some result3] =>
      [.size topSide result1, .size leftSide result2, .size rightSide result2,
        .size bottomSide result3]
  | [some result1, some result2, some result3, some result4] =>
      [.size topSide result1, .size rightSide result2, .size bottomSide result3,
        .size leftSide result4]
  | _ => []

/-- What `ParseProperty` assigns. -/
def parseProperty (name data : Text) : List (CSSAssignment γ) :=
  if isAtom "position" name then [.position (stringToCSSPosition data)]
  else if isAtom "box-sizing" name then [.boxSizing (stringToCSSBoxSizing data)]
  else if isAtom "margin" name then
    parseSides values .marginTop .marginRight .marginBottom .marginLeft data
  else if isAtom "padding" name then
    parseSides values .paddingTop .paddingRight .paddingBottom .paddingLeft data
  else if isAtom "display" name then [.display (stringToCSSDisplay data)]
  else if isAtom "color" name then [.color (values.parseColor data)]
  else if isAtom "background-color" name || isAtom "background" name then
    [.backgroundColor (values.parseColor data)]
  else match findAtom cssClassSizeProperties name with
    | some property =>
        ((CSSSizeValue.parse values data).map fun value => .size property value).toList
    | none => []

def CSSStyle.parseProperty (this : CSSStyle γ) (name data : Text) : CSSStyle γ :=
  (SRCommon.parseProperty values name data).foldl CSSStyle.assign this

/-! ## Copies -/

/-- A style that is made of another one, or a style that another one is assigned to. -/
inductive CSSStyleCopy (γ : Type) where
  | copyConstruct
  | moveConstruct
  | copyAssign (this : CSSStyle γ)
  | moveAssign (this : CSSStyle γ)

namespace CSSStyle

def construct (other : CSSStyle γ) : CSSStyle γ :=
  { other with display := CSSOptionalEnum.construct other.display }

/-- Every member is assigned. -/
def assignStyle (this other : CSSStyle γ) : CSSStyle γ :=
  { other with display := CSSOptionalEnum.assign this.display other.display }

def copy (other : CSSStyle γ) : CSSStyleCopy γ → CSSStyle γ
  | .copyConstruct | .moveConstruct => other.construct
  | .copyAssign this | .moveAssign this => this.assignStyle other

/-! ## Merging -/

def mergeSize (other result : CSSStyle γ) (property : CSSSizeProperty) : CSSStyle γ :=
  if (other.sizes property).isDefault then result
  else result.setSize property (other.sizes property)

/-- Here the other border is taken when it is a default one. -/
def mergeBorderRight (other result : CSSStyle γ) : CSSStyle γ :=
  if (other.sizes .borderRight).isDefault then
    result.setSize .borderRight (other.sizes .borderRight)
  else result

/-- So is the display. -/
def mergeDisplay (other result : CSSStyle γ) : CSSStyle γ :=
  if other.display.isDefault then
    { result with display := CSSOptionalEnum.assign result.display other.display }
  else result

def merge (main other : CSSStyle γ) : CSSStyle γ :=
  let result := main.construct
  let result := [CSSSizeProperty.width, .height, .marginTop, .marginRight, .marginBottom,
    .marginLeft, .paddingTop, .paddingRight, .paddingBottom, .paddingLeft, .borderTop].foldl
      other.mergeSize result
  let result := other.mergeBorderRight result
  let result := [CSSSizeProperty.borderBottom, .borderLeft, .opacity, .zIndex].foldl
    other.mergeSize result
  let result := other.mergeDisplay result
  { result with
    color := other.color
    backgroundColor := other.backgroundColor
    boxSizing := other.boxSizing
    position := other.position }

end CSSStyle

end SRCommon
