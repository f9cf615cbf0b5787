import Mathlib.Data.List.Basic
import SRCommon.Common.HashManager
import SRCommon.Lib.ListSearch
import SRCommon.Web.CSSStyle

/-!
# Printed styles

`ToString` prints a line for each size that has been declared, and one for each
enumeration. The lines are parsed by `ParseProperty`. What is printed of a size is
its number, so that `auto` is lost.
-/

namespace SRCommon

/-! ## Names of values -/

def cssPositionToString : CSSPosition → String
  | .absolute => "absolute"
  | .relative => "relative"
  | .fixed => "fixed"
  | .static => "static"
  | .sticky => "sticky"

def cssBoxSizingToString : CSSBoxSizing → String
  | .contentBox => "content-box"
  | .borderBox => "border-box"
  | .inherit => "inherit"

def cssDisplayToString : CSSDisplay → String
  | .block => "block"
  | .inline => "inline"
  | .runIn => "run-in"
  | .flow => "flow"
  | .flowRoot => "flow-root"
  | .table => "table"
  | .flex => "flex"
  | .grid => "grid"
  | .ruby => "ruby"
  | .blockFlow => "block-flow"
  | .inlineTable => "inline-table"
  | .flexRunIn => "flex-run-in"
  | .listItem => "list-item"
  | .listItemBlock => "list-item-block"
  | .listItemInline => "list-item-inline"
  | .listItemFlow => "list-item-flow"
  | .listItemFlowRoot => "list-item-flow-root"
  | .listItemBlockFlow => "list-item-block-flow"
  | .listItemBlockFlowRoot => "list-item-block-flow-root"
  | .flowListItemBlock => "flow-list-item-block"
  | .tableRowGroup => "table-row-group"
  | .tableHeaderGroup => "table-header-group"
  | .tableFooterGroup => "table-footer-group"
  | .tableRow => "table-row"
  | .tableCell => "table-cell"
  | .tableColumnGroup => "table-column-group"
  | .tableColumn => "table-column"
  | .tableCaption => "table-caption"
  | .rubyBase => "ruby-base"
  | .rubyText => "ruby-text"
  | .rubyBaseContainer => "ruby-base-container"
  | .rubyTextContainer => "ruby-text-container"
  | .contents => "contents"
  | .none => "none"
  | .inlineBlock => "inline-block"
  | .inlineFlex => "inline-flex"
  | .inlineGrid => "inline-grid"
  | .inherit => "inherit"
  | .initial => "initial"
  | .unset => "unset"

def atomHash (atom : String) : UInt64 := hashArrayRepresentation (Text.lit atom)

/-- When no two atoms of a map have one hash, each is found. -/
theorem findAtom_of_mem {α : Type} {map : List (String × α)}
    (hmap : (map.map fun entry => atomHash entry.1).Nodup) {e : String × α} (he : e ∈ map) :
    findAtom map (Text.lit e.1) = some e.2 := by
  have hatom : (fun entry : String × α => isAtom entry.1 (Text.lit e.1)) =
      fun entry => decide (atomHash entry.1 = atomHash e.1) :=
    funext fun entry => decide_eq_decide.mpr eq_comm
  rw [findAtom, hatom, ListSearch.find?_eq_some_of_nodup hmap he, Option.map_some]

theorem stringToCSSPosition_toString (position : CSSPosition) :
    stringToCSSPosition (Text.lit (cssPositionToString position)) = position := by
  rw [stringToCSSPosition, findAtom_of_mem (e := (cssPositionToString position, position))]
  · rfl
  · decide +kernel
  · cases position <;> decide

theorem stringToCSSBoxSizing_toString (boxSizing : CSSBoxSizing) :
    stringToCSSBoxSizing (Text.lit (cssBoxSizingToString boxSizing)) = boxSizing := by
  rw [stringToCSSBoxSizing, findAtom_of_mem (e := (cssBoxSizingToString boxSizing, boxSizing))]
  · rfl
  · decide +kernel
  · cases boxSizing <;> decide

theorem stringToCSSDisplay_toString (display : CSSDisplay) :
    stringToCSSDisplay (Text.lit (cssDisplayToString display)) = display := by
  rw [stringToCSSDisplay, findAtom_of_mem (e := (cssDisplayToString display, display))]
  · rfl
  · decide +kernel
  · cases display <;> decide

/-! ## Printing -/

/-- `SR_HASH_TO_STR` of the hash of an atom. -/
def HashManager.hashToStr (m : HashManager) (atom : String) : Text :=
  m.hashToString (hashArrayRepresentation (Text.lit atom))

/-- How floating numbers and colors are printed. -/
structure CSSFormats (γ : Type) where
  formatFloat : UInt32 → Text
  colorToString : γ → Text

variable {γ : Type}

def CSSSizeValue.toString (formats : CSSFormats γ) (this : CSSSizeValue) : Text :=
  match this.number with
  | .px px => Text.intText px.toInt ++ Text.lit "px"
  | .percent percent => formats.formatFloat percent ++ Text.lit "%"
  | .dpi dpi => Text.intText dpi.toInt ++ Text.lit "dpi"
  | .deg deg => formats.formatFloat deg ++ Text.lit "deg"

/-- The name and the value of a line. -/
abbrev CSSLine := Text × Text

def CSSLine.render (depth : UInt16) (line : CSSLine) : Text :=
  List.replicate depth.toNat (Text.ch '\t') ++ line.1 ++ Text.lit ": " ++ line.2 ++ Text.lit ";\n"

namespace CSSStyle

variable (values : CSSValues γ) (formats : CSSFormats γ) (m : HashManager)
  (entries : List (String × CSSSizeProperty)) (this : CSSStyle γ)

/-- The lines of the sizes, in the order in which the hash map is walked through. -/
def sizeLines : List CSSLine :=
  entries.filterMap fun entry =>
    if (this.sizes entry.2).isDefault then none
    else some (m.hashToStr entry.1, (this.sizes entry.2).value.toString formats)

def enumLines : List CSSLine :=
  [(Text.lit "display", m.hashToStr (cssDisplayToString this.display.value)),
    (Text.lit "box-sizing", m.hashToStr (cssBoxSizingToString this.boxSizing)),
    (Text.lit "position", m.hashToStr (cssPositionToString this.position))]

def colorLines : List CSSLine :=
  [(Text.lit "color", formats.colorToString this.color),
    (Text.lit "background-color", formats.colorToString this.backgroundColor)].filter
      fun line => line.2 ≠ []

def toString (depth : UInt16) : Text :=
  (this.sizeLines formats m entries ++ this.enumLines m ++ this.colorLines formats).flatMap
    (CSSLine.render depth)

/-- The lines of the sizes and enumerations, parsed into a default style. -/
def readBack : CSSStyle γ :=
  (this.sizeLines formats m entries ++ this.enumLines m).foldl
    (fun style line => style.parseProperty values line.1 line.2) (default values)

/-- The two styles have the same sizes and enumerations. -/
structure Agrees (this other : CSSStyle γ) : Prop where
  sizes : ∀ property, (this.sizes property).value = (other.sizes property).value
  display : this.display.value = other.display.value
  boxSizing : this.boxSizing = other.boxSizing
  position : this.position = other.position

/-- What is declared holds pixels or dots per inch. -/
structure HoldsPixels (this : CSSStyle γ) : Prop where
  declared : ∀ property, (this.sizes property).isDefault = false →
    ∃ n, (this.sizes property).value.number = .px n ∨ (this.sizes property).value.number = .dpi n
  undeclared : ∀ property, (this.sizes property).isDefault = true →
    (this.sizes property).value = {}

end CSSStyle

/-- The names that the tables of the style sheets register. -/
def cssAtoms : List String :=
  cssClassSizeProperties.map Prod.fst ++
    ["absolute", "relative", "fixed", "static", "sticky", "content-box", "border-box", "inherit",
      "block", "inline", "run-in", "flow", "flow-root", "table", "flex", "grid", "ruby",
      "block-flow", "inline-table", "flex-run-in", "list-item", "list-item-block",
      "list-item-inline", "list-item-flow", "list-item-flow-root", "list-item-block-flow",
      "list-item-block-flow-root", "flow-list-item-block", "table-row-group",
      "table-header-group", "table-footer-group", "table-row", "table-cell",
      "table-column-group", "table-column", "table-caption", "ruby-base", "ruby-text",
      "ruby-base-container", "ruby-text-container", "contents", "none", "inline-block",
      "inline-flex", "inline-grid", "initial", "unset"]

/-- The atoms have been registered, each under a hash of its own. -/
def HashManager.KnowsAtoms (m : HashManager) : Prop :=
  ∀ atom ∈ cssAtoms, m.hashToStr atom = Text.lit atom

/-! ## Parsing what is printed -/

theorem mem_cssAtoms_display (display : CSSDisplay) : cssDisplayToString display ∈ cssAtoms := by
  cases display <;> decide

theorem mem_cssAtoms_boxSizing (boxSizing : CSSBoxSizing) :
    cssBoxSizingToString boxSizing ∈ cssAtoms := by
  cases boxSizing <;> decide

theorem mem_cssAtoms_position (position : CSSPosition) :
    cssPositionToString position ∈ cssAtoms := by
  cases position <;> decide

theorem lexicalCastUInt16_intText (n : Int16) {rest : Text}
    (h : ∀ c ∈ rest.head?, Text.isDigit c = false) :
    lexicalCastUInt16 (Text.intText n.toInt ++ rest) = n := by
  have hlo := n.le_toInt
  have hhi := n.toInt_lt
  rw [lexicalCastUInt16, Text.sto_intText (by omega) (by omega) h, Option.getD_some]
  apply Int16.ofInt_toInt

variable {values : CSSValues γ} {formats : CSSFormats γ}

/-- A number of pixels or dots per inch comes back, without the flag. -/
theorem CSSSizeValue.parse_toString {v : CSSSizeValue}
    (h : ∃ n, v.number = .px n ∨ v.number = .dpi n) :
    CSSSizeValue.parse values (v.toString formats) = some { number := v.number } := by
  obtain ⟨n, h | h⟩ := h
  · have hpx : (Text.lit "px").isSuffixOf (Text.intText n.toInt ++ Text.lit "px") :=
      List.isSuffixOf_iff_suffix.mpr (List.suffix_append _ _)
    rw [CSSSizeValue.toString, h]
    dsimp only
    rw [CSSSizeValue.parse, if_pos hpx, lexicalCastUInt16_intText n (by decide +kernel)]
  · have hnot (suffix : Text) (hsuffix : suffix.reverse.isPrefixOf
        ((Text.lit "dpi").reverse ++ (Text.intText n.toInt).reverse) = false) :
        ¬suffix.isSuffixOf (Text.intText n.toInt ++ Text.lit "dpi") := by
      rw [List.isSuffixOf, List.reverse_append, hsuffix]
      exact Bool.false_ne_true
    have hdpi : (Text.lit "dpi").isSuffixOf (Text.intText n.toInt ++ Text.lit "dpi") :=
      List.isSuffixOf_iff_suffix.mpr (List.suffix_append _ _)
    rw [CSSSizeValue.toString, h]
    dsimp only
    rw [CSSSizeValue.parse, if_neg (hnot _ rfl), if_neg (hnot _ rfl), if_pos hdpi,
      lexicalCastUInt16_intText n (by decide +kernel)]

/-- No branch in front of the table takes the name of a size. -/
theorem parseProperty_size {entry : String × CSSSizeProperty}
    (hentry : entry ∈ cssClassSizeProperties) (data : Text) :
    parseProperty values (Text.lit entry.1) data =
      ((CSSSizeValue.parse values data).map fun value => .size entry.2 value).toList := by
  have hatoms : ∀ atom ∈ ["position", "box-sizing", "margin", "padding", "display", "color",
      "background-color", "background"], ∀ entry ∈ cssClassSizeProperties,
      isAtom atom (Text.lit entry.1) = false := by
    decide +kernel
  have hfind : findAtom cssClassSizeProperties (Text.lit entry.1) = some entry.2 :=
    findAtom_of_mem (by decide +kernel) hentry
  have hno (atom : String) (hatom : atom ∈ ["position", "box-sizing", "margin", "padding",
      "display", "color", "background-color", "background"]) :
      isAtom atom (Text.lit entry.1) = false := hatoms atom hatom entry hentry
  rw [parseProperty, hno "position" (by simp), hno "box-sizing" (by simp), hno "margin" (by simp),
    hno "padding" (by simp), hno "display" (by simp), hno "color" (by simp),
    hno "background-color" (by simp), hno "background" (by simp), hfind]
  rfl

namespace CSSStyle

variable {m : HashManager} {entries : List (String × CSSSizeProperty)} {s : CSSStyle γ}

theorem parseProperty_sizeLine {entry : String × CSSSizeProperty}
    (hentry : entry ∈ cssClassSizeProperties) (hm : m.KnowsAtoms) {v : CSSSizeValue}
    (hv : ∃ n, v.number = .px n ∨ v.number = .dpi n) :
    s.parseProperty values (m.hashToStr entry.1) (v.toString formats) =
      s.setSize entry.2 (.ofValue { number := v.number }) := by
  have hatom : entry.1 ∈ cssAtoms := List.mem_append_left _ (List.mem_map_of_mem hentry)
  rw [hm _ hatom, CSSStyle.parseProperty, parseProperty_size hentry,
    CSSSizeValue.parse_toString hv]
  rfl

/-- What the lines of the sizes leave in a style. -/
theorem sizes_foldl_sizeLines (values : CSSValues γ) (formats : CSSFormats γ)
    (hentries : ∀ entry ∈ entries, entry ∈ cssClassSizeProperties)
    (hm : m.KnowsAtoms) (hs : s.HoldsPixels) (style : CSSStyle γ) (property : CSSSizeProperty) :
    let read := (s.sizeLines formats m entries).foldl
      (fun style line => style.parseProperty values line.1 line.2) style
    read.sizes property =
      if property ∈ entries.map Prod.snd ∧ (s.sizes property).isDefault = false then
        .ofValue { number := (s.sizes property).value.number }
      else style.sizes property := by
  induction entries generalizing style with
  | nil => simp [sizeLines]
  | cons entry entries ih =>
      rw [List.forall_mem_cons] at hentries
      have hmem (hproperty : property ≠ entry.2) : property ∈ (entry :: entries).map Prod.snd ↔
          property ∈ entries.map Prod.snd := by
        rw [List.map_cons, List.mem_cons, or_iff_right hproperty]
      intro read
      cases hdefault : (s.sizes entry.2).isDefault with
      | true =>
          have hread : read = (s.sizeLines formats m entries).foldl
              (fun style line => style.parseProperty values line.1 line.2) style := by
            simp only [read, sizeLines, List.filterMap_cons, hdefault, if_true]
          rw [hread, ih hentries.2]
          by_cases hproperty : property = entry.2
          · subst hproperty
            simp [hdefault]
          · exact if_congr (and_congr_left fun _ => (hmem hproperty).symm) rfl rfl
      | false =>
          have hread : read = (s.sizeLines formats m entries).foldl
              (fun style line => style.parseProperty values line.1 line.2)
              (style.setSize entry.2 (.ofValue { number := (s.sizes entry.2).value.number })) := by
            simp only [read, sizeLines, List.filterMap_cons, hdefault, Bool.false_eq_true, if_false,
              List.foldl_cons]
            rw [parseProperty_sizeLine hentries.1 hm (hs.declared _ hdefault)]
          rw [hread, ih hentries.2]
          by_cases hproperty : property = entry.2
          · subst hproperty
            simp [hdefault, setSize]
          · exact if_congr (and_congr_left fun _ => (hmem hproperty).symm) rfl
              (Function.update_of_ne hproperty _ _)

/-- The lines of the enumerations set the enumerations and nothing else. -/
theorem foldl_enumLines (values : CSSValues γ) (hm : m.KnowsAtoms) (style : CSSStyle γ) :
    let read := (s.enumLines m).foldl
      (fun style line => style.parseProperty values line.1 line.2) style
    read.sizes = style.sizes ∧ read.display.value = s.display.value ∧
      read.boxSizing = s.boxSizing ∧ read.position = s.position := by
  have hdisplay (style : CSSStyle γ) (data : Text) : style.parseProperty values
      (Text.lit "display") data = style.assign (.display (stringToCSSDisplay data)) := rfl
  have hboxSizing (style : CSSStyle γ) (data : Text) : style.parseProperty values
      (Text.lit "box-sizing") data = style.assign (.boxSizing (stringToCSSBoxSizing data)) := rfl
  have hposition (style : CSSStyle γ) (data : Text) : style.parseProperty values
      (Text.lit "position") data = style.assign (.position (stringToCSSPosition data)) := rfl
  intro read
  simp only [read, enumLines, List.foldl_cons, List.foldl_nil, hdisplay, hboxSizing, hposition,
    hm _ (mem_cssAtoms_display _), hm _ (mem_cssAtoms_boxSizing _),
    hm _ (mem_cssAtoms_position _), stringToCSSDisplay_toString, stringToCSSBoxSizing_toString,
    stringToCSSPosition_toString]
  exact ⟨rfl, rfl, rfl, rfl⟩

theorem mem_cssClassSizeProperties (property : CSSSizeProperty) :
    property ∈ cssClassSizeProperties.map Prod.snd := by
  cases property <;> decide

/-- The printed sizes and enumerations read back as they are, exactly when no declared size is
`auto`. -/
theorem readBack_agrees_iff (values : CSSValues γ) (formats : CSSFormats γ) {m : HashManager}
    (hm : m.KnowsAtoms) {entries : List (String × CSSSizeProperty)}
    (hentries : entries.Perm cssClassSizeProperties) {s : CSSStyle γ} (hs : s.HoldsPixels) :
    (s.readBack values formats m entries).Agrees s ↔
      ∀ property, (s.sizes property).isDefault = false →
        (s.sizes property).value.autoValue = false := by
  obtain ⟨hsizes, hdisplay, hboxSizing, hposition⟩ := foldl_enumLines (s := s) values hm
    ((s.sizeLines formats m entries).foldl
      (fun style line => style.parseProperty values line.1 line.2) (default values))
  rw [← List.foldl_append] at hsizes hdisplay hboxSizing hposition
  have hread (property : CSSSizeProperty) :
      ((s.readBack values formats m entries).sizes property).value =
        if (s.sizes property).isDefault then {}
        else { number := (s.sizes property).value.number } := by
    have hmem : property ∈ entries.map Prod.snd :=
      (hentries.map Prod.snd).mem_iff.mpr (mem_cssClassSizeProperties property)
    have hline := sizes_foldl_sizeLines values formats (fun entry => hentries.mem_iff.mp) hm hs
      (default values) property
    rw [readBack, hsizes, hline]
    cases (s.sizes property).isDefault with
    | true => simp [default]
    | false => simp [hmem, CSSOptional.ofValue]
  constructor
  · intro h property hdefault
    have heq := h.sizes property
    rw [hread, hdefault] at heq
    rw [← heq]
    rfl
  · intro h
    refine ⟨fun property => ?_, hdisplay, hboxSizing, hposition⟩
    rw [hread]
    cases hdefault : (s.sizes property).isDefault with
    | true => exact (hs.undeclared property hdefault).symm
    | false =>
        have hauto := h property hdefault
        generalize (s.sizes property).value = v at hauto
        obtain ⟨number, autoValue⟩ := v
        obtain rfl : autoValue = false := hauto
        rfl

/-- The table once all atoms have been registered. -/
def atomTable : HashManager where
  strings hash := (cssAtoms.find? fun atom => hashArrayRepresentation (Text.lit atom) = hash).map
    fun atom => { data := Text.lit atom, hash, size := (Text.lit atom).length }

theorem knowsAtoms_atomTable : atomTable.KnowsAtoms := by
  unfold HashManager.KnowsAtoms
  decide +kernel

/-- Colors are not printed, and no floating number is read. -/
def plainValues : CSSValues Unit where
  stof _ := none
  parseColor _ := ()
  defaultColor := ()

def plainFormats : CSSFormats Unit where
  formatFloat _ := []
  colorToString _ := []

/-- A style whose width is declared. -/
def declaredWidth (value : CSSSizeValue) : CSSStyle Unit :=
  (default plainValues).setSize .width (.ofValue value)

theorem holdsPixels_declaredWidth (px : Int16) (autoValue : Bool) :
    (declaredWidth { number := .px px, autoValue }).HoldsPixels where
  declared property hdefault := by
    by_cases hproperty : property = .width
    · subst hproperty
      exact ⟨px, .inl rfl⟩
    · rw [declaredWidth, setSize] at hdefault
      dsimp only at hdefault
      rw [Function.update_of_ne hproperty] at hdefault
      cases hdefault
  undeclared property hdefault := by
    by_cases hproperty : property = .width
    · subst hproperty
      cases hdefault
    · rw [declaredWidth, setSize]
      dsimp only
      rw [Function.update_of_ne hproperty]
      rfl

theorem readBack_agrees_iff_negative :
    atomTable.KnowsAtoms ∧ (declaredWidth { number := .px (-5) }).HoldsPixels ∧
      (((declaredWidth { number := .px (-5) }).readBack plainValues plainFormats atomTable
        cssClassSizeProperties).Agrees (declaredWidth { number := .px (-5) }) ↔
        ∀ property, ((declaredWidth { number := .px (-5) }).sizes property).isDefault = false →
          ((declaredWidth { number := .px (-5) }).sizes property).value.autoValue = false) :=
  ⟨knowsAtoms_atomTable, holdsPixels_declaredWidth (-5) false,
    readBack_agrees_iff plainValues plainFormats knowsAtoms_atomTable (.refl _)
      (holdsPixels_declaredWidth (-5) false)⟩

/-- A width that is `auto` is printed as `0px`. -/
theorem not_readBack_agrees :
    ¬∀ s : CSSStyle Unit, s.HoldsPixels →
      (s.readBack plainValues plainFormats atomTable cssClassSizeProperties).Agrees s := by
  intro hclaim
  have hagrees := hclaim _ (holdsPixels_declaredWidth 0 true)
  have hwidth := (hagrees.sizes .width).symm
  revert hwidth
  decide +kernel

end CSSStyle

end SRCommon
