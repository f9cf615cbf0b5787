import SRCommon.Web.CSSStyle

/-!
# Declarations that cascade

What `Merge` makes of two styles, compared with what has been declared in each
of them.
-/

namespace SRCommon

variable {γ : Type}

/-- The sizes and enumerations of a style. -/
inductive CSSProperty where
  | size (property : CSSSizeProperty)
  | display
  | position
  | boxSizing

def CSSAssignment.property : CSSAssignment γ → Option CSSProperty
  | .size property _ => some (.size property)
  | .display _ => some .display
  | .position _ => some .position
  | .boxSizing _ => some .boxSizing
  | .color _ => none
  | .backgroundColor _ => none

/-- The declarations of a style, and the copies that have been made since. -/
structure CSSStyleHistory (γ : Type) where
  calls : List (Text × Text)
  copies : List (CSSStyleCopy γ)

namespace CSSStyleHistory

variable (values : CSSValues γ) (this : CSSStyleHistory γ)

/-- The assignments of all declarations. -/
def assignments : List (CSSAssignment γ) :=
  this.calls.flatMap fun call => parseProperty values call.1 call.2

def style : CSSStyle γ :=
  this.copies.foldl CSSStyle.copy
    (this.calls.foldl (fun style call => style.parseProperty values call.1 call.2)
      (CSSStyle.default values))

def Declares (property : CSSProperty) : Prop :=
  ∃ assignment ∈ this.assignments values, assignment.property = some property

end CSSStyleHistory

/-! ## Styles -/

namespace CSSStyle

variable {values : CSSValues γ} {assignments : List (CSSAssignment γ)} {s s' : CSSStyle γ}

/-- What is declared is no default, and what is not declared has the value of the default. -/
structure Shows (s : CSSStyle γ) (declared : CSSProperty → Prop) : Prop where
  isDefault : ∀ p, (s.sizes p).isDefault = false ↔ declared (.size p)
  size : ∀ p, ¬ declared (.size p) → (s.sizes p).value = {}
  display : ¬ declared .display → s.display.value = defaultCSSDisplay

theorem shows_default (values : CSSValues γ) : (default values).Shows fun _ => False :=
  ⟨fun _ => iff_of_false nofun id, fun _ _ => rfl, fun _ => rfl⟩

theorem Shows.congr {declared declared' : CSSProperty → Prop} (h : s.Shows declared)
    (hiff : ∀ p, declared' p ↔ declared p) : s.Shows declared' := by
  obtain rfl : declared' = declared := funext fun p => propext (hiff p)
  exact h

theorem Shows.assign {declared : CSSProperty → Prop} (h : s.Shows declared)
    (assignment : CSSAssignment γ) :
    (s.assign assignment).Shows fun p => declared p ∨ assignment.property = some p := by
  cases assignment with
  | size property value =>
      have hsizes : ∀ p, (s.assign (.size property value)).sizes p =
          if p = property then .ofValue value else s.sizes p := by
        intro p
        change Function.update s.sizes property (.ofValue value) p = _
        rw [Function.update_apply]
      have hproperty : ∀ p, (CSSAssignment.size property value : CSSAssignment γ).property =
          some (.size p) ↔ p = property := by
        intro p
        simp [CSSAssignment.property, eq_comm]
      refine ⟨fun p => ?_, fun p hp => ?_, fun hp => h.display fun hd => hp (.inl hd)⟩
      · rw [hsizes, hproperty, ← h.isDefault]
        split
        next heq => exact iff_of_true rfl (.inr heq)
        next hne => exact (or_iff_left hne).symm
      · rw [hproperty, not_or] at hp
        rw [hsizes, if_neg hp.2]
        exact h.size p hp.1
  | display value =>
      refine ⟨fun p => ?_, fun p hp => h.size p fun hd => hp (.inl hd),
        fun hp => (hp (.inr rfl)).elim⟩
      exact (h.isDefault p).trans (or_iff_left nofun).symm
  | _ =>
      refine ⟨fun p => ?_, fun p hp => h.size p fun hd => hp (.inl hd),
        fun hp => h.display fun hd => hp (.inl hd)⟩
      exact (h.isDefault p).trans (or_iff_left nofun).symm

theorem Shows.foldl_assign {declared : CSSProperty → Prop} (h : s.Shows declared)
    (assignments : List (CSSAssignment γ)) :
    (assignments.foldl CSSStyle.assign s).Shows fun p =>
      declared p ∨ ∃ assignment ∈ assignments, assignment.property = some p := by
  induction assignments generalizing s declared with
  | nil =>
      exact h.congr fun p => by simp
  | cons assignment assignments ih =>
      exact (ih (h.assign assignment)).congr fun p => by
        simp only [List.mem_cons, exists_eq_or_imp, or_assoc]

theorem Shows.copy {declared : CSSProperty → Prop} (h : s.Shows declared)
    (copy : CSSStyleCopy γ) : (s.copy copy).Shows declared := by
  cases copy <;> exact ⟨h.isDefault, h.size, h.display⟩

end CSSStyle

theorem CSSStyleHistory.shows_style (values : CSSValues γ) (history : CSSStyleHistory γ) :
    (history.style values).Shows (history.Declares values) := by
  have hcalls : (history.calls.foldl (fun style call => style.parseProperty values call.1 call.2)
      (CSSStyle.default values)).Shows (history.Declares values) := by
    have hshows := (CSSStyle.shows_default values).foldl_assign (history.assignments values)
    rw [assignments, List.foldl_flatMap] at hshows
    exact hshows.congr fun p => (false_or _).symm ▸ Iff.rfl
  rw [style]
  induction history.copies using List.reverseRecOn with
  | nil => exact hcalls
  | append_singleton copies copy ih =>
      rw [List.foldl_append]
      exact ih.copy copy

/-! ## Merging -/

namespace CSSStyle

variable {main other : CSSStyle γ}

/-- The sizes that `Merge` takes over when they are declared. -/
def mergedSizes : List CSSSizeProperty :=
  [.width, .height, .marginTop, .marginRight, .marginBottom, .marginLeft, .paddingTop,
    .paddingRight, .paddingBottom, .paddingLeft, .borderTop, .borderBottom, .borderLeft,
    .opacity, .zIndex]

theorem sizes_setSize (result : CSSStyle γ) (q : CSSSizeProperty) (value : CSSOptional CSSSizeValue)
    (p : CSSSizeProperty) :
    (result.setSize q value).sizes p = if p = q then value else result.sizes p := by
  change Function.update result.sizes q value p = _
  rw [Function.update_apply]

theorem sizes_mergeSize (other result : CSSStyle γ) (q p : CSSSizeProperty) :
    (other.mergeSize result q).sizes p =
      if p = q ∧ (other.sizes p).isDefault = false then other.sizes p else result.sizes p := by
  rw [mergeSize]
  cases hq : (other.sizes q).isDefault with
  | true =>
      rw [if_pos rfl, if_neg]
      rintro ⟨rfl, hp⟩
      cases hq.symm.trans hp
  | false =>
      rw [if_neg Bool.false_ne_true, sizes_setSize]
      rcases eq_or_ne p q with rfl | hne
      · rw [if_pos rfl, if_pos ⟨rfl, hq⟩]
      · rw [if_neg hne, if_neg fun h => hne h.1]

theorem sizes_foldl_mergeSize (other result : CSSStyle γ) (l : List CSSSizeProperty)
    (p : CSSSizeProperty) :
    (l.foldl other.mergeSize result).sizes p =
      if p ∈ l ∧ (other.sizes p).isDefault = false then other.sizes p else result.sizes p := by
  induction l generalizing result with
  | nil => rw [if_neg fun h => List.not_mem_nil h.1, List.foldl_nil]
  | cons q l ih =>
      rw [List.foldl_cons, ih, sizes_mergeSize]
      rcases eq_or_ne p q with rfl | hne
      · by_cases hp : (other.sizes p).isDefault = false <;> simp [hp]
      · simp [hne]

theorem display_foldl_mergeSize (other result : CSSStyle γ) (l : List CSSSizeProperty) :
    (l.foldl other.mergeSize result).display = result.display := by
  induction l generalizing result with
  | nil => rfl
  | cons q l ih =>
      rw [List.foldl_cons, ih, mergeSize]
      split <;> rfl

theorem sizes_mergeBorderRight (other result : CSSStyle γ) (p : CSSSizeProperty) :
    (other.mergeBorderRight result).sizes p =
      if p = .borderRight ∧ (other.sizes p).isDefault then other.sizes p else result.sizes p := by
  rw [mergeBorderRight]
  by_cases hdefault : (other.sizes .borderRight).isDefault
  · rw [if_pos hdefault, sizes_setSize]
    rcases eq_or_ne p .borderRight with rfl | hne
    · rw [if_pos rfl, if_pos ⟨rfl, hdefault⟩]
    · rw [if_neg hne, if_neg fun h => hne h.1]
  · rw [if_neg hdefault, if_neg]
    rintro ⟨rfl, h⟩
    exact hdefault h

theorem sizes_mergeDisplay (other result : CSSStyle γ) :
    (other.mergeDisplay result).sizes = result.sizes := by
  rw [mergeDisplay]
  split <;> rfl

theorem sizes_merge (main other : CSSStyle γ) (p : CSSSizeProperty) :
    (merge main other).sizes p =
      if p = .borderRight then
        if (other.sizes p).isDefault then other.sizes p else main.sizes p
      else if p ∈ mergedSizes ∧ (other.sizes p).isDefault = false then other.sizes p
      else main.sizes p := by
  unfold merge
  dsimp only
  rw [sizes_mergeDisplay, sizes_foldl_mergeSize, sizes_mergeBorderRight, sizes_foldl_mergeSize]
  change (if _ then _ else if _ then _ else if _ then _ else main.sizes p) = _
  cases p <;> cases (other.sizes _).isDefault <;> simp [mergedSizes]

theorem display_merge (main other : CSSStyle γ) :
    (merge main other).display =
      { value := if other.display.isDefault then other.display.value else main.display.value } := by
  have hdisplay : ∀ result : CSSStyle γ, (other.mergeBorderRight result).display = result.display := by
    intro result
    rw [mergeBorderRight]
    split <;> rfl
  unfold merge
  dsimp only
  rw [mergeDisplay]
  split
  next hdefault =>
    dsimp only
    rw [CSSOptionalEnum.assign, display_foldl_mergeSize, hdisplay, display_foldl_mergeSize]
    rfl
  next hdefault =>
    rw [display_foldl_mergeSize, hdisplay, display_foldl_mergeSize]
    rfl

end CSSStyle

/-! ## The declarations after a merge -/

/-- The value of the other style if that declares it, the value of the main one otherwise. -/
def Takes {V : Type} (declared : Prop) (merged main other : V) : Prop :=
  (declared → merged = other) ∧ (¬ declared → merged = main)

/-- What a merge is to make of a property. A position and a box sizing have no default to count
as. -/
def Cascades (values : CSSValues γ) (main other : CSSStyleHistory γ) (property : CSSProperty) :
    Prop :=
  let a := main.style values
  let b := other.style values
  let merged := CSSStyle.merge a b
  let declared := other.Declares values property
  match property with
  | .size p =>
      Takes declared (merged.sizes p).value (a.sizes p).value (b.sizes p).value ∧
        ((merged.sizes p).isDefault = false ↔ main.Declares values property ∨ declared)
  | .display =>
      Takes declared merged.display.value a.display.value b.display.value ∧
        (merged.display.isDefault = false ↔ main.Declares values property ∨ declared)
  | .position => Takes declared merged.position a.position b.position
  | .boxSizing => Takes declared merged.boxSizing a.boxSizing b.boxSizing

/-- A size that `Merge` forgets may be declared in the other style only as in the main one. The
right border must be declared alike in both, a display in neither, and a position or box sizing of
the main style only where it is that of the other style. -/
def CascadeSafe (values : CSSValues γ) (main other : CSSStyleHistory γ) (property : CSSProperty) :
    Prop :=
  let a := main.style values
  let b := other.style values
  let declared := other.Declares values property
  match property with
  | .size p =>
      if p = .borderRight then
        (main.Declares values property ↔ declared) ∧ (a.sizes p).value = (b.sizes p).value
      else p ∈ CSSStyle.mergedSizes ∨
        (declared → main.Declares values property ∧ (a.sizes p).value = (b.sizes p).value)
  | .display => ¬ main.Declares values property ∧ ¬ declared
  | .position => declared ∨ a.position = b.position
  | .boxSizing => declared ∨ a.boxSizing = b.boxSizing

theorem takes_other_iff {V : Type} {declared : Prop} {main other : V} :
    Takes declared other main other ↔ declared ∨ main = other := by
  rw [Takes, or_iff_not_imp_left]
  exact ⟨fun h hnot => (h.2 hnot).symm, fun h => ⟨fun _ => rfl, fun hnot => (h hnot).symm⟩⟩

theorem takes_main_iff {V : Type} {declared : Prop} {main other : V} :
    Takes declared main main other ↔ (declared → main = other) :=
  ⟨And.left, fun h => ⟨h, fun _ => rfl⟩⟩

section

variable {values : CSSValues γ} {main other : CSSStyleHistory γ} {p : CSSSizeProperty}

theorem cascades_merged (hp : p ≠ .borderRight) (hmem : p ∈ CSSStyle.mergedSizes) :
    Cascades values main other (.size p) := by
  have hmain := (main.shows_style values).isDefault p
  have hother := (other.shows_style values).isDefault p
  simp only [Cascades]
  rw [CSSStyle.sizes_merge, if_neg hp]
  by_cases hdeclared : other.Declares values (.size p)
  · rw [if_pos ⟨hmem, hother.mpr hdeclared⟩]
    exact ⟨takes_other_iff.mpr (.inl hdeclared), hother.trans (iff_of_true hdeclared (.inr hdeclared))⟩
  · rw [if_neg fun h => hdeclared (hother.mp h.2)]
    exact ⟨takes_main_iff.mpr fun h => (hdeclared h).elim, hmain.trans (or_iff_left hdeclared).symm⟩

theorem cascades_forgotten_iff (hp : p ≠ .borderRight) (hmem : p ∉ CSSStyle.mergedSizes) :
    Cascades values main other (.size p) ↔ (other.Declares values (.size p) →
      main.Declares values (.size p) ∧
        ((main.style values).sizes p).value = ((other.style values).sizes p).value) := by
  have hmain := (main.shows_style values).isDefault p
  simp only [Cascades]
  rw [CSSStyle.sizes_merge, if_neg hp, if_neg fun h => hmem h.1, takes_main_iff, hmain]
  constructor
  · exact fun h hdeclared => ⟨h.2.mpr (.inr hdeclared), h.1 hdeclared⟩
  · exact fun h => ⟨fun hdeclared => (h hdeclared).2,
      (or_iff_left_of_imp fun hdeclared => (h hdeclared).1).symm⟩

theorem cascades_borderRight_iff :
    Cascades values main other (.size .borderRight) ↔
      (main.Declares values (.size .borderRight) ↔ other.Declares values (.size .borderRight)) ∧
        ((main.style values).sizes .borderRight).value =
          ((other.style values).sizes .borderRight).value := by
  have hmain := main.shows_style values
  have hother := other.shows_style values
  simp only [Cascades]
  rw [CSSStyle.sizes_merge, if_pos rfl]
  by_cases hdeclared : other.Declares values (.size .borderRight)
  · have hset := (hother.isDefault .borderRight).mpr hdeclared
    rw [hset, if_neg Bool.false_ne_true, takes_main_iff, hmain.isDefault]
    simp only [hdeclared, or_true, iff_true, forall_const]
    exact and_comm
  · have hunset : ((other.style values).sizes .borderRight).isDefault = true := by
      rw [← Bool.not_eq_false, hother.isDefault]
      exact hdeclared
    rw [hunset, if_pos rfl, takes_other_iff, hunset]
    simp only [hdeclared, false_or, or_false, iff_false, Bool.true_eq_false, false_iff]
    exact and_comm

theorem cascades_display_iff :
    Cascades values main other .display ↔
      ¬ main.Declares values .display ∧ ¬ other.Declares values .display := by
  have hmain := main.shows_style values
  have hother := other.shows_style values
  simp only [Cascades]
  rw [CSSStyle.display_merge]
  constructor
  · rintro ⟨-, hdefault⟩
    exact not_or.mp fun h => Bool.noConfusion (hdefault.mpr h)
  · rintro ⟨hm, ho⟩
    refine ⟨⟨fun h => (ho h).elim, fun _ => ?_⟩, iff_of_false nofun (not_or.mpr ⟨hm, ho⟩)⟩
    dsimp only
    rw [hmain.display hm, hother.display ho, ite_self]

end

/-- A property cascades in just these cases. -/
theorem cascades_iff_cascadeSafe (values : CSSValues γ) (main other : CSSStyleHistory γ)
    (property : CSSProperty) :
    Cascades values main other property ↔ CascadeSafe values main other property := by
  cases property with
  | size p =>
      simp only [CascadeSafe]
      split
      next hp =>
        rw [hp]
        exact cascades_borderRight_iff
      next hp =>
        by_cases hmem : p ∈ CSSStyle.mergedSizes
        · exact iff_of_true (cascades_merged hp hmem) (.inl hmem)
        · rw [or_iff_right hmem]
          exact cascades_forgotten_iff hp hmem
  | display => exact cascades_display_iff
  | position => exact takes_other_iff
  | boxSizing => exact takes_other_iff

/-- A display that only the other style declares. -/
theorem not_cascades :
    ¬ ∀ (values : CSSValues Unit) (main other : CSSStyleHistory Unit) (property : CSSProperty),
      Cascades values main other property := by
  intro h
  let values : CSSValues Unit := ⟨fun _ => none, fun _ => (), ()⟩
  let block : CSSStyleHistory Unit := ⟨[(Text.lit "display", Text.lit "block")], []⟩
  have hassign : parseProperty values (Text.lit "display") (Text.lit "block") =
      [.display .block] := by decide +kernel
  have hdeclares : block.Declares values .display := by
    refine ⟨.display .block, ?_, rfl⟩
    rw [CSSStyleHistory.assignments, List.flatMap_singleton, hassign]
    exact List.mem_singleton_self _
  have hcascades := (h values ⟨[], []⟩ block .display).2.mpr (.inr hdeclares)
  rw [CSSStyle.display_merge] at hcascades
  cases hcascades

end SRCommon
