import Mathlib.Data.List.Basic
import Mathlib.Tactic.Common
import SRCommon.Common.HashManager
import SRCommon.FileSystem.PathParts
import SRCommon.Lib.Occurrences

/-!
# Splitting texts

`Split` erases each token and the delimiter behind it from its own copy of the
text, `SplitView` moves the start of a view over the text. Both drop the tokens
that are empty. An empty delimiter is found at the start of every text and takes
nothing away from it.
-/

namespace SRCommon

open FileSystem Occurrences

namespace FileSystem

theorem find_eq_search (sub text : Text) : find sub text = search sub text := by
  induction text with
  | nil => rfl
  | cons c text ih =>
      rw [find, search, ih]
      simp only [List.isPrefixOf_iff_prefix]

theorem find_eq_some_iff {sub text : Text} {k : ℕ} :
    find sub text = some k ↔ Leftmost sub text k := by
  rw [find_eq_search, search_eq_some_iff]

theorem find_eq_none_iff {sub text : Text} : find sub text = none ↔ ¬ sub <:+: text := by
  rw [find_eq_search, search_eq_none_iff]

end FileSystem

namespace StringView

/-- `substr(0, count)`. -/
def start (v : StringView) (count : ℕ) : StringView where
  memory := v.memory
  size := min count v.size
  size_le := (Nat.min_le_right count v.size).trans v.size_le

/-- More characters than the view has must not be removed. -/
def removePrefix (v : StringView) (count : ℕ) : Option StringView :=
  if count ≤ v.size then
    some
      { memory := v.memory.drop count
        size := v.size - count
        size_le := by
          have h := v.size_le
          rw [List.length_drop]
          omega }
  else none

variable {v : StringView} {count : ℕ}

@[simp] theorem length_text : v.text.length = v.size := by
  rw [text, List.length_take, Nat.min_eq_left v.size_le]

theorem text_start : (v.start count).text = v.text.take count := by
  rw [text, text, List.take_take]
  rfl

theorem removePrefix_text (h : count ≤ v.text.length) :
    ∃ w, v.removePrefix count = some w ∧ w.text = v.text.drop count := by
  rw [length_text] at h
  refine ⟨_, if_pos h, ?_⟩
  rw [text, text, List.drop_take]

end StringView

namespace StringUtils

/-- The tokens so far with one more, unless it is empty. -/
def addToken (tokens : List Text) (token : Text) : List Text :=
  if token = [] then tokens else tokens ++ [token]

/-- `StringUtils::Split` with the rounds that the loop is given. -/
def split (delimiter : Text) : ℕ → Text → List Text → Option (List Text)
  | 0, _, _ => none
  | rounds + 1, source, tokens =>
      match find delimiter source with
      | some pos =>
          split delimiter rounds (source.drop (pos + delimiter.length))
            (addToken tokens (source.take pos))
      | none => some (addToken tokens source)

/-- The views so far with one more, unless it is empty. -/
def addView (tokens : List StringView) (token : StringView) : List StringView :=
  if token.size = 0 then tokens else tokens ++ [token]

/-- `StringUtils::SplitView`, likewise. -/
def splitView (delimiter : Text) : ℕ → StringView → List StringView → Option (List StringView)
  | 0, _, _ => none
  | rounds + 1, source, tokens =>
      match find delimiter source.text with
      | some pos =>
          (source.removePrefix (pos + delimiter.length)).bind fun rest =>
            splitView delimiter rounds rest (addView tokens (source.start pos))
      | none => some (addView tokens source)

/-- The pieces of the text that are not empty. -/
def tokensOf (pieces : List Text) : List Text := pieces.filter (· ≠ [])

/-- Both functions come to an end, with the same tokens, which are the pieces between the
successive occurrences of the delimiter. -/
def SplitsAt (delimiter : Text) (source : StringView) : Prop :=
  ∃ rounds tokens views pieces,
    split delimiter rounds source.text [] = some tokens ∧
    splitView delimiter rounds source [] = some views ∧
    views.map StringView.text = tokens ∧
    Cut delimiter source.text pieces ∧ tokens = tokensOf pieces ∧
    ∀ token ∈ tokens, ¬ delimiter <:+: token

variable {delimiter source : Text} {pieces : List Text}

theorem addToken_eq (tokens : List Text) (token : Text) :
    addToken tokens token = tokens ++ tokensOf [token] := by
  by_cases h : token = [] <;> simp [addToken, tokensOf, h]

theorem tokensOf_cons (piece : Text) (pieces : List Text) :
    tokensOf (piece :: pieces) = tokensOf [piece] ++ tokensOf pieces :=
  List.filter_append [piece] pieces

theorem map_addView (tokens : List StringView) (token : StringView) :
    (addView tokens token).map StringView.text =
      addToken (tokens.map StringView.text) token.text := by
  have hempty : token.text = [] ↔ token.size = 0 := by
    rw [← List.length_eq_zero_iff, StringView.length_text]
  by_cases h : token.size = 0 <;> simp [addView, addToken, hempty, h]

/-- One round for each piece. -/
theorem split_eq (h : Cut delimiter source pieces) (tokens : List Text) :
    split delimiter pieces.length source tokens = some (tokens ++ tokensOf pieces) := by
  induction h generalizing tokens with
  | last hnone =>
      rw [List.length_singleton, split, find_eq_none_iff.mpr hnone]
      exact congrArg some (addToken_eq _ _)
  | @next text k _ hk _ ih =>
      have hrest := ih (addToken tokens (text.take k))
      rw [addToken_eq, List.append_assoc, ← tokensOf_cons] at hrest
      rw [List.length_cons, split, find_eq_some_iff.mpr hk, ← hrest, ← addToken_eq]

/-- The views show what the tokens are, as long as they show the same text. -/
theorem splitView_eq (h : Cut delimiter source pieces) {v : StringView} (hv : v.text = source)
    (tokens : List StringView) :
    ∃ views, splitView delimiter pieces.length v tokens = some views ∧
      views.map StringView.text = tokens.map StringView.text ++ tokensOf pieces := by
  induction h generalizing v tokens with
  | last hnone =>
      subst hv
      rw [List.length_singleton, splitView, find_eq_none_iff.mpr hnone]
      refine ⟨_, rfl, ?_⟩
      rw [map_addView, addToken_eq]
  | @next _ k _ hk _ ih =>
      subst hv
      obtain ⟨w, hw, hwtext⟩ := StringView.removePrefix_text hk.add_length_le
      obtain ⟨views, hviews, hmap⟩ := ih hwtext (addView tokens (v.start k))
      refine ⟨views, ?_, ?_⟩
      · rw [List.length_cons, splitView, find_eq_some_iff.mpr hk]
        simpa only [hw, Option.bind_some] using hviews
      · rw [hmap, map_addView, addToken_eq, List.append_assoc, StringView.text_start,
          ← tokensOf_cons]

theorem splitsAt_of_ne_nil (h : delimiter ≠ []) (source : StringView) :
    SplitsAt delimiter source := by
  obtain ⟨pieces, hcut⟩ := exists_cut h source.text
  obtain ⟨views, hviews, hmap⟩ := splitView_eq hcut rfl []
  have hsplit := split_eq hcut []
  rw [List.nil_append] at hsplit
  refine ⟨pieces.length, tokensOf pieces, views, pieces, hsplit, hviews, hmap, hcut, rfl, ?_⟩
  intro token htoken
  exact hcut.not_infix h (List.mem_of_mem_filter htoken)

/-! ## Loops that come to an end -/

theorem exists_cut_of_split {rounds : ℕ} {tokens result : List Text}
    (h : split delimiter rounds source tokens = some result) :
    ∃ pieces, Cut delimiter source pieces ∧ result = tokens ++ tokensOf pieces := by
  induction rounds generalizing source tokens with
  | zero => cases h
  | succ rounds ih =>
      rw [split] at h
      cases hfind : find delimiter source with
      | none =>
          rw [hfind] at h
          cases h
          exact ⟨[source], .last (find_eq_none_iff.mp hfind), addToken_eq tokens source⟩
      | some k =>
          rw [hfind] at h
          obtain ⟨pieces, hrest, hresult⟩ := ih h
          refine ⟨_, .next (find_eq_some_iff.mp hfind) hrest, ?_⟩
          rw [hresult, addToken_eq, List.append_assoc, ← tokensOf_cons]

theorem exists_cut_of_splitView {rounds : ℕ} {v : StringView} {tokens result : List StringView}
    (h : splitView delimiter rounds v tokens = some result) :
    ∃ pieces, Cut delimiter v.text pieces := by
  induction rounds generalizing v tokens with
  | zero => cases h
  | succ rounds ih =>
      rw [splitView] at h
      cases hfind : find delimiter v.text with
      | none => exact ⟨[v.text], .last (find_eq_none_iff.mp hfind)⟩
      | some k =>
          rw [hfind] at h
          have hk := find_eq_some_iff.mp hfind
          obtain ⟨w, hw, hwtext⟩ := StringView.removePrefix_text hk.add_length_le
          simp only [hw, Option.bind_some] at h
          obtain ⟨pieces, hrest⟩ := ih h
          exact ⟨_, .next hk (hwtext ▸ hrest)⟩

/-- What `Split` returns is made of the pieces that the delimiter joins to the text again. -/
theorem split_exact {rounds : ℕ} {result : List Text}
    (h : split delimiter rounds source [] = some result) :
    ∃ pieces, delimiter.intercalate pieces = source ∧ result = tokensOf pieces := by
  obtain ⟨pieces, hcut, hresult⟩ := exists_cut_of_split h
  exact ⟨pieces, hcut.intercalate_eq, hresult⟩

/-- It does not depend on the rounds that the loop is given. -/
theorem split_unique {rounds rounds' : ℕ} {result result' : List Text}
    (h : split delimiter rounds source [] = some result)
    (h' : split delimiter rounds' source [] = some result') : result = result' := by
  obtain ⟨pieces, hcut, hresult⟩ := exists_cut_of_split h
  obtain ⟨pieces', hcut', hresult'⟩ := exists_cut_of_split h'
  rw [hresult, hresult', hcut.unique hcut']

/-- An empty delimiter is found at once, and nothing is erased. -/
theorem split_nil (rounds : ℕ) (source : Text) (tokens : List Text) :
    split [] rounds source tokens = none := by
  apply Option.eq_none_iff_forall_ne_some.mpr
  intro result h
  obtain ⟨pieces, hcut, -⟩ := exists_cut_of_split h
  exact not_cut_nil hcut

theorem splitView_nil (rounds : ℕ) (source : StringView) (tokens : List StringView) :
    splitView [] rounds source tokens = none := by
  apply Option.eq_none_iff_forall_ne_some.mpr
  intro result h
  obtain ⟨pieces, hcut⟩ := exists_cut_of_splitView h
  exact not_cut_nil hcut

theorem splitsAt_iff (delimiter : Text) (source : StringView) :
    SplitsAt delimiter source ↔ delimiter ≠ [] := by
  constructor
  · rintro ⟨rounds, tokens, -, -, hsplit, -⟩ rfl
    rw [split_nil] at hsplit
    cases hsplit
  · intro h
    exact splitsAt_of_ne_nil h source

theorem not_splitsAt : ¬ SplitsAt [] ⟨[Text.ch 'a', 0], 1, by decide⟩ := by
  rintro ⟨rounds, tokens, views, pieces, hsplit, -⟩
  rw [split_nil] at hsplit
  cases hsplit

/-- Empty tokens at the start, in the middle and at the end, and occurrences that overlap. -/
example : split [97, 97] 9 [97, 97, 1, 97, 97, 97, 97, 97, 2, 97, 97] [] =
    some [[1], [97, 2]] := by decide

end StringUtils

end SRCommon
