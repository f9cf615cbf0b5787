import Mathlib.Data.List.Basic
import Mathlib.Tactic.Common
import SRCommon.Common.StringSplit
import SRCommon.Lib.Occurrences

/-!
# Replacing in texts

`ReplaceAll` goes on behind each occurrence that it replaced and never looks
back. `ReplaceAllRecursive` replaces one occurrence and starts again with the
first pattern, so that what a replacement puts together is found as well.
-/

namespace SRCommon

open FileSystem Occurrences

namespace StringUtils

section

variable {α : Type} [DecidableEq α]

/-- `std::search`, which comes to the end of the text when there is no occurrence. -/
def stdSearch (pattern text : List α) : ℕ := (search pattern text).getD text.length

/-- The loop of `ReplaceAll` for what is left of the text, with the rounds that it is given. -/
def replaceAllFrom (pattern replacement : List α) : ℕ → List α → List α → Option (List α)
  | 0, _, _ => none
  | rounds + 1, current, results =>
      let next := stdSearch pattern current
      if next = current.length then some (results ++ current.take next)
      else
        replaceAllFrom pattern replacement rounds (current.drop (next + pattern.length))
          (results ++ current.take next ++ replacement)

def replaceAll (pattern replacement : List α) (rounds : ℕ) (original : List α) : Option (List α) :=
  replaceAllFrom pattern replacement rounds original []

variable {pattern replacement current original : List α} {pieces : List (List α)}

theorem stdSearch_of_not_infix (h : ¬ pattern <:+: current) :
    stdSearch pattern current = current.length := by
  rw [stdSearch, search_eq_none_iff.mpr h, Option.getD_none]

theorem stdSearch_of_leftmost {k : ℕ} (h : Leftmost pattern current k) :
    stdSearch pattern current = k := by
  rw [stdSearch, search_eq_some_iff.mpr h, Option.getD_some]

/-- One round for each piece, and the replacement between them. -/
theorem replaceAllFrom_eq_some_iff (hpattern : pattern ≠ []) (h : Cut pattern current pieces)
    {rounds : ℕ} {results result : List α} :
    replaceAllFrom pattern replacement rounds current results = some result ↔
      pieces.length ≤ rounds ∧ result = results ++ replacement.intercalate pieces := by
  induction h generalizing rounds results with
  | @last text hnone =>
      cases rounds with
      | zero => simp [replaceAllFrom]
      | succ rounds =>
          simp [replaceAllFrom, stdSearch_of_not_infix hnone, eq_comm]
  | @next text k pieces hk hrest ih =>
      cases rounds with
      | zero => simp [replaceAllFrom]
      | succ rounds =>
          have hpos := List.length_pos_iff.mpr hpattern
          have hle := hk.add_length_le
          have hne : k ≠ text.length := by omega
          simp only [replaceAllFrom, stdSearch_of_leftmost hk, if_neg hne]
          rw [ih, List.length_cons, Nat.succ_le_succ_iff,
            List.intercalate_cons_of_ne_nil hrest.ne_nil]
          simp only [List.append_assoc]

theorem replaceAll_eq_some_iff (hpattern : pattern ≠ []) (h : Cut pattern original pieces)
    {rounds : ℕ} {result : List α} :
    replaceAll pattern replacement rounds original = some result ↔
      pieces.length ≤ rounds ∧ result = replacement.intercalate pieces :=
  replaceAllFrom_eq_some_iff hpattern h

end

/-! ## One occurrence at a time -/

/-- The loop over the patterns, up to the first that occurs. -/
def replaceOne (replacement result : Text) : List Text → Option Text
  | [] => none
  | pattern :: fromList =>
      match find pattern result with
      | some pos => some (result.take pos ++ replacement ++ result.drop (pos + pattern.length))
      | none => replaceOne replacement result fromList

/-- `StringUtils::ReplaceAllRecursive` with the rounds from `repeat` on that it is given. -/
def replaceAllRecursive (fromList : List Text) (replacement : Text) : ℕ → Text → Option Text
  | 0, _ => none
  | rounds + 1, result =>
      match replaceOne replacement result fromList with
      | some replaced => replaceAllRecursive fromList replacement rounds replaced
      | none => some result

variable {fromList : List Text} {replacement result replaced : Text}

theorem replaceOne_eq_none_iff :
    replaceOne replacement result fromList = none ↔
      ∀ pattern ∈ fromList, ¬ pattern <:+: result := by
  induction fromList with
  | nil => simp [replaceOne]
  | cons pattern fromList ih =>
      rw [replaceOne, List.forall_mem_cons, ← ih, ← find_eq_none_iff]
      cases find pattern result <;> simp

/-- A pattern gives way to the shorter replacement. -/
theorem length_replaceOne_lt (hshort : ∀ pattern ∈ fromList, replacement.length < pattern.length)
    (h : replaceOne replacement result fromList = some replaced) :
    replaced.length < result.length := by
  induction fromList with
  | nil => cases h
  | cons pattern fromList ih =>
      rw [List.forall_mem_cons] at hshort
      rw [replaceOne] at h
      cases hfind : find pattern result with
      | some pos =>
          rw [hfind] at h
          cases h
          have hle := (find_eq_some_iff.mp hfind).add_length_le
          simp only [List.length_append, List.length_take, List.length_drop]
          omega
      | none =>
          rw [hfind] at h
          exact ih hshort.2 h

/-- The last round found none of the patterns. -/
theorem not_infix_of_replaceAllRecursive {rounds : ℕ} {text : Text}
    (h : replaceAllRecursive fromList replacement rounds text = some result) :
    ∀ pattern ∈ fromList, ¬ pattern <:+: result := by
  induction rounds generalizing text with
  | zero => cases h
  | succ rounds ih =>
      rw [replaceAllRecursive] at h
      cases hone : replaceOne replacement text fromList with
      | some replaced =>
          rw [hone] at h
          exact ih h
      | none =>
          rw [hone] at h
          cases h
          exact replaceOne_eq_none_iff.mp hone

/-- Each round makes the text shorter. -/
theorem exists_replaceAllRecursive
    (hshort : ∀ pattern ∈ fromList, replacement.length < pattern.length) (original : Text) :
    ∃ result, ∀ rounds, original.length < rounds →
      replaceAllRecursive fromList replacement rounds original = some result := by
  induction hn : original.length using Nat.strong_induction_on generalizing original with
  | _ n ih =>
      subst hn
      cases hone : replaceOne replacement original fromList with
      | none =>
          refine ⟨original, fun rounds hrounds => ?_⟩
          obtain ⟨rounds, rfl⟩ := Nat.exists_eq_add_one_of_ne_zero (Nat.ne_zero_of_lt hrounds)
          rw [replaceAllRecursive, hone]
      | some replaced =>
          have hlt := length_replaceOne_lt hshort hone
          obtain ⟨result, hresult⟩ := ih _ hlt replaced rfl
          refine ⟨result, fun rounds hrounds => ?_⟩
          obtain ⟨rounds, rfl⟩ := Nat.exists_eq_add_one_of_ne_zero (Nat.ne_zero_of_lt hrounds)
          rw [replaceAllRecursive, hone]
          exact hresult rounds (by omega)

theorem replacement_complete :
    (∀ (α : Type) (_ : DecidableEq α) (pattern replacement original : List α), pattern ≠ [] →
      ∃ pieces, Cut pattern original pieces ∧ pattern.intercalate pieces = original ∧
        ∀ rounds result, replaceAll pattern replacement rounds original = some result ↔
          pieces.length ≤ rounds ∧ result = replacement.intercalate pieces) ∧
    ∀ (fromList : List Text) (replacement original : Text),
      (∀ pattern ∈ fromList, replacement.length < pattern.length) →
      ∃ result, (∀ rounds, original.length < rounds →
          replaceAllRecursive fromList replacement rounds original = some result) ∧
        ∀ pattern ∈ fromList, ¬ pattern <:+: result := by
  constructor
  · intro α _ pattern replacement original hpattern
    obtain ⟨pieces, hcut⟩ := exists_cut hpattern original
    exact ⟨pieces, hcut, hcut.intercalate_eq,
      fun rounds result => replaceAll_eq_some_iff hpattern hcut⟩
  · intro fromList replacement original hshort
    obtain ⟨result, hresult⟩ := exists_replaceAllRecursive hshort original
    exact ⟨result, hresult,
      not_infix_of_replaceAllRecursive (hresult _ (Nat.lt_succ_self original.length))⟩

/-- Occurrences that overlap, and one that a replacement puts together. -/
theorem replacement_complete_overlap :
    (∃ pieces, Cut [1, 1] [1, 1, 1, 3] pieces ∧
      replaceAll [1, 1] [2] pieces.length [1, 1, 1, 3] = some ([2].intercalate pieces)) ∧
    ∃ result, replaceAllRecursive [[1, 2]] [] 5 [1, 1, 2, 2] = some result ∧
      ¬ [1, 2] <:+: result := by
  obtain ⟨hall, hrecursive⟩ := replacement_complete
  obtain ⟨pieces, hcut, -, hresult⟩ := hall ℕ inferInstance [1, 1] [2] [1, 1, 1, 3] (by decide)
  obtain ⟨result, hrounds, hnone⟩ := hrecursive [[1, 2]] [] [1, 1, 2, 2] (by decide)
  refine ⟨⟨pieces, hcut, (hresult _ _).mpr ⟨Nat.le_refl _, rfl⟩⟩, result, ?_, ?_⟩
  · exact hrounds 5 (by decide)
  · exact hnone _ (List.mem_singleton.mpr rfl)

example : replaceAll [1, 1] [2] 9 [1, 1, 1, 3] = some [2, 1, 3] := by decide

example : replaceAllRecursive [[1, 2]] [] 5 [1, 1, 2, 2] = some [] := by decide

end StringUtils

end SRCommon
