import SRCommon.Serialization.LoadRecords

/-!
# Safety of the reading loop

How many nodes are open after a line depends only on the number before it and
on the line. The loop is safe exactly as long as this count, which needs no
tree, never has to go below zero.
-/

namespace SRCommon

open Text

/-- The size of `m_stack` after the `switch`, `none` if it pops an empty one. -/
def recordCount (kind : RecordKind) (size : ℕ) : Option ℕ :=
  match kind with
  | .root => some size
  | .value | .object | .array | .item => some (size + 1)
  | .string | .boolean | .integer | .floating => if size = 0 then none else some (size - 1)

def openCount (rawLine : Text) (size : ℕ) : Option ℕ :=
  let line := stripTabs rawLine
  if line = [] then some size
  else
    let depth := lexicalCastInt32 line
    if depth = 0 ∧ size ≠ 0 then some size
    else
      match after (ch '-') line with
      | [] => some size
      | c :: _ =>
          let size := min size (sizeOfDepth depth - 1)
          match RecordKind.ofChar? c with
          | some kind => recordCount kind size
          | none => some size

def openCounts (lines : List Text) (size : ℕ) : Option ℕ :=
  lines.foldlM (fun size line => openCount line size) size

namespace SRADeserializer

section

variable {fl : FloatOps} {d d' : SRADeserializer}

theorem length_popToDepth (depth : ℕ) (stack : List ℕ) :
    (popToDepth depth stack).length = min stack.length (depth - 1) := by
  induction stack with
  | nil => simp [popToDepth]
  | cons i stack ih =>
      rw [popToDepth]
      split
      · rename_i hpop
        rw [ih]
        simp only [List.length_cons] at hpop ⊢
        omega
      · rename_i hstay
        simp only [List.length_cons] at hstay ⊢
        omega

theorem popToDepth_suffix (depth : ℕ) (stack : List ℕ) : popToDepth depth stack <:+ stack := by
  induction stack with
  | nil => exact List.suffix_rfl
  | cons i stack ih =>
      rw [popToDepth]
      split
      · exact ih.trans (List.suffix_cons i stack)
      · exact List.suffix_rfl

/-! ## One line -/

/-- A line is skipped, or the stack is popped and a record is applied to it. -/
theorem loadLine_cases (fl : FloatOps) (i : ℕ) (line : Text) (d : SRADeserializer) :
    (∃ reports, loadLine fl i line d = some { d with reports := reports } ∧
      openCount line d.stack.length = some d.stack.length) ∨
    ∃ depth, let popped := { d with stack := popToDepth depth d.stack }
      (∃ reports, loadLine fl i line d = some { popped with reports := reports } ∧
        openCount line d.stack.length = some popped.stack.length) ∨
      ∃ kind, loadLine fl i line d = applyRecord fl kind (stripTabs line) popped ∧
        openCount line d.stack.length = recordCount kind popped.stack.length := by
  have hsize : d.stack = [] ↔ d.stack.length = 0 := by simp
  by_cases hnil : stripTabs line = []
  · left
    exact ⟨d.reports, by simp [loadLine, hnil], by simp [openCount, hnil]⟩
  · by_cases hroot : lexicalCastInt32 (stripTabs line) = 0 ∧ d.stack.length ≠ 0
    · left
      exact ⟨_, by simp only [loadLine, ne_eq, hsize, hnil, hroot]; rfl,
        by simp only [openCount, hnil, if_false]; exact if_pos hroot⟩
    · cases hafter : after (ch '-') (stripTabs line) with
      | nil =>
          left
          exact ⟨_, by simp only [loadLine, ne_eq, hsize, hnil, hroot, hafter]; rfl,
            by simp only [openCount, hnil, hroot, hafter]; rfl⟩
      | cons c rest =>
          right
          refine ⟨sizeOfDepth (lexicalCastInt32 (stripTabs line)), ?_⟩
          cases hkind : RecordKind.ofChar? c with
          | none =>
              left
              exact ⟨_, by simp only [loadLine, ne_eq, hsize, hnil, hroot, hafter, hkind]; rfl,
                by simp only [openCount, hnil, hroot, hafter, hkind, length_popToDepth]; rfl⟩
          | some kind =>
              right
              exact ⟨kind, by simp only [loadLine, ne_eq, hsize, hnil, hroot, hafter, hkind]; rfl,
                by simp only [openCount, hnil, hroot, hafter, hkind, length_popToDepth]; rfl⟩

theorem length_stack_applyRecord (kind : RecordKind) (line : Text) (d : SRADeserializer) :
    (applyRecord fl kind line d).map (·.stack.length) = recordCount kind d.stack.length := by
  have hpop : ∀ d : SRADeserializer, d.popStack.map (·.stack.length) =
      if d.stack.length = 0 then none else some (d.stack.length - 1) := by
    intro d
    rcases hstack : d.stack with _ | ⟨i, stack⟩
    · simp [popStack, hstack]
    · simp [popStack, hstack]
  cases kind with
  | root => rfl
  | value | object | array | item => rfl
  | string | boolean | integer | floating => exact hpop _

variable (fl) in
/-- The count follows `m_stack` without looking at the tree. -/
theorem length_stack_loadLine (i : ℕ) (line : Text) (d : SRADeserializer) :
    (loadLine fl i line d).map (·.stack.length) = openCount line d.stack.length := by
  rcases loadLine_cases fl i line d with ⟨reports, hload, hcount⟩ |
    ⟨depth, ⟨reports, hload, hcount⟩ | ⟨kind, hload, hcount⟩⟩
  · rw [hload, hcount]
    rfl
  · rw [hload, hcount]
    rfl
  · rw [hload, hcount, length_stack_applyRecord]

def ValidStack (d : SRADeserializer) : Prop := ∀ st, st <:+ d.stack → (d.root.at? st).isSome

theorem validStack_of_isSome (h : (d.root.at? d.stack).isSome) : ValidStack d :=
  fun _ hst => Rose.isSome_at?_of_suffix hst h

theorem ValidStack.of_suffix (h : ValidStack d) (hroot : d'.root = d.root)
    (hstack : d'.stack <:+ d.stack) : ValidStack d' := by
  intro st hst
  rw [hroot]
  exact h st (hst.trans hstack)

theorem ValidStack.openNode (h : ValidStack d) (fields : SRANodeFields) :
    ValidStack (d.openNode fields) := by
  obtain ⟨n, hn⟩ := Option.isSome_iff_exists.mp (h d.stack List.suffix_rfl)
  apply validStack_of_isSome
  simp [SRADeserializer.openNode, currentNode, getNode_of_some hn, updateNode_of_some hn,
    Rose.at?_append_child hn]

theorem ValidStack.relabelCurrent (h : ValidStack d) (f : SRANodeFields → SRANodeFields) :
    ValidStack (d.relabelCurrent f) := by
  obtain ⟨n, hn⟩ := Option.isSome_iff_exists.mp (h d.stack List.suffix_rfl)
  apply validStack_of_isSome
  simp [SRADeserializer.relabelCurrent, updateNode_of_some hn, Rose.at?_modifyAt, hn]

theorem ValidStack.popStack (h : ValidStack d) (hpop : d.popStack = some d') : ValidStack d' := by
  unfold SRADeserializer.popStack at hpop
  split at hpop
  · cases hpop
  · rename_i i stack hstack
    cases hpop
    exact h.of_suffix rfl (hstack ▸ List.suffix_cons i stack)

theorem ValidStack.applyRecord {kind : RecordKind} {line : Text} (h : ValidStack d)
    (happly : applyRecord fl kind line d = some d') : ValidStack d' := by
  cases kind with
  | root =>
      cases happly
      exact h.relabelCurrent _
  | value | object | array | item =>
      cases happly
      exact h.openNode _
  | string | boolean | integer | floating => exact (h.relabelCurrent _).popStack happly

theorem ValidStack.loadLine {i : ℕ} {line : Text} (h : ValidStack d)
    (hload : loadLine fl i line d = some d') : ValidStack d' := by
  have hpopped : ∀ depth, ValidStack { d with stack := popToDepth depth d.stack } :=
    fun depth => h.of_suffix rfl (popToDepth_suffix depth d.stack)
  rcases loadLine_cases fl i line d with ⟨reports, heq, -⟩ |
    ⟨depth, ⟨reports, heq, -⟩ | ⟨kind, heq, -⟩⟩
  · rw [heq] at hload
    cases hload
    exact h
  · rw [heq] at hload
    cases hload
    exact hpopped depth
  · rw [heq] at hload
    exact (hpopped depth).applyRecord hload

/-! ## All lines -/

theorem loadLines_valid {i : ℕ} {lines : List Text} (h : ValidStack d)
    (hload : loadLines fl i lines d = some d') : ValidStack d' := by
  induction lines generalizing i d with
  | nil =>
      cases hload
      exact h
  | cons line lines ih =>
      obtain ⟨d₁, hline, hrest⟩ := Option.bind_eq_some_iff.mp hload
      split at hrest
      · cases hrest
      · exact ih (h.loadLine hline) hrest

variable (fl) in
theorem length_stack_loadLines {i : ℕ} {lines : List Text} (d : SRADeserializer)
    (hlen : i + lines.length ≤ int32Max) :
    (loadLines fl i lines d).map (·.stack.length) = openCounts lines d.stack.length := by
  induction lines generalizing i d with
  | nil => rfl
  | cons line lines ih =>
      rw [List.length_cons] at hlen
      have hline := length_stack_loadLine fl i line d
      rw [openCounts, List.foldlM_cons, ← hline, loadLines_cons (by omega)]
      cases hload : loadLine fl i line d with
      | none => rfl
      | some d₁ => exact ih d₁ (by omega)

theorem isSome_openCounts_take {lines : List Text} {size : ℕ}
    (h : (openCounts lines size).isSome) (k : ℕ) : (openCounts (lines.take k) size).isSome := by
  rw [← List.take_append_drop k lines, openCounts, List.foldlM_append] at h
  cases htake : openCounts (lines.take k) size with
  | none =>
      rw [openCounts] at htake
      simp [htake] at h
  | some n => rfl

/-- All lines are processed, and `m_stack` is a path of the tree after each of
them and after every `pop_back`. -/
def SafeLoad (fl : FloatOps) (lines : List Text) (d : SRADeserializer) : Prop :=
  (∃ d', loadFromFile fl lines d = some (d', true)) ∧
    ∀ k, ∃ d', loadLines fl 1 (lines.tail.take k) d = some d' ∧ ValidStack d'

theorem validStack_fresh : ValidStack {} := validStack_of_isSome rfl

end

end SRADeserializer

end SRCommon
