import SRCommon.Serialization.LoadFromFile
import SRCommon.Serialization.ToString

/-!
# What the reading loop makes of records

A record moves `m_stack` to the parent its depth names, and the records of a
tree append that tree to the children of the parent. `Loads` says so for a
list of records; it holds of the empty list and passes to concatenations and
to the records of a container.
-/

namespace SRCommon

open Text

def IsTabs (t : Text) : Prop := ∀ c ∈ t, c = ch '\t'

theorem isTabs_nil : IsTabs [] := by simp [IsTabs]

theorem IsTabs.append {t u : Text} (ht : IsTabs t) (hu : IsTabs u) : IsTabs (t ++ u) := by
  intro c hc
  rcases List.mem_append.mp hc with hc | hc
  · exact ht c hc
  · exact hu c hc

theorem isTabs_tabs (s : TextSettings) (depth : ℕ) : IsTabs (s.tabs depth) := by
  intro c hc
  unfold TextSettings.tabs at hc
  split at hc
  · exact List.eq_of_mem_replicate hc
  · simp at hc

namespace SRADeserializer

/-! ## The loop -/

theorem loadLines_cons {fl : FloatOps} {i : ℕ} {line : Text} {lines : List Text}
    {d : SRADeserializer} (hi : i ≠ int32Max) :
    loadLines fl i (line :: lines) d = (loadLine fl i line d).bind (loadLines fl (i + 1) lines) := by
  simp [loadLines, hi]

theorem loadLines_append {fl : FloatOps} {i : ℕ} {lines more : List Text} {d : SRADeserializer} :
    loadLines fl i (lines ++ more) d =
      (loadLines fl i lines d).bind (loadLines fl (i + lines.length) more) := by
  induction lines generalizing i d with
  | nil => rfl
  | cons line lines ih =>
      simp only [List.cons_append, loadLines, Option.bind_assoc]
      congr 1
      funext d'
      split
      · rfl
      · rw [ih, List.length_cons, Nat.add_assoc, Nat.add_comm 1]

/-- Only the stripped lines matter. -/
theorem loadLines_congr {fl : FloatOps} {i : ℕ} {lines others : List Text} {d : SRADeserializer}
    (h : lines.map stripTabs = others.map stripTabs) :
    loadLines fl i lines d = loadLines fl i others d := by
  induction lines generalizing i others d with
  | nil =>
      rw [List.map_nil, eq_comm, List.map_eq_nil_iff] at h
      rw [h]
  | cons line lines ih =>
      cases others with
      | nil => simp at h
      | cons other others =>
          simp only [List.map_cons, List.cons.injEq] at h
          have hline : ∀ d, loadLine fl i line d = loadLine fl i other d := by
            intro d
            simp only [loadLine, h.1]
          simp only [loadLines, hline, ih h.2]

/-- The line counter overflows on the line with index `int32Max`. -/
theorem loadLines_eq_none {fl : FloatOps} {i : ℕ} {lines : List Text} {d : SRADeserializer}
    (hi : i ≤ int32Max) (hlen : int32Max < i + lines.length) :
    loadLines fl i lines d = none := by
  induction lines generalizing i d with
  | nil =>
      rw [List.length_nil] at hlen
      omega
  | cons line lines ih =>
      rw [loadLines, Option.bind_eq_none_iff]
      intro d' _
      by_cases heq : i = int32Max
      · rw [if_pos heq]
      · rw [if_neg heq]
        apply ih
        · omega
        · rw [List.length_cons] at hlen
          omega

/-! ## A record -/

theorem natText_cons (n : ℕ) : ∃ c ds, natText n = c :: ds ∧ isDigit c = true := by
  cases h : natText n with
  | nil => exact absurd h (natText_ne_nil n)
  | cons c ds => exact ⟨c, ds, rfl, isDigit_of_mem_natText (n := n) (by simp [h])⟩

theorem record_ne_nil (depth : ℕ) (kind : Char) (data : Text) : record depth kind data ≠ [] := by
  obtain ⟨c, ds, hds, -⟩ := natText_cons depth
  simp [record, recordHead, hds]

theorem stripTabs_append_record {tabs : Text} (htabs : IsTabs tabs) (depth : ℕ) (kind : Char)
    (data : Text) : stripTabs (tabs ++ record depth kind data) = record depth kind data := by
  obtain ⟨c, ds, hds, hc⟩ := natText_cons depth
  have hne : c ≠ ch '\t' := fun heq => absurd (heq ▸ hc) (by decide)
  have hrecord : ∃ rest, record depth kind data = c :: rest := by simp [record, recordHead, hds]
  obtain ⟨rest, hrest⟩ := hrecord
  rw [hrest, stripTabs, if_neg (by simp [hne]),
    List.dropWhile_append_of_pos fun t ht => by simpa using htabs t ht]
  simp [hne]

theorem stripTabs_record (depth : ℕ) (kind : Char) (data : Text) :
    stripTabs (record depth kind data) = record depth kind data :=
  stripTabs_append_record isTabs_nil depth kind data

theorem lexicalCastInt32_record {depth : ℕ} (hdepth : depth < 2 ^ 31) (kind : Char) (data : Text) :
    lexicalCastInt32 (record depth kind data) = depth := by
  have hdash : isDigit (ch '-') = false := by decide
  rw [lexicalCastInt32, record, recordHead, List.append_assoc,
    sto_natText (by simpa using hdepth) (by simp [hdash])]
  rfl

theorem after_dash_record (depth : ℕ) (kind : Char) (data : Text) :
    after (ch '-') (record depth kind data) = ch kind :: ch ':' :: data := by
  have hdash : isDigit (ch '-') = false := by decide
  simpa [record, recordHead] using
    after_append (notMem_natText (n := depth) hdash) (ch kind :: ch ':' :: data)

theorem payload_record (kind : Char) (hkind : ch kind ≠ ch ':') (depth : ℕ) (data : Text) :
    payload (record depth kind data) = data := by
  have hcolon : isDigit (ch ':') = false := by decide
  have hne : ch ':' ≠ ch '-' := by decide
  have hnot : ch ':' ∉ natText depth ++ [ch '-', ch kind] := by
    simp [notMem_natText hcolon, hne, hkind.symm]
  simpa [payload, record, recordHead] using after_append hnot data

/-- The loop pops down to the stack that the depth of a record stands for. -/
theorem popToDepth_of_suffix {st stack : List ℕ} (h : st <:+ stack) :
    popToDepth (st.length + 1) stack = st := by
  induction stack with
  | nil => simp [popToDepth, List.suffix_nil.mp h]
  | cons i stack ih =>
      rcases List.suffix_cons_iff.mp h with rfl | h
      · simp [popToDepth]
      · have hlen := h.length_le
        rw [popToDepth, if_pos (by simp only [List.length_cons]; omega), ih h]

/-- A record is dispatched on its kind after the stack was popped to its parent. -/
theorem loadLine_record {fl : FloatOps} {i : ℕ} {kind : Char} {k : RecordKind} {data : Text}
    {st : List ℕ} {d : SRADeserializer} (hk : RecordKind.ofChar? (ch kind) = some k)
    (hst : st <:+ d.stack) (hlen : st.length + 1 < 2 ^ 31) :
    loadLine fl i (record (st.length + 1) kind data) d =
      applyRecord fl k (record (st.length + 1) kind data) { d with stack := st } := by
  have hdepth : ((st.length + 1 : ℕ) : ℤ) ≠ 0 := by omega
  have hsize : sizeOfDepth ((st.length + 1 : ℕ) : ℤ) = st.length + 1 := by
    simp only [sizeOfDepth]
    omega
  simp only [loadLine, stripTabs_record, if_neg (record_ne_nil _ _ _),
    lexicalCastInt32_record hlen, hdepth, false_and, if_false, after_dash_record, hk, hsize,
    popToDepth_of_suffix hst]

/-! ## Growing the tree -/

/-- Trees were appended to the children of the node under `st`. -/
structure Grown (st : List ℕ) (ts : List SRANode) (d d' : SRADeserializer) : Prop where
  suffix : st <:+ d'.stack
  root : d'.root = Rose.modifyAt st (Rose.append ts) d.root
  walker : d'.walker = d.walker
  reports : d'.reports = d.reports

theorem Grown.isSome_at? {st : List ℕ} {ts : List SRANode} {d d' : SRADeserializer}
    (h : Grown st ts d d') (hd : (d.root.at? st).isSome) : (d'.root.at? st).isSome := by
  simpa [h.root, Rose.at?_modifyAt] using hd

theorem Grown.trans {st : List ℕ} {ts us : List SRANode} {d d' d'' : SRADeserializer}
    (h : Grown st ts d d') (h' : Grown st us d' d'') : Grown st (ts ++ us) d d'' where
  suffix := h'.suffix
  root := by rw [h'.root, h.root, Rose.modifyAt_append_append]
  walker := h'.walker.trans h.walker
  reports := h'.reports.trans h.reports

/-- The records of depth `depth` and deeper append the trees to their parent,
wherever they stand in a file. A file is deep only after many lines, so that
depths fit in an `int32_t` when line numbers do. -/
def Loads (fl : FloatOps) (lines : List Text) (depth : ℕ) (ts : List SRANode) : Prop :=
  ∀ (i : ℕ) (st : List ℕ) (d : SRADeserializer), st <:+ d.stack → st.length + 1 = depth →
    (d.root.at? st).isSome → depth < i → i + lines.length ≤ int32Max →
      ∃ d', loadLines fl i lines d = some d' ∧ Grown st ts d d'

section

variable {fl : FloatOps} {depth : ℕ}

theorem loads_nil : Loads fl [] depth [] := by
  intro i st d hst _ hvalid _ _
  obtain ⟨n, hn⟩ := Option.isSome_iff_exists.mp hvalid
  exact ⟨d, rfl, hst, (Rose.modifyAt_id hn (Rose.append_nil n)).symm, rfl, rfl⟩

theorem Loads.append {lines more : List Text} {ts us : List SRANode}
    (h : Loads fl lines depth ts) (h' : Loads fl more depth us) :
    Loads fl (lines ++ more) depth (ts ++ us) := by
  intro i st d hst hdepth hvalid hi hmax
  rw [List.length_append] at hmax
  obtain ⟨d', hload, hgrown⟩ := h i st d hst hdepth hvalid hi (by omega)
  obtain ⟨d'', hload', hgrown'⟩ := h' (i + lines.length) st d' hgrown.suffix hdepth
    (hgrown.isSome_at? hvalid) (by omega) (by omega)
  refine ⟨d'', ?_, hgrown.trans hgrown'⟩
  rw [loadLines_append, hload]
  exact hload'

/-- The kinds whose records open a node of the given type. -/
def Opens (fl : FloatOps) (kind : Char) (type : SRASerializationDataType) : Prop :=
  ∃ k, RecordKind.ofChar? (ch kind) = some k ∧ ∀ (line : Text) (d : SRADeserializer),
    applyRecord fl k line d =
      some (d.openNode { id := SerializationId.createFromString (payload line), type := type })

theorem opens_value : Opens fl 'v' .unknown := ⟨.value, by decide, fun _ _ => rfl⟩

theorem opens_object : Opens fl 'o' .object := ⟨.object, by decide, fun _ _ => rfl⟩

theorem opens_array : Opens fl 'a' .array := ⟨.array, by decide, fun _ _ => rfl⟩

theorem opens_item : Opens fl 'k' .item := ⟨.item, by decide, fun _ _ => rfl⟩

/-- A new last child stands under the node `n` at `st`, and `m_stack` leads to it. -/
structure Opened (st : List ℕ) (n : SRANode) (fields : SRANodeFields) (d d' : SRADeserializer) :
    Prop where
  stack : d'.stack = n.children.length :: st
  root : d'.root = Rose.modifyAt st (Rose.append [.node fields []]) d.root
  walker : d'.walker = d.walker
  reports : d'.reports = d.reports

theorem Opened.at?_stack {st : List ℕ} {n : SRANode} {fields : SRANodeFields}
    {d d' : SRADeserializer} (h : Opened st n fields d d') (hn : d.root.at? st = some n) :
    d'.root.at? d'.stack = some (.node fields []) := by
  rw [h.root, h.stack, Rose.at?_append_child hn]

/-- Editing the new child is appending the edited child. -/
theorem Opened.modifyAt_stack {st : List ℕ} {n : SRANode} {fields : SRANodeFields}
    {d d' : SRADeserializer} (h : Opened st n fields d d') (hn : d.root.at? st = some n)
    (f : SRANode → SRANode) : Rose.modifyAt d'.stack f d'.root =
      Rose.modifyAt st (Rose.append [f (.node fields [])]) d.root := by
  rw [h.root, h.stack, Rose.modifyAt_append_child hn]

theorem loadLine_opens {kind : Char} {type : SRASerializationDataType}
    (hkind : Opens fl kind type) (hcolon : ch kind ≠ ch ':') (i : ℕ) (name : Text)
    {st : List ℕ} {n : SRANode} {d : SRADeserializer} (hst : st <:+ d.stack)
    (hlen : st.length + 1 < 2 ^ 31) (hn : d.root.at? st = some n) :
    ∃ d', loadLine fl i (record (st.length + 1) kind name) d = some d' ∧
      Opened st n { id := .createFromString name, type := type } d d' := by
  obtain ⟨k, hk, happly⟩ := hkind
  refine ⟨openNode { d with stack := st } { id := .createFromString name, type := type }, ?_, ?_⟩
  · rw [loadLine_record hk hst hlen, happly, payload_record kind hcolon]
  · constructor
    · simp [openNode, currentNode, getNode_of_some hn]
    · simp [openNode, updateNode_of_some hn]
    · rfl
    · rfl

/-- A container record and the records of the children give the container. -/
theorem Loads.container {kind : Char} {type : SRASerializationDataType}
    (hkind : Opens fl kind type) (hcolon : ch kind ≠ ch ':') {lines : List Text}
    {ts : List SRANode} (h : Loads fl lines (depth + 1) ts) (name : Text) :
    Loads fl (record depth kind name :: lines) depth
      [.node { id := .createFromString name, type := type } ts] := by
  intro i st d hst hdepth hvalid hi hmax
  obtain ⟨n, hn⟩ := Option.isSome_iff_exists.mp hvalid
  rw [List.length_cons] at hmax
  have hlen : st.length + 1 < 2 ^ 31 := by
    simp only [int32Max] at hmax
    omega
  subst hdepth
  obtain ⟨d₁, hload₁, hopen⟩ := loadLine_opens hkind hcolon i name hst hlen hn
  obtain ⟨d', hload, hgrown⟩ := h (i + 1) d₁.stack d₁ List.suffix_rfl (by simp [hopen.stack])
    (by simp [hopen.at?_stack hn]) (by omega) (by omega)
  refine ⟨d', ?_, ?_, ?_, hgrown.walker.trans hopen.walker, hgrown.reports.trans hopen.reports⟩
  · rw [loadLines_cons (by omega), hload₁]
    exact hload
  · have hsuffix := hgrown.suffix
    rw [hopen.stack] at hsuffix
    exact (List.suffix_cons _ _).trans hsuffix
  · rw [hgrown.root, hopen.modifyAt_stack hn]
    rfl

/-- The two records of a leaf: the second one fills the node in and pops it. -/
theorem Loads.leaf {kind : Char} {k : RecordKind} (hk : RecordKind.ofChar? (ch kind) = some k)
    {data : Text} {f : SRANodeFields → SRANodeFields}
    (happly : ∀ d : SRADeserializer, applyRecord fl k (record (depth + 1) kind data) d =
      (d.relabelCurrent f).popStack) (name : Text) :
    Loads fl [record depth 'v' name, record (depth + 1) kind data] depth
      [.node (f { id := .createFromString name }) []] := by
  intro i st d hst hdepth hvalid hi hmax
  obtain ⟨n, hn⟩ := Option.isSome_iff_exists.mp hvalid
  simp only [int32Max, List.length_cons, List.length_nil] at hmax
  subst hdepth
  obtain ⟨d₁, hload₁, hopen⟩ :=
    loadLine_opens (show Opens fl 'v' .unknown from opens_value) (by decide) i name hst (by omega) hn
  have hload : loadLine fl (i + 1) (record (st.length + 1 + 1) kind data) d₁ =
      (d₁.relabelCurrent f).popStack := by
    have hlen : d₁.stack.length = st.length + 1 := by simp [hopen.stack]
    rw [← hlen, loadLine_record hk List.suffix_rfl (by omega), hlen, happly]
  refine ⟨{ d₁ with root := updateNode d₁.stack (Rose.relabel f) d₁.root, stack := st }, ?_,
    List.suffix_rfl, ?_, hopen.walker, hopen.reports⟩
  · rw [loadLines_cons (by simp only [int32Max]; omega), hload₁, Option.bind_some,
      loadLines_cons (by simp only [int32Max]; omega), hload]
    simp [popStack, relabelCurrent, hopen.stack, loadLines]
  · show updateNode d₁.stack (Rose.relabel f) d₁.root = _
    rw [updateNode_of_some (hopen.at?_stack hn), hopen.modifyAt_stack hn]
    rfl

end

end SRADeserializer

end SRCommon
