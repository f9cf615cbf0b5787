import SRCommon.Serialization.LoadRecords

/-!
# Written trees are read back

The lines of a written tree, stripped of their tabs, are its records, and the
loop turns the records into the tree again. A whole file adds the header, the
piece after the last line break, and the splitting into lines.
-/

namespace SRCommon

open Text SRADeserializer

/-! ## Lines and records -/

section Lines

variable {fl : FloatOps} {s : TextSettings}

theorem recordsLines_strip {children : List SRANode}
    (h : ∀ c ∈ children, ∀ openLine depth, IsTabs openLine →
      (recordLines fl s openLine depth c).1.map stripTabs = treeRecords fl s depth c ∧
        IsTabs (recordLines fl s openLine depth c).2)
    {openLine : Text} (depth : ℕ) (hopen : IsTabs openLine) :
    (recordsLines fl s openLine depth children).1.map stripTabs =
        treesRecords fl s depth children ∧
      IsTabs (recordsLines fl s openLine depth children).2 := by
  induction children generalizing openLine with
  | nil => exact ⟨rfl, hopen⟩
  | cons c cs ih =>
      obtain ⟨hc, htabs⟩ := h c List.mem_cons_self openLine depth hopen
      obtain ⟨hcs, htabs'⟩ := ih (fun d hd => h d (List.mem_cons_of_mem c hd)) htabs
      exact ⟨by simp only [recordsLines, treesRecords, List.map_append, hc, hcs], htabs'⟩

variable (fl s) in
/-- Every line is one record behind some tabs. -/
theorem recordLines_strip (t : SRANode) {openLine : Text} (depth : ℕ) (hopen : IsTabs openLine) :
    (recordLines fl s openLine depth t).1.map stripTabs = treeRecords fl s depth t ∧
      IsTabs (recordLines fl s openLine depth t).2 := by
  induction t using Rose.induct generalizing openLine depth with
  | h n children ih =>
      have htabs := hopen.append (isTabs_tabs s depth)
      have hstrip := stripTabs_append_record htabs depth
      have hleaf := stripTabs_append_record (isTabs_tabs s (depth + 1)) (depth + 1)
      obtain ⟨hchildren, hlast⟩ :=
        recordsLines_strip (fun c hc _ _ => ih c hc _) (depth + 1) isTabs_nil
      rw [recordLines.eq_def, treeRecords.eq_def]
      cases hn : recordShape fl n with
      | nothing => simpa [hn] using htabs
      | leaf kind payload => simp [hn, hleaf, hstrip, isTabs_nil, -List.append_assoc]
      | container kind =>
          simp only [hn, List.map_cons, hstrip, hchildren, true_and]
          exact hlast
      | item =>
          cases children with
          | nil =>
              by_cases hallow : s.allowEmptyElementsInArray = true
              · simp [hn, hallow, hstrip, isTabs_nil, -List.append_assoc]
              · simpa [hn, hallow] using htabs
          | cons c cs =>
              obtain ⟨hc, hclast⟩ := ih c List.mem_cons_self (depth + 1) isTabs_nil
              simp only [hn, List.map_cons, hstrip, hc, true_and]
              exact hclast

theorem mem_stripTabs {line : Text} (h : ch '\n' ∈ line) : ch '\n' ∈ stripTabs line := by
  have hne : ch '\n' ≠ ch '\t' := by decide
  unfold stripTabs
  split
  · exact h
  · rw [← List.takeWhile_append_dropWhile (p := (· = ch '\t')) (l := line)] at h
    rcases List.mem_append.mp h with h | h
    · exact absurd (by simpa using List.mem_takeWhile_imp h) hne
    · exact h

end Lines

/-! ## The tree that is read -/

section Reloaded

variable (fl : FloatOps) (s : TextSettings)

mutual

/-- What is read back of a node: the writer leaves out the children of an item
after the first, and an empty item unless it may print it; ids are made from
their names and floating values from their decimal texts. -/
def reloaded : SRANode → List SRANode
  | .node n children =>
      match n.type with
      | .unknown => []
      | .string | .boolean | .integer => [.node { n with id := n.id.reread } []]
      | .floating => [.node
          { n with
            id := n.id.reread
            data := .floating (lexicalCastDouble fl (fl.toText n.data.asFloating)) } []]
      | .root | .object | .array =>
          [.node { n with id := n.id.reread } (reloadedAll children)]
      | .item =>
          match children with
          | [] =>
              if s.allowEmptyElementsInArray then [.node { n with id := n.id.reread } []] else []
          | child :: _ => [.node { n with id := n.id.reread } (reloaded child)]

def reloadedAll : List SRANode → List SRANode
  | [] => []
  | c :: cs => reloaded c ++ reloadedAll cs

end

end Reloaded

section

variable {fl : FloatOps} {s : TextSettings}

theorem loads_treesRecords {children : List SRANode}
    (h : ∀ c ∈ children, ∀ depth, Loads fl (treeRecords fl s depth c) depth (reloaded fl s c))
    (depth : ℕ) :
    Loads fl (treesRecords fl s depth children) depth (reloadedAll fl s children) := by
  induction children with
  | nil => simpa [treesRecords, reloadedAll] using loads_nil
  | cons c cs ih =>
      simp only [treesRecords, reloadedAll]
      exact (h c List.mem_cons_self depth).append (ih fun d hd => h d (List.mem_cons_of_mem c hd))

theorem lexicalCastInt64_intText (i : Int64) : lexicalCastInt64 (intText i.toInt) = i := by
  have hlo : -2 ^ (64 - 1) ≤ i.toInt := i.le_toInt
  have hhi : i.toInt < 2 ^ (64 - 1) := i.toInt_lt
  have hsto : sto 64 (intText i.toInt ++ []) = some i.toInt := sto_intText hlo hhi (by simp)
  rw [List.append_nil] at hsto
  rw [lexicalCastInt64, hsto]
  simp

theorem decide_lit_eq (value : Bool) :
    decide (lit (if value then "true" else "false") = lit "true") = value := by
  revert value
  decide

/-- The loop reads the records of a built tree as the tree, one case for each
kind of node. -/
theorem loads_treeRecords {P : NodeShape} {t : SRANode} (ht : Built P t) (depth : ℕ) :
    Loads fl (treeRecords fl s depth t) depth (reloaded fl s t) := by
  induction ht generalizing depth with
  | string id hid value hvalue =>
      rw [treeRecords.eq_def, reloaded.eq_def]
      refine Loads.leaf (k := .string) (by decide)
        (f := fun n => { n with type := .string, string := value }) ?_ id.name
      intro d
      rw [applyRecord, payload_record 's' (by decide)]
  | boolean id hid value =>
      rw [treeRecords.eq_def, reloaded.eq_def]
      refine Loads.leaf (k := .boolean) (by decide)
        (f := fun n => { n with type := .boolean, data := .boolean value }) ?_ id.name
      intro d
      rw [applyRecord, payload_record 'b' (by decide), SRATrivialDataType.asBoolean,
        decide_lit_eq]
  | integer id hid value =>
      rw [treeRecords.eq_def, reloaded.eq_def]
      refine Loads.leaf (k := .integer) (by decide)
        (f := fun n => { n with type := .integer, data := .integer value }) ?_ id.name
      intro d
      rw [applyRecord, payload_record 'i' (by decide), SRATrivialDataType.asInteger,
        lexicalCastInt64_intText]
  | floating id hid value hvalue =>
      rw [treeRecords.eq_def, reloaded.eq_def]
      refine Loads.leaf (k := .floating) (by decide)
        (f := fun n => { n with
          type := .floating
          data := .floating (lexicalCastDouble fl (fl.toText value)) }) ?_ id.name
      intro d
      rw [applyRecord, payload_record 'f' (by decide), SRATrivialDataType.asFloating]
  | object id hid children h ih =>
      rw [treeRecords.eq_def, reloaded.eq_def]
      exact (loads_treesRecords ih (depth + 1)).container opens_object (by decide) id.name
  | array id hid children h ih =>
      rw [treeRecords.eq_def, reloaded.eq_def]
      exact (loads_treesRecords ih (depth + 1)).container opens_array (by decide) id.name
  | item id hid children hsize h ih =>
      cases children with
      | nil =>
          by_cases hallow : s.allowEmptyElementsInArray = true
          · simp only [treeRecords, recordShape, reloaded, hallow, if_true]
            exact loads_nil.container opens_item (by decide) id.name
          · simpa [treeRecords, recordShape, reloaded, hallow] using loads_nil
      | cons c cs =>
          rw [treeRecords.eq_def, reloaded.eq_def]
          exact (ih c List.mem_cons_self (depth + 1)).container opens_item (by decide) id.name

theorem loadLine_root (fl : FloatOps) (i : ℕ) (name : Text) :
    loadLine fl i (record 0 'r' name) {} =
      some { root := .node { id := .createFromString name, type := .root } [] } := by
  have hdepth : lexicalCastInt32 (record 0 'r' name) = ((0 : ℕ) : ℤ) :=
    lexicalCastInt32_record (by omega) 'r' name
  have hpayload := payload_record 'r' (by decide) 0 name
  have hkind : RecordKind.ofChar? (ch 'r') = some .root := by decide
  simp only [loadLine, stripTabs_record, if_neg (record_ne_nil _ _ _), hdepth, ne_eq,
    not_true_eq_false, and_false, if_false, after_dash_record, hkind, applyRecord, hpayload]
  rfl

variable (fl s) in
/-- The loop rebuilds a whole tree on a fresh deserializer. -/
theorem loadLines_treeRecords {P : NodeShape} {t : SRANode} (ht : BuiltRoot P t)
    (hlen : (treeRecords fl s 0 t).length < int32Max) :
    ∃ d, loadLines fl 1 (treeRecords fl s 0 t) {} = some d ∧ [d.root] = reloaded fl s t ∧
      d.walker = [] ∧ d.reports = [] := by
  obtain ⟨id, hid, children, h⟩ := ht
  have hrecords : treeRecords fl s 0 (.node { id := id, type := .root } children) =
      record 0 'r' id.name :: treesRecords fl s 1 children := by
    rw [treeRecords.eq_def]
    rfl
  rw [hrecords, List.length_cons] at hlen
  have hchildren : Loads fl (treesRecords fl s 1 children) 1 (reloadedAll fl s children) :=
    loads_treesRecords (fun c hc depth => loads_treeRecords (h c hc) depth) 1
  obtain ⟨d, hload, hgrown⟩ := hchildren 2 []
    { root := .node { id := .createFromString id.name, type := .root } [] } List.suffix_rfl rfl
    rfl (by omega) (by omega)
  refine ⟨d, ?_, ?_, hgrown.walker, hgrown.reports⟩
  · rw [hrecords, loadLines_cons (by decide), loadLine_root]
    exact hload
  · rw [hgrown.root, reloaded.eq_def]
    rfl

end

/-! ## Exact trees -/

/-- What survives printing and scanning: proper ids, floating values that their
decimal text determines, and items that hold one child or may hold none. -/
def exactShape (fl : FloatOps) (s : TextSettings) : NodeShape where
  id := SerializationId.Proper
  string := fun _ => True
  floating := fun value => lexicalCastDouble fl (fl.toText value) = value
  itemSize := fun n => n = 1 ∨ n = 0 ∧ s.allowEmptyElementsInArray = true

section

variable {fl : FloatOps} {s : TextSettings}

theorem reloadedAll_eq {children : List SRANode} (h : ∀ c ∈ children, reloaded fl s c = [c]) :
    reloadedAll fl s children = children := by
  induction children with
  | nil => rfl
  | cons c cs ih =>
      rw [reloadedAll, h c List.mem_cons_self, ih fun d hd => h d (List.mem_cons_of_mem c hd)]
      rfl

theorem reloaded_eq {t : SRANode} (ht : Built (exactShape fl s) t) : reloaded fl s t = [t] := by
  induction ht with
  | string id hid value hvalue => simp [reloaded, hid.reread]
  | boolean id hid value => simp [reloaded, hid.reread]
  | integer id hid value => simp [reloaded, hid.reread]
  | floating id hid value hvalue =>
      have heq : lexicalCastDouble fl (fl.toText value) = value := hvalue
      simp [reloaded, hid.reread, SRATrivialDataType.asFloating, heq]
  | object id hid children h ih =>
      rw [reloaded.eq_def]
      simp [hid.reread, reloadedAll_eq ih]
  | array id hid children h ih =>
      rw [reloaded.eq_def]
      simp [hid.reread, reloadedAll_eq ih]
  | item id hid children hsize h ih =>
      rcases hsize with hone | ⟨hzero, hallow⟩
      · obtain ⟨c, rfl⟩ := List.length_eq_one_iff.mp hone
        simp [reloaded, hid.reread, ih c List.mem_cons_self]
      · obtain rfl := List.length_eq_zero_iff.mp hzero
        simp [reloaded, hid.reread, hallow]

theorem reloaded_eq_root {t : SRANode} (ht : BuiltRoot (exactShape fl s) t) :
    reloaded fl s t = [t] := by
  obtain ⟨id, hid, children, h⟩ := ht
  rw [reloaded.eq_def]
  simp [hid.reread, reloadedAll_eq fun c hc => reloaded_eq (h c hc)]

end

end SRCommon
