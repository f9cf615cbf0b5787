import Mathlib.Data.List.DropRight
import SRCommon.Serialization.TextRoundTrip

/-!
# Saved files

What `SaveToFile` prints, cut into lines by `ReadAllLines`, is the header, the
records and the rest after the last line break, provided that no payload holds
a line break. `LoadFromFile` then makes the tree again as long as it can count
the lines.
-/

namespace SRCommon

open Text SRADeserializer

theorem Built.mono {P Q : NodeShape} (hid : ∀ id, P.id id → Q.id id)
    (hstring : ∀ v, P.string v → Q.string v) (hfloating : ∀ v, P.floating v → Q.floating v)
    (hsize : ∀ n, P.itemSize n → Q.itemSize n) {t : SRANode} (ht : Built P t) : Built Q t := by
  induction ht with
  | string id h value hvalue => exact .string id (hid id h) value (hstring value hvalue)
  | boolean id h value => exact .boolean id (hid id h) value
  | integer id h value => exact .integer id (hid id h) value
  | floating id h value hvalue => exact .floating id (hid id h) value (hfloating value hvalue)
  | object id h children _ ih => exact .object id (hid id h) children ih
  | array id h children _ ih => exact .array id (hid id h) children ih
  | item id h children hn _ ih => exact .item id (hid id h) children (hsize _ hn) ih

theorem BuiltRoot.mono {P Q : NodeShape} (hid : ∀ id, P.id id → Q.id id)
    (hstring : ∀ v, P.string v → Q.string v) (hfloating : ∀ v, P.floating v → Q.floating v)
    (hsize : ∀ n, P.itemSize n → Q.itemSize n) {t : SRANode} (ht : BuiltRoot P t) :
    BuiltRoot Q t := by
  obtain ⟨id, h, children, hchildren⟩ := ht
  exact .root id (hid id h) children fun c hc =>
    (hchildren c hc).mono hid hstring hfloating hsize

/-! ## The loop on the printed records -/

section

variable {fl : FloatOps} {s : TextSettings}

variable (fl) in
/-- When empty items are printed, every node ends its last line. -/
theorem recordLines_snd (hallow : s.allowEmptyElementsInArray = true) {P : NodeShape}
    {t : SRANode} (ht : Built P t) (openLine : Text) (depth : ℕ) :
    (recordLines fl s openLine depth t).2 = [] := by
  have hall : ∀ {children : List SRANode}, (∀ c ∈ children, ∀ openLine depth,
      (recordLines fl s openLine depth c).2 = []) → ∀ depth,
      (recordsLines fl s [] depth children).2 = [] := by
    intro children h depth
    induction children with
    | nil => rfl
    | cons c cs ih =>
        rw [recordsLines, h c List.mem_cons_self]
        exact ih fun d hd => h d (List.mem_cons_of_mem c hd)
  induction ht generalizing openLine depth with
  | string | boolean | integer | floating => simp [recordLines, recordShape]
  | object id hid children h ih | array id hid children h ih =>
      rw [recordLines.eq_def]
      exact hall ih (depth + 1)
  | item id hid children hsize h ih =>
      cases children with
      | nil => simp [recordLines, recordShape, hallow]
      | cons c cs =>
          rw [recordLines.eq_def]
          exact ih c List.mem_cons_self [] (depth + 1)

theorem recordLines_snd_root (hallow : s.allowEmptyElementsInArray = true) {P : NodeShape}
    {t : SRANode} (ht : BuiltRoot P t) : (recordLines fl s [] 0 t).2 = [] := by
  obtain ⟨id, hid, children, h⟩ := ht
  have hobject := recordLines_snd fl hallow (.object id hid children h) [] 0
  rw [recordLines.eq_def] at hobject ⊢
  exact hobject

theorem stripTabs_stripTabs (line : Text) : stripTabs (stripTabs line) = stripTabs line := by
  by_cases hall : line.all (· = ch '\t') = true
  · simp only [stripTabs, hall, if_true]
  · have hstrip : stripTabs line = line.dropWhile (· = ch '\t') := if_neg hall
    rw [hstrip, stripTabs]
    split
    · rfl
    · exact List.dropWhile_idempotent _ line

theorem loadLines_recordLines (t : SRANode) :
    loadLines fl 1 (recordLines fl s [] 0 t).1 {} = loadLines fl 1 (treeRecords fl s 0 t) {} := by
  apply loadLines_congr
  rw [← (recordLines_strip fl s t 0 isTabs_nil).1, List.map_map]
  exact List.map_congr_left fun line _ => (stripTabs_stripTabs line).symm

theorem length_recordLines (t : SRANode) :
    (recordLines fl s [] 0 t).1.length = (treeRecords fl s 0 t).length := by
  rw [← (recordLines_strip fl s t 0 isTabs_nil).1, List.length_map]

/-! ## The lines of the file -/

/-- Payloads without line breaks. -/
def oneLineShape (fl : FloatOps) : NodeShape where
  id := fun id => ch '\n' ∉ id.name
  string := fun value => ch '\n' ∉ value
  floating := fun value => ch '\n' ∉ fl.toText value
  itemSize := fun _ => True

theorem notMem_record {kind : Char} {data : Text} (depth : ℕ) (hkind : ch '\n' ≠ ch kind)
    (hdata : ch '\n' ∉ data) : ch '\n' ∉ record depth kind data := by
  have hdigit : isDigit (ch '\n') = false := by decide
  have hdash : ch '\n' ≠ ch '-' := by decide
  have hcolon : ch '\n' ≠ ch ':' := by decide
  simp [record, recordHead, notMem_natText hdigit, hdash, hkind, hcolon, hdata]

theorem notMem_intText (i : ℤ) : ch '\n' ∉ intText i := by
  have hdigit : isDigit (ch '\n') = false := by decide
  have hdash : ch '\n' ≠ ch '-' := by decide
  cases i with
  | ofNat n => exact notMem_natText hdigit
  | negSucc n => simp [intText, hdash, notMem_natText hdigit]

/-- Every text takes one line only. -/
def OneLine (texts : List Text) : Prop := ∀ text ∈ texts, ch '\n' ∉ text

theorem OneLine.append {ls ms : List Text} (hls : OneLine ls) (hms : OneLine ms) :
    OneLine (ls ++ ms) := by
  intro l hl
  rcases List.mem_append.mp hl with hl | hl
  · exact hls l hl
  · exact hms l hl

theorem OneLine.cons {l : Text} {ls : List Text} (hl : ch '\n' ∉ l) (hls : OneLine ls) :
    OneLine (l :: ls) := by
  intro m hm
  rcases List.mem_cons.mp hm with rfl | hm
  · exact hl
  · exact hls m hm

theorem oneLine_nil : OneLine [] := by simp [OneLine]

theorem oneLine_treesRecords {children : List SRANode}
    (h : ∀ c ∈ children, ∀ depth, OneLine (treeRecords fl s depth c)) (depth : ℕ) :
    OneLine (treesRecords fl s depth children) := by
  induction children with
  | nil => exact oneLine_nil
  | cons c cs ih =>
      rw [treesRecords]
      exact (h c List.mem_cons_self depth).append (ih fun d hd => h d (List.mem_cons_of_mem c hd))

theorem oneLine_leaf {kind : Char} {data name : Text} (hkind : ch '\n' ≠ ch kind)
    (hname : ch '\n' ∉ name) (hdata : ch '\n' ∉ data) (depth : ℕ) :
    OneLine [record depth 'v' name, record (depth + 1) kind data] :=
  .cons (notMem_record depth (by decide) hname)
    (.cons (notMem_record (depth + 1) hkind hdata) oneLine_nil)

theorem oneLine_treeRecords {t : SRANode} (ht : Built (oneLineShape fl) t) (depth : ℕ) :
    OneLine (treeRecords fl s depth t) := by
  induction ht generalizing depth with
  | string id hid value hvalue =>
      rw [treeRecords.eq_def]
      exact oneLine_leaf (by decide) hid hvalue depth
  | boolean id hid value =>
      rw [treeRecords.eq_def]
      refine oneLine_leaf (by decide) hid ?_ depth
      change ch '\n' ∉ lit (if value then "true" else "false")
      revert value
      decide
  | integer id hid value =>
      rw [treeRecords.eq_def]
      exact oneLine_leaf (by decide) hid (notMem_intText _) depth
  | floating id hid value hvalue =>
      rw [treeRecords.eq_def]
      exact oneLine_leaf (by decide) hid hvalue depth
  | object id hid children h ih =>
      rw [treeRecords.eq_def]
      exact .cons (notMem_record depth (by decide) hid) (oneLine_treesRecords ih (depth + 1))
  | array id hid children h ih =>
      rw [treeRecords.eq_def]
      exact .cons (notMem_record depth (by decide) hid) (oneLine_treesRecords ih (depth + 1))
  | item id hid children hsize h ih =>
      have hrecord := notMem_record depth (show ch '\n' ≠ ch 'k' by decide) hid
      rw [treeRecords.eq_def]
      cases children with
      | nil =>
          by_cases hallow : s.allowEmptyElementsInArray = true
          · simpa [recordShape, hallow] using OneLine.cons hrecord oneLine_nil
          · simpa [recordShape, hallow] using oneLine_nil
      | cons c cs => exact .cons hrecord (ih c List.mem_cons_self (depth + 1))

theorem oneLine_treeRecords_root {t : SRANode} (ht : BuiltRoot (oneLineShape fl) t) :
    OneLine (treeRecords fl s 0 t) := by
  obtain ⟨id, hid, children, h⟩ := ht
  rw [treeRecords.eq_def]
  exact .cons (notMem_record 0 (by decide) hid)
    (oneLine_treesRecords (fun c hc depth => oneLine_treeRecords (h c hc) depth) 1)

theorem getlines_documentText {t : SRANode} (ht : BuiltRoot (oneLineShape fl) t) :
    getlines (documentText fl s t) =
      lit "sra format" :: ((recordLines fl s [] 0 t).1 ++ [(recordLines fl s [] 0 t).2]) := by
  obtain ⟨hstrip, htabs⟩ := recordLines_strip fl s t 0 isTabs_nil
  rw [documentText_eq, getlines_unlines, List.cons_append]
  · apply OneLine.cons (by decide)
    intro line hline hmem
    apply oneLine_treeRecords_root (s := s) ht (stripTabs line)
    · rw [← hstrip]
      exact List.mem_map_of_mem hline
    · exact mem_stripTabs hmem
  · intro hmem
    exact absurd (htabs _ hmem) (by decide)

/-! ## The whole file -/

theorem scanInt_isTabs {t : Text} (ht : IsTabs t) : scanInt t = none := by
  have hspace : t.dropWhile isSpace = [] := by
    rw [List.dropWhile_eq_nil_iff]
    intro c hc
    rw [ht c hc]
    decide
  rw [scanInt, hspace]

variable (fl) in
/-- The rest after the last line break makes no node. -/
theorem loadLine_tabs (i : ℕ) {line : Text} (hline : IsTabs line) (d : SRADeserializer) :
    ∃ d', loadLine fl i line d = some d' ∧ d'.root = d.root ∧ d'.walker = d.walker := by
  have hstrip : stripTabs line = line := by
    rw [stripTabs, if_pos]
    simpa [IsTabs] using hline
  by_cases hnil : line = []
  · subst hnil
    exact ⟨d, by simp [loadLine, stripTabs], rfl, rfl⟩
  · have hdepth : lexicalCastInt32 line = 0 := by
      simp [lexicalCastInt32, sto, scanInt_isTabs hline]
    by_cases hstack : d.stack = []
    · have hdash : ch '-' ∉ line := fun hmem => absurd (hline _ hmem) (by decide)
      have hafter : after (ch '-') line = line := by
        rw [after, List.idxOf?_eq_none_iff.mpr hdash]
        rfl
      obtain ⟨c, rest, rfl⟩ := List.exists_cons_of_ne_nil hnil
      have hkind : RecordKind.ofChar? c = none := by
        rw [hline c List.mem_cons_self]
        decide
      refine ⟨report { d with stack := popToDepth (sizeOfDepth 0) [] }
        (.invalidType (cstr (c :: rest))), ?_, rfl, rfl⟩
      simp only [loadLine, hstrip, hnil, hdepth, hstack, hafter, hkind, if_false, ne_eq,
        not_true_eq_false, and_false]
    · refine ⟨d.report (.doubleRoot (i + 1)), ?_, rfl, rfl⟩
      simp [loadLine, hstrip, hnil, hdepth, hstack]

/-- The loop of `LoadFromFile` runs over the records and the rest. -/
theorem loadFromFile_documentText {t : SRANode} (ht : BuiltRoot (oneLineShape fl) t)
    (hlen : (treeRecords fl s 0 t).length + 2 ≤ int32Max) :
    ∃ d, loadFromFile fl (getlines (documentText fl s t)) {} = some (d, true) ∧
      [d.root] = reloaded fl s t ∧ d.walker = [] := by
  obtain ⟨d, hload, hroot, hwalker, -⟩ := loadLines_treeRecords fl s ht (by omega)
  obtain ⟨d', hload', hroot', hwalker'⟩ := loadLine_tabs fl
    (1 + (treeRecords fl s 0 t).length) (recordLines_strip fl s t 0 isTabs_nil).2 d
  refine ⟨d', ?_, by rw [hroot', hroot], by rw [hwalker', hwalker]⟩
  rw [getlines_documentText ht, loadFromFile, if_pos List.infix_rfl, loadLines_append,
    loadLines_recordLines, hload, length_recordLines, Option.bind_some, loadLines_cons (by omega),
    hload']
  rfl

/-- Past the maximum of the line counter the loop does not come to an end. -/
theorem loadFromFile_documentText_eq_none {t : SRANode} (ht : BuiltRoot (oneLineShape fl) t)
    (hlen : int32Max < (treeRecords fl s 0 t).length + 2) :
    loadFromFile fl (getlines (documentText fl s t)) {} = none := by
  rw [getlines_documentText ht, loadFromFile, if_pos List.infix_rfl,
    loadLines_eq_none (by decide), Option.map_none]
  rw [List.length_append, length_recordLines, List.length_singleton]
  omega

end

/-! ## Round trips -/

/-- Trees without floating values whose items hold at most one child. -/
def plainShape (ids : SerializationId → Prop) : NodeShape where
  id := ids
  string := fun _ => True
  floating := fun _ => False
  itemSize := fun n => n ≤ 1

/-- Ids made from texts shorter than the name buffer. -/
def ShortId (id : SerializationId) : Prop :=
  ∃ text : Text, text.length < SerializationId.maxNameLength ∧
    id = SerializationId.createFromString text

def Rebuilds (fl : FloatOps) (useTabs : Bool) (t : SRANode) : Prop :=
  documentText fl { useTabs := useTabs } t =
      unlines (lit "sra format" :: (recordLines fl { useTabs := useTabs } [] 0 t).1) ∧
    ∃ d, loadLines fl 1 (recordLines fl { useTabs := useTabs } [] 0 t).1 {} = some d ∧
      d.root = t ∧ d.reports = []

theorem rebuilds_of_proper (fl : FloatOps) (useTabs : Bool) {t : SRANode}
    (ht : BuiltRoot (plainShape SerializationId.Proper) t)
    (hlen : (recordLines fl { useTabs := useTabs } [] 0 t).1.length < int32Max) :
    Rebuilds fl useTabs t := by
  have hsize : ∀ n : ℕ, n ≤ 1 → n = 1 ∨ n = 0 ∧ true = true := by
    intro n hn
    rw [and_iff_left rfl]
    omega
  have hexact : BuiltRoot (exactShape fl { useTabs := useTabs }) t :=
    BuiltRoot.mono (P := plainShape _) (Q := exactShape fl { useTabs := useTabs })
      (fun _ h => h) (fun _ h => h) (fun _ => False.elim) hsize ht
  rw [length_recordLines] at hlen
  obtain ⟨d, hload, hroot, -, hreports⟩ := loadLines_treeRecords fl _ ht hlen
  rw [reloaded_eq_root hexact, List.cons.injEq] at hroot
  constructor
  · rw [documentText_eq, recordLines_snd_root rfl ht, List.append_nil]
  · exact ⟨d, by rw [loadLines_recordLines, hload], hroot.1, hreports⟩

def rootNode (children : List SRANode) : SRANode :=
  .node { id := .create "Root", type := .root } children

theorem proper_create_root : (SerializationId.create "Root").Proper :=
  ⟨lit "Root", by decide, by decide, rfl⟩

theorem rebuilds_of_proper_sample : Rebuilds sampleFloats true
    (rootNode [.node { id := .create "a", type := .array } [
      .node { id := .create "i", type := .item } [
        .node { id := .create "d", type := .string, string := lit "1-o:x" } []],
      .node { id := .create "i", type := .item } [],
      .node { id := .create "i", type := .item } [
        .node { id := .create "d", type := .object } [
          .node { id := .create "x", type := .integer, data := .integer (-5) } []]]]]) := by
  have hproper : ∀ name ∈ ["a", "i", "d", "x"], (SerializationId.create name).Proper := by
    intro name hname
    exact ⟨lit name, by revert name; decide, by revert name; decide, rfl⟩
  apply rebuilds_of_proper sampleFloats true
  · refine .root _ proper_create_root _ ?_
    simp only [List.forall_mem_singleton]
    refine .array _ (hproper "a" (by decide)) _ ?_
    simp only [List.forall_mem_cons, List.not_mem_nil, false_implies, implies_true, and_true]
    have hi := hproper "i" (by decide)
    have hd := hproper "d" (by decide)
    refine ⟨.item _ hi _ (Nat.le_refl 1) ?_, .item _ hi _ (Nat.zero_le 1) (by simp),
      .item _ hi _ (Nat.le_refl 1) ?_⟩
    · simp only [List.forall_mem_singleton]
      exact .string _ hd _ trivial
    · simp only [List.forall_mem_singleton]
      refine .object _ hd _ ?_
      simp only [List.forall_mem_singleton]
      exact .integer _ (hproper "x" (by decide)) _
  · decide

/-! ### Where the round trip ends -/

theorem ShortId.of_create {name : String} (h : (lit name).length < SerializationId.maxNameLength) :
    ShortId (.create name) := ⟨lit name, h, rfl⟩

def objectTree (id : SerializationId) : SRANode :=
  rootNode [.node { id := id, type := .object } []]

theorem builtRoot_objectTree {P : NodeShape} (hroot : P.id (.create "Root"))
    {id : SerializationId} (hid : P.id id) : BuiltRoot P (objectTree id) := by
  refine .root _ hroot _ ?_
  simp only [List.forall_mem_singleton]
  exact .object _ hid _ (by simp)

def wideTree (n : ℕ) : SRANode :=
  rootNode (List.replicate n (.node { id := .create "a", type := .object } []))

theorem builtRoot_wideTree {P : NodeShape} (hroot : P.id (.create "Root"))
    (ha : P.id (.create "a")) (n : ℕ) : BuiltRoot P (wideTree n) := by
  refine .root _ hroot _ ?_
  intro c hc
  rw [List.eq_of_mem_replicate hc]
  exact .object _ ha _ (by simp)

theorem length_treeRecords_wideTree (fl : FloatOps) (s : TextSettings) (n : ℕ) :
    (treeRecords fl s 0 (wideTree n)).length = n + 1 := by
  have hall : ∀ m, (treesRecords fl s 1
      (List.replicate m (.node { id := .create "a", type := .object } []))).length = m := by
    intro m
    induction m with
    | zero => rfl
    | succ m ih =>
        rw [List.replicate_succ, treesRecords, List.length_append, ih, treeRecords.eq_def]
        exact Nat.add_comm 1 m
  rw [wideTree, rootNode, treeRecords.eq_def]
  exact congrArg (· + 1) (hall n)

/-- An id is read back as the id of its name, whatever it was made from. -/
theorem not_rebuilds_objectTree (fl : FloatOps) (useTabs : Bool) {id : SerializationId}
    (hid : id.reread ≠ id) : ¬ Rebuilds fl useTabs (objectTree id) := by
  rintro ⟨-, d, hload, hroot, -⟩
  have ht : BuiltRoot (plainShape fun _ => True) (objectTree id) :=
    builtRoot_objectTree trivial trivial
  have hlen : (treeRecords fl { useTabs := useTabs } 0 (objectTree id)).length < int32Max := by
    rw [objectTree, rootNode, treeRecords.eq_def]
    exact (by decide : 2 < int32Max)
  obtain ⟨d', hload', hroot', -, -⟩ := loadLines_treeRecords fl _ ht hlen
  rw [loadLines_recordLines, hload', Option.some.injEq] at hload
  have hreloaded : reloaded fl { useTabs := useTabs } (objectTree id) =
      [objectTree id.reread] := rfl
  rw [hload, hroot, hreloaded] at hroot'
  simp only [objectTree, rootNode, List.cons.injEq, Rose.node.injEq,
    SRANodeFields.mk.injEq] at hroot'
  exact hid hroot'.1.2.1.1.1.symm

theorem not_rebuilds_wideTree (fl : FloatOps) (useTabs : Bool) {n : ℕ} (hn : int32Max ≤ n) :
    ¬ Rebuilds fl useTabs (wideTree n) := by
  rintro ⟨-, d, hload, -, -⟩
  rw [loadLines_eq_none (by decide)] at hload
  · cases hload
  · rw [length_recordLines, length_treeRecords_wideTree]
    omega

/-- The hash of an id is taken of the whole text, the name stops at a zero byte. -/
def zeroByteId : SerializationId := .createFromString (lit "a" ++ 0 :: lit "b")

theorem not_rebuilds_of_shortId :
    (BuiltRoot (plainShape ShortId) (objectTree zeroByteId) ∧
      ¬ Rebuilds sampleFloats false (objectTree zeroByteId)) ∧
    BuiltRoot (plainShape ShortId) (wideTree (2 ^ 31)) ∧
      ¬ Rebuilds sampleFloats false (wideTree (2 ^ 31)) := by
  have hroot : (plainShape ShortId).id (.create "Root") := ShortId.of_create (by decide)
  refine ⟨⟨builtRoot_objectTree hroot ⟨_, by decide, rfl⟩, ?_⟩,
    builtRoot_wideTree hroot (ShortId.of_create (by decide)) _, ?_⟩
  · exact not_rebuilds_objectTree _ _ (by decide)
  · exact not_rebuilds_wideTree _ _ (by decide)

/-! ## Values and structure -/

/-- The file has one line for every record and loads as the tree that was printed. -/
def StaysValue (fl : FloatOps) (s : TextSettings) (t : SRANode) : Prop :=
  ∃ lines last, getlines (documentText fl s t) = lit "sra format" :: (lines ++ [last]) ∧
    lines.map stripTabs = treeRecords fl s 0 t ∧ IsTabs last ∧
    ∃ d, loadFromFile fl (getlines (documentText fl s t)) {} = some (d, true) ∧
      [d.root] = reloaded fl s t

/-- Strings and ids without line breaks, anything else. -/
def oneLineStrings : NodeShape where
  id := fun id => ch '\n' ∉ id.name
  string := fun value => ch '\n' ∉ value
  floating := fun _ => True
  itemSize := fun _ => True

def valueTree (id : SerializationId) (value : Text) : SRANode :=
  rootNode [.node { id := id, type := .string, string := value } []]

theorem builtRoot_valueTree {P : NodeShape} (hroot : P.id (.create "Root"))
    {id : SerializationId} (hid : P.id id) {value : Text} (hvalue : P.string value) :
    BuiltRoot P (valueTree id value) := by
  refine .root _ hroot _ ?_
  simp only [List.forall_mem_singleton]
  exact .string _ hid _ hvalue

theorem notMem_toText_sampleFloats (value : UInt64) : ch '\n' ∉ sampleFloats.toText value := by
  unfold sampleFloats
  dsimp only
  split
  · decide
  · decide

/-- Every line of the file beyond the records and the two around them is too many. -/
theorem not_staysValue_of_length {fl : FloatOps} {s : TextSettings} {t : SRANode}
    (h : (getlines (documentText fl s t)).length ≠ (treeRecords fl s 0 t).length + 2) :
    ¬ StaysValue fl s t := by
  rintro ⟨lines, last, hlines, hstrip, -⟩
  apply h
  rw [hlines, ← hstrip]
  simp

def anyShape : NodeShape where
  id := fun _ => True
  string := fun _ => True
  floating := fun _ => True
  itemSize := fun _ => True

end SRCommon
