import SRCommon.Serialization.Node

/-!
# Writing a document

`SRAISerialization::ToString` prints one record for a container and two for a
leaf, every record being a depth, a kind, a payload and a line break.
`lineRecords` lists the records of a tree without their line breaks.
-/

namespace SRCommon

open Text

structure TextSettings where
  useTabs : Bool := false
  allowEmptyElementsInArray : Bool := true

namespace TextSettings

variable (s : TextSettings)

def tabs (depth : ℕ) : Text := if s.useTabs then List.replicate depth (ch '\t') else []

end TextSettings

/-- `ToString(depth) + "-" + kind + ":"`. -/
def recordHead (depth : ℕ) (kind : Char) : Text := natText depth ++ [ch '-', ch kind, ch ':']

section Writer

variable (fl : FloatOps) (s : TextSettings)

mutual

/-- The lambda `serializeNode` of `ToString`. -/
def serializeNode (depth : ℕ) : SRANode → Text
  | .node n children =>
      s.tabs depth ++
      match n.type with
      | .root => recordHead depth 'r' ++ n.id.name ++ [ch '\n'] ++
          serializeNodes (depth + 1) children
      | .object => recordHead depth 'o' ++ n.id.name ++ [ch '\n'] ++
          serializeNodes (depth + 1) children
      | .array => recordHead depth 'a' ++ n.id.name ++ [ch '\n'] ++
          serializeNodes (depth + 1) children
      | .item =>
          match children with
          | [] =>
              if s.allowEmptyElementsInArray then
                recordHead depth 'k' ++ n.id.name ++ [ch '\n']
              else []
          | child :: _ => recordHead depth 'k' ++ n.id.name ++ [ch '\n'] ++
              serializeNode (depth + 1) child
      | .unknown => []
      | .string => recordHead depth 'v' ++ n.id.name ++ [ch '\n'] ++
          s.tabs (depth + 1) ++ recordHead (depth + 1) 's' ++ n.string ++ [ch '\n']
      | .boolean => recordHead depth 'v' ++ n.id.name ++ [ch '\n'] ++
          s.tabs (depth + 1) ++ recordHead (depth + 1) 'b' ++
            lit (if n.data.asBoolean then "true" else "false") ++ [ch '\n']
      | .integer => recordHead depth 'v' ++ n.id.name ++ [ch '\n'] ++
          s.tabs (depth + 1) ++ recordHead (depth + 1) 'i' ++
            intText n.data.asInteger.toInt ++ [ch '\n']
      | .floating => recordHead depth 'v' ++ n.id.name ++ [ch '\n'] ++
          s.tabs (depth + 1) ++ recordHead (depth + 1) 'f' ++
            fl.toText n.data.asFloating ++ [ch '\n']

def serializeNodes (depth : ℕ) : List SRANode → Text
  | [] => []
  | c :: cs => serializeNode depth c ++ serializeNodes depth cs

end

def documentText (root : SRANode) : Text :=
  lit "sra format" ++ [ch '\n'] ++ serializeNode fl s 0 root

end Writer

/-! ## Trees a serializer builds -/

/-- What the ids, leaf values and items of a tree are restricted to. -/
structure NodeShape where
  id : SerializationId → Prop
  string : Text → Prop
  floating : UInt64 → Prop
  itemSize : ℕ → Prop

/-- The nodes below the root. -/
inductive Built (P : NodeShape) : SRANode → Prop
  | string (id : SerializationId) (hid : P.id id) (value : Text) (hvalue : P.string value) :
      Built P (.node { id := id, type := .string, string := value } [])
  | boolean (id : SerializationId) (hid : P.id id) (value : Bool) :
      Built P (.node { id := id, type := .boolean, data := .boolean value } [])
  | integer (id : SerializationId) (hid : P.id id) (value : Int64) :
      Built P (.node { id := id, type := .integer, data := .integer value } [])
  | floating (id : SerializationId) (hid : P.id id) (value : UInt64) (hvalue : P.floating value) :
      Built P (.node { id := id, type := .floating, data := .floating value } [])
  | object (id : SerializationId) (hid : P.id id) (children : List SRANode)
      (h : ∀ c ∈ children, Built P c) : Built P (.node { id := id, type := .object } children)
  | array (id : SerializationId) (hid : P.id id) (children : List SRANode)
      (h : ∀ c ∈ children, Built P c) : Built P (.node { id := id, type := .array } children)
  | item (id : SerializationId) (hid : P.id id) (children : List SRANode)
      (hsize : P.itemSize children.length) (h : ∀ c ∈ children, Built P c) :
      Built P (.node { id := id, type := .item } children)

inductive BuiltRoot (P : NodeShape) : SRANode → Prop
  | root (id : SerializationId) (hid : P.id id) (children : List SRANode)
      (h : ∀ c ∈ children, Built P c) : BuiltRoot P (.node { id := id, type := .root } children)

/-! ## The records of a tree -/

/-- The records a node gives before those of its children. -/
inductive RecordShape where
  | nothing
  | leaf (kind : Char) (payload : Text)
  | container (kind : Char)
  | item

def recordShape (fl : FloatOps) (n : SRANodeFields) : RecordShape :=
  match n.type with
  | .root => .container 'r'
  | .object => .container 'o'
  | .array => .container 'a'
  | .item => .item
  | .unknown => .nothing
  | .string => .leaf 's' n.string
  | .boolean => .leaf 'b' (lit (if n.data.asBoolean then "true" else "false"))
  | .integer => .leaf 'i' (intText n.data.asInteger.toInt)
  | .floating => .leaf 'f' (fl.toText n.data.asFloating)

def record (depth : ℕ) (kind : Char) (payload : Text) : Text := recordHead depth kind ++ payload

section Records

variable (fl : FloatOps) (s : TextSettings)

mutual

/-- The lines a node completes and the line it leaves open, when it starts on an
open line. An item that is not printed leaves its tabs there. -/
def recordLines (openLine : Text) (depth : ℕ) : SRANode → List Text × Text
  | .node n children =>
      match recordShape fl n with
      | .nothing => ([], openLine ++ s.tabs depth)
      | .leaf kind payload =>
          ([openLine ++ s.tabs depth ++ record depth 'v' n.id.name,
            s.tabs (depth + 1) ++ record (depth + 1) kind payload], [])
      | .container kind =>
          ((openLine ++ s.tabs depth ++ record depth kind n.id.name) ::
            (recordsLines [] (depth + 1) children).1, (recordsLines [] (depth + 1) children).2)
      | .item =>
          match children with
          | [] =>
              if s.allowEmptyElementsInArray then
                ([openLine ++ s.tabs depth ++ record depth 'k' n.id.name], [])
              else ([], openLine ++ s.tabs depth)
          | child :: _ =>
              ((openLine ++ s.tabs depth ++ record depth 'k' n.id.name) ::
                (recordLines [] (depth + 1) child).1, (recordLines [] (depth + 1) child).2)

def recordsLines (openLine : Text) (depth : ℕ) : List SRANode → List Text × Text
  | [] => ([], openLine)
  | c :: cs =>
      ((recordLines openLine depth c).1 ++
        (recordsLines (recordLines openLine depth c).2 depth cs).1,
        (recordsLines (recordLines openLine depth c).2 depth cs).2)

end

mutual

/-- The records without their tabs. -/
def treeRecords (depth : ℕ) : SRANode → List Text
  | .node n children =>
      match recordShape fl n with
      | .nothing => []
      | .leaf kind payload => [record depth 'v' n.id.name, record (depth + 1) kind payload]
      | .container kind => record depth kind n.id.name :: treesRecords (depth + 1) children
      | .item =>
          match children with
          | [] => if s.allowEmptyElementsInArray then [record depth 'k' n.id.name] else []
          | child :: _ => record depth 'k' n.id.name :: treeRecords (depth + 1) child

def treesRecords (depth : ℕ) : List SRANode → List Text
  | [] => []
  | c :: cs => treeRecords depth c ++ treesRecords depth cs

end

end Records

/-! ## The text as lines -/

section Lines

variable (fl : FloatOps) {s : TextSettings}

theorem serializeNodes_eq {children : List SRANode}
    (h : ∀ c ∈ children, ∀ openLine depth, openLine ++ serializeNode fl s depth c =
      unlines (recordLines fl s openLine depth c).1 ++ (recordLines fl s openLine depth c).2)
    (openLine : Text) (depth : ℕ) :
    openLine ++ serializeNodes fl s depth children =
      unlines (recordsLines fl s openLine depth children).1 ++
        (recordsLines fl s openLine depth children).2 := by
  induction children generalizing openLine with
  | nil => simp [serializeNodes, recordsLines]
  | cons c cs ih =>
      have hc := h c List.mem_cons_self openLine depth
      have hcs := ih (fun d hd => h d (List.mem_cons_of_mem c hd))
        (recordLines fl s openLine depth c).2
      simp only [serializeNodes, recordsLines, unlines_append]
      rw [← List.append_assoc, hc, List.append_assoc, hcs, List.append_assoc]

/-- What `serializeNode` appends to an open line. -/
theorem serializeNode_eq (t : SRANode) (openLine : Text) (depth : ℕ) :
    openLine ++ serializeNode fl s depth t =
      unlines (recordLines fl s openLine depth t).1 ++ (recordLines fl s openLine depth t).2 := by
  induction t using Rose.induct generalizing openLine depth with
  | h n children ih =>
      have hchildren := serializeNodes_eq fl ih [] (depth + 1)
      rw [List.nil_append] at hchildren
      rw [serializeNode.eq_def, recordLines.eq_def]
      cases ht : n.type with
      | item =>
          cases children with
          | nil =>
              by_cases hallow : s.allowEmptyElementsInArray = true
              · simp [recordShape, record, ht, hallow]
              · simp [recordShape, ht, hallow]
          | cons c cs =>
              have hc := ih c List.mem_cons_self [] (depth + 1)
              rw [List.nil_append] at hc
              simp [recordShape, record, ht, hc]
      | root => simp [recordShape, record, ht, hchildren]
      | object => simp [recordShape, record, ht, hchildren]
      | array => simp [recordShape, record, ht, hchildren]
      | unknown => simp [recordShape, ht]
      | string => simp [recordShape, record, ht]
      | boolean => simp [recordShape, record, ht]
      | integer => simp [recordShape, record, ht]
      | floating => simp [recordShape, record, ht]

theorem documentText_eq (root : SRANode) :
    documentText fl s root = unlines (lit "sra format" :: (recordLines fl s [] 0 root).1) ++
      (recordLines fl s [] 0 root).2 := by
  have h := serializeNode_eq fl (s := s) root [] 0
  rw [List.nil_append] at h
  simp [documentText, h]

end Lines

end SRCommon
