import SRCommon.Serialization.Accessors

/-!
# What accessors load

`valueAt` is what loading makes of a destination when the walker stands on a
node, as a function of the node alone. `Balanced` says that below the node
every `Begin` of the accessor meets its `End`. Then loading gives `valueAt` and
brings the walker back.
-/

namespace SRCommon

open SRADeserializer

namespace SRADeserializer

/-! ## Where the walker stands -/

def OnNode (d : SRADeserializer) (n : SRANode) : Prop := d.root.at? d.walker = some n

theorem OnNode.walkNode {d : SRADeserializer} {n : SRANode} (h : OnNode d n) : d.walkNode = n :=
  getNode_of_some h

theorem OnNode.of_eq {d d' : SRADeserializer} {n : SRANode} (h : OnNode d n)
    (hwalker : d'.walker = d.walker) (hroot : d'.root = d.root) : OnNode d' n := by
  rw [OnNode, hwalker, hroot]
  exact h

theorem OnNode.length_lt {d : SRADeserializer} {n : SRANode} (h : OnNode d n) :
    n.children.length < d.root.count :=
  lt_of_lt_of_le n.length_children_lt_count (Rose.count_at?_le h)

theorem OnNode.pushWalker {d : SRADeserializer} {n c : SRANode} {i : ℕ} (h : OnNode d n)
    (hc : n.children[i]? = some c) : OnNode (d.pushWalker i) c := by
  rw [OnNode, SRADeserializer.pushWalker, Rose.at?_cons_of_some h, hc]

theorem findChild?_eq (id : SerializationId) (n : SRANode) :
    findChild? id n = (findIndex? id n).bind fun i => n.children[i]? :=
  List.find?_eq_bind_findIdx?_getElem? ..

/-- A search by id fails, or it finds the child that the walker can be moved to. -/
theorem OnNode.find_cases {d : SRADeserializer} {n : SRANode} (h : OnNode d n)
    (id : SerializationId) : (findIndex? id n = none ∧ findChild? id n = none) ∨
      ∃ i c, findIndex? id n = some i ∧ findChild? id n = some c ∧ OnNode (d.pushWalker i) c := by
  cases hi : findIndex? id n with
  | none =>
      left
      rw [findChild?_eq, hi]
      exact ⟨rfl, rfl⟩
  | some i =>
      right
      have hlt : i < n.children.length := (List.findIdx?_eq_some_iff_findIdx_eq.mp hi).1
      have hc : n.children[i]? = some n.children[i] := List.getElem?_eq_getElem hlt
      exact ⟨i, n.children[i], rfl, by rw [findChild?_eq, hi]; exact hc, h.pushWalker hc⟩

/-! ## The calls on a node -/

theorem beginItem_eq_none {d : SRADeserializer} {n : SRANode} (h : OnNode d n)
    {id : SerializationId} {i : ℕ} (hi : i < 2 ^ 32)
    (hnone : ∀ c ∈ n.children[i]?, ¬ HasHash id c) : d.beginItem id i = none := by
  rw [beginItem, h.walkNode, Nat.mod_eq_of_lt hi]
  cases hc : n.children[i]? with
  | none => rfl
  | some c => exact if_neg (hnone c hc)

theorem beginItem_eq_some {d : SRADeserializer} {n c : SRANode} (h : OnNode d n)
    {id : SerializationId} {i : ℕ} (hi : i < 2 ^ 32) (hc : n.children[i]? = some c)
    (hid : HasHash id c) : d.beginItem id i = some (d.pushWalker i) := by
  rw [beginItem, h.walkNode, Nat.mod_eq_of_lt hi, hc]
  exact if_pos hid

@[simp] theorem walker_report (d : SRADeserializer) (r : SRAReport) :
    (d.report r).walker = d.walker := rfl

@[simp] theorem root_report (d : SRADeserializer) (r : SRAReport) : (d.report r).root = d.root :=
  rfl

@[simp] theorem walker_popWalker (d : SRADeserializer) : d.popWalker.walker = d.walker.tail := rfl

@[simp] theorem root_popWalker (d : SRADeserializer) : d.popWalker.root = d.root := rfl

@[simp] theorem root_pushWalker (d : SRADeserializer) (i : ℕ) : (d.pushWalker i).root = d.root :=
  rfl

@[simp] theorem walker_pushWalker (d : SRADeserializer) (i : ℕ) :
    (d.pushWalker i).walker = i :: d.walker := rfl

theorem walker_endItem (d : SRADeserializer) : d.endItem.walker =
    if d.walkNode.label.type = .item then d.walker.tail else d.walker := by
  by_cases hempty : d.walker = []
  · simp [endItem, hempty]
  · by_cases htype : d.walkNode.label.type = .item
    · simp only [endItem, hempty, htype, ne_eq, not_true_eq_false, if_false, if_true]
      split
      · rfl
      · rfl
    · simp [endItem, hempty, htype]

theorem walker_endObject (d : SRADeserializer) : d.endObject.walker =
    if d.walkNode.label.type = .object then d.walker.tail else d.walker := by
  by_cases hempty : d.walker = []
  · simp [endObject, hempty]
  · by_cases htype : d.walkNode.label.type = .object
    · simp [endObject, hempty, htype]
    · simp [endObject, hempty, htype]

theorem walker_endArray (d : SRADeserializer) : d.endArray.walker = d.walker.tail := by
  unfold endArray
  split
  · rename_i hempty
    simp [hempty]
  · split
    · rfl
    · rfl

@[simp] theorem root_endItem (d : SRADeserializer) : d.endItem.root = d.root := by
  unfold endItem
  dsimp only
  split
  · rfl
  · split
    · rfl
    · split
      · rfl
      · rfl

@[simp] theorem root_endObject (d : SRADeserializer) : d.endObject.root = d.root := by
  unfold endObject
  split
  · rfl
  · split
    · rfl
    · rfl

@[simp] theorem root_endArray (d : SRADeserializer) : d.endArray.root = d.root := by
  unfold endArray
  split
  · rfl
  · split
    · rfl
    · rfl

/-- The walker moves down to the child that was found, or stays. -/
theorem beginArray_cases {d : SRADeserializer} {n : SRANode} (h : OnNode d n)
    (id : SerializationId) : (findChild? id n = none ∧ d.beginArray id = (0, d)) ∨
      ∃ i c, findChild? id n = some c ∧ OnNode (d.pushWalker i) c ∧
        d.beginArray id = (c.children.length, d.pushWalker i) := by
  rcases h.find_cases id with ⟨hi, hc⟩ | ⟨i, c, hi, hc, hon⟩
  · left
    exact ⟨hc, by rw [beginArray, h.walkNode, hi]⟩
  · right
    exact ⟨i, c, hc, hon, by rw [beginArray, h.walkNode, hi, hc]⟩

theorem beginObject_cases {d : SRADeserializer} {n : SRANode} (h : OnNode d n)
    (id : SerializationId) : (findChild? id n = none ∧ d.beginObject id = none) ∨
      ∃ i c, findChild? id n = some c ∧ OnNode (d.pushWalker i) c ∧
        d.beginObject id = some (d.pushWalker i) := by
  rcases h.find_cases id with ⟨hi, hc⟩ | ⟨i, c, hi, hc, hon⟩
  · left
    exact ⟨hc, by rw [beginObject, h.walkNode, hi]; rfl⟩
  · right
    exact ⟨i, c, hc, hon, by rw [beginObject, h.walkNode, hi]; rfl⟩

/-- `m_root` is only read. -/
theorem root_beginArray (d : SRADeserializer) (id : SerializationId) :
    (d.beginArray id).2.root = d.root := by
  unfold beginArray
  split
  · rfl
  · rfl

theorem root_beginItem {d d' : SRADeserializer} {id : SerializationId} {i : ℕ}
    (h : d.beginItem id i = some d') : d'.root = d.root := by
  unfold beginItem at h
  split at h
  · cases h
  · split at h
    · cases h
      rfl
    · cases h

theorem root_beginObject {d d' : SRADeserializer} {id : SerializationId}
    (h : d.beginObject id = some d') : d'.root = d.root := by
  obtain ⟨i, -, rfl⟩ := Option.map_eq_some_iff.mp h
  rfl

end SRADeserializer

namespace Accessor

/-! ## Values and balance -/

section

variable (fl : FloatOps)

/-- The items that the loop of a vector visits. -/
def vectorItems (n : SRANode) : List SRANode :=
  n.children.takeWhile fun item => HasHash vectorItemId item

def valueAt : {kind : AccessorKind} → {α : Type} → Accessor kind α → α → SerializationId →
    SRANode → α
  | _, _, boolean, value, id, n => readChild .boolean (·.data.asBoolean) value id n
  | _, _, integer k, value, id, n =>
      readChild .integer (fun n => n.data.asInteger.toBitVec.setWidth k.width) value id n
  | _, _, float, value, id, n =>
      readChild .floating (fun n => fl.narrow n.data.asFloating) value id n
  | _, _, double, value, id, n => readChild .floating (·.data.asFloating) value id n
  | _, _, string, value, id, n => readChild .string (·.string) value id n
  | _, _, vector a, value, id, n =>
      match findChild? id n with
      | none => value
      | some c => (vectorItems c).map fun item => a.valueAt a.dflt vectorDataId item
  | _, _, array _ _ _, value, _, _ => value
  | _, _, map _ _, _, _, _ => []
  | _, _, set _ _, _, _, _ => []
  | _, _, object _ body, value, id, n =>
      match findChild? id n with
      | none => value
      | some c => body.valueAt value id c
  | _, _, nothing, value, _, _ => value
  | _, _, member id a, value, _, n => a.valueAt value id n
  | _, _, checked id _ a, value, _, n => a.valueAt value id n
  | _, _, seq a b, value, id, n => (a.valueAt value.1 id n, b.valueAt value.2 id n)

/-- A vector finds no empty array and visits items only, an object finds an
object, and an array, a map or a set is found unless there is nothing to pop. -/
def Balanced : {kind : AccessorKind} → {α : Type} → Accessor kind α → SRANode → Prop →
    SerializationId → Prop
  | _, _, boolean, _, _, _ => True
  | _, _, integer _, _, _, _ => True
  | _, _, float, _, _, _ => True
  | _, _, double, _, _, _ => True
  | _, _, string, _, _, _ => True
  | _, _, vector a, n, _, id => ∀ c, findChild? id n = some c → c.children ≠ [] ∧
      ∀ item ∈ vectorItems c, item.label.type = .item ∧ a.Balanced item False vectorDataId
  | _, _, array _ _ _, n, atRoot, id => atRoot ∨ findChild? id n ≠ none
  | _, _, map _ _, n, atRoot, id => atRoot ∨ findChild? id n ≠ none
  | _, _, set _ _, n, atRoot, id => atRoot ∨ findChild? id n ≠ none
  | _, _, object _ body, n, _, id =>
      ∀ c, findChild? id n = some c → c.label.type = .object ∧ body.Balanced c False id
  | _, _, nothing, _, _, _ => True
  | _, _, member id a, n, atRoot, _ => a.Balanced n atRoot id
  | _, _, checked id _ a, n, atRoot, _ => a.Balanced n atRoot id
  | _, _, seq a b, n, atRoot, id => a.Balanced n atRoot id ∧ b.Balanced n atRoot id

end

/-! ## Loading below a balanced node -/

section

variable {fl : FloatOps}

/-- The outcome of a call that gives `value` and brings the walker back. -/
def Returns {α : Type} (result : Option (α × SRADeserializer)) (value : α) (d : SRADeserializer) :
    Prop :=
  ∃ d', result = some (value, d') ∧ d'.walker = d.walker ∧ d'.root = d.root

theorem drop_eq_cons {c item : SRANode} {index : ℕ} (h : c.children[index]? = some item) :
    c.children.drop index = item :: c.children.drop (index + 1) := by
  obtain ⟨hlt, rfl⟩ := List.getElem?_eq_some_iff.mp h
  exact List.drop_eq_getElem_cons hlt

/-- Induction on the fuel, which exceeds the number of children not visited yet. -/
theorem returns_loadItems {α : Type} {c : SRANode}
    (loadItem : α → SRADeserializer → Option (α × SRADeserializer)) (init : α) {f : SRANode → α}
    (fuel : ℕ) {index : ℕ} (value : List α) {d : SRADeserializer} (hc : OnNode d c)
    (hcount : d.root.count < 2 ^ 32) (hindex : index ≤ c.children.length)
    (hfuel : c.children.length < fuel + index)
    (h : ∀ item ∈ (c.children.drop index).takeWhile fun item => HasHash vectorItemId item,
      item.label.type = .item ∧ ∀ d' : SRADeserializer, OnNode d' item → d'.walker ≠ [] →
        d'.root.count < 2 ^ 32 → Returns (loadItem init d') (f item) d') :
    Returns (loadItems loadItem init fuel index value d)
      (value ++ ((c.children.drop index).takeWhile fun item => HasHash vectorItemId item).map f)
      d := by
  induction fuel generalizing index value d with
  | zero => omega
  | succ fuel ih =>
      have hlen := hc.length_lt
      have hindex32 : index < 2 ^ 32 := by omega
      cases hitem : c.children[index]? with
      | none =>
          have hbegin : d.beginItem vectorItemId index = none :=
            beginItem_eq_none hc hindex32 (by simp [hitem])
          have hdrop : c.children.drop index = [] :=
            List.drop_eq_nil_of_le (List.getElem?_eq_none_iff.mp hitem)
          exact ⟨d, by simp [loadItems, hbegin, hdrop], rfl, rfl⟩
      | some item =>
          have hdrop := drop_eq_cons hitem
          by_cases hid : HasHash vectorItemId item
          · have hbegin := beginItem_eq_some hc hindex32 hitem hid
            rw [hdrop, List.takeWhile_cons_of_pos (by simpa using hid)] at h ⊢
            obtain ⟨htype, hreturns⟩ := h item List.mem_cons_self
            obtain ⟨d₁, hload, hwalker, hroot⟩ :=
              hreturns (d.pushWalker index) (hc.pushWalker hitem) (by simp) hcount
            have hend : d₁.endItem.walker = d.walker := by
              have hon : OnNode d₁ item := (hc.pushWalker hitem).of_eq hwalker hroot
              rw [walker_endItem, hon.walkNode, if_pos htype, hwalker]
              rfl
            have hendRoot : d₁.endItem.root = d.root := by simp [hroot]
            obtain ⟨hlt, -⟩ := List.getElem?_eq_some_iff.mp hitem
            obtain ⟨d₂, hrest, hwalker₂, hroot₂⟩ := @ih (index + 1)
              (value ++ [f item]) d₁.endItem (hc.of_eq hend hendRoot) (by rwa [hendRoot]) (by omega)
              (by omega) fun item hmem => h item (List.mem_cons_of_mem _ hmem)
            refine ⟨d₂, ?_, hwalker₂.trans hend, hroot₂.trans hendRoot⟩
            simp [loadItems, hbegin, hload, hrest]
          · have hbegin : d.beginItem vectorItemId index = none := beginItem_eq_none hc hindex32
              (by simpa [hitem] using hid)
            rw [hdrop, List.takeWhile_cons_of_neg (by simpa using hid)]
            exact ⟨d, by simp [loadItems, hbegin], rfl, rfl⟩

/-- `BeginArray` and `EndArray` cancel if the array is found or the parent has nothing to pop. -/
theorem walker_endArray_beginArray {d : SRADeserializer} {n : SRANode} (h : OnNode d n)
    {id : SerializationId} (hfound : d.walker = [] ∨ findChild? id n ≠ none) :
    (d.beginArray id).2.endArray.walker = d.walker := by
  rw [walker_endArray]
  rcases beginArray_cases h id with ⟨hnone, hbegin⟩ | ⟨i, c, -, -, hbegin⟩
  · rw [hbegin]
    rcases hfound with hempty | hfound
    · simp [hempty]
    · exact absurd hnone hfound
  · rw [hbegin]
    rfl

variable (fl) in
/-- One case for each accessor. Below an object or a vector the walker is not
empty, so there only a found array can be balanced. -/
theorem returns_load {kind : AccessorKind} {α : Type} (a : Accessor kind α) (value : α)
    (id : SerializationId) {d : SRADeserializer} {n : SRANode} {atRoot : Prop} (h : OnNode d n)
    (hcount : d.root.count < 2 ^ 32) (hroot : atRoot → d.walker = [])
    (hbalanced : a.Balanced n atRoot id) :
    Returns (a.load fl value id d) (a.valueAt fl value id n) d := by
  induction a generalizing id d n atRoot with
  | boolean => exact ⟨d, by simp [load, valueAt, readBool, readValue, h.walkNode], rfl, rfl⟩
  | integer k => exact ⟨d, by simp [load, valueAt, readIntegerImpl, readValue, h.walkNode], rfl, rfl⟩
  | float => exact ⟨d, by simp [load, valueAt, readFloat, readValue, h.walkNode], rfl, rfl⟩
  | double => exact ⟨d, by simp [load, valueAt, readDouble, readValue, h.walkNode], rfl, rfl⟩
  | string => exact ⟨d, by simp [load, valueAt, readString, readValue, h.walkNode], rfl, rfl⟩
  | vector a ih =>
      rcases beginArray_cases h id with ⟨hnone, hbegin⟩ | ⟨i, c, hc, hon, hbegin⟩
      · exact ⟨d, by simp [load, valueAt, hbegin, hnone], rfl, rfl⟩
      · obtain ⟨hne, hitems⟩ := hbalanced c hc
        have hlen := hon.length_lt
        obtain ⟨d₁, hload, hwalker, hroot₁⟩ := returns_loadItems
          (fun item d => a.load fl item vectorDataId d) a.dflt (d.root.count + 1) [] hon hcount
          (Nat.zero_le _) (by rw [root_pushWalker] at hlen; omega)
          fun item hmem => ⟨(hitems item hmem).1, fun d' hon' hne' hcount' =>
            ih a.dflt vectorDataId hon' hcount' False.elim (hitems item hmem).2⟩
        refine ⟨d₁.endArray, ?_, ?_, by simpa using hroot₁⟩
        · have hsize : c.children.length ≠ 0 := by simpa using hne
          simp only [load, hbegin, if_neg hsize, root_pushWalker, hload, valueAt, hc]
          rfl
        · rw [walker_endArray, hwalker]
          rfl
  | array n' isDefault a ih =>
      refine ⟨_, rfl, walker_endArray_beginArray h (hbalanced.imp_left hroot), ?_⟩
      rw [root_endArray, root_beginArray]
  | map key mapped ihk ihm =>
      refine ⟨_, rfl, walker_endArray_beginArray h (hbalanced.imp_left hroot), ?_⟩
      rw [root_endArray, root_beginArray]
  | set second a ih =>
      refine ⟨_, rfl, walker_endArray_beginArray h (hbalanced.imp_left hroot), ?_⟩
      rw [root_endArray, root_beginArray]
  | object init body ih =>
      rcases beginObject_cases h id with ⟨hnone, hbegin⟩ | ⟨i, c, hc, hon, hbegin⟩
      · exact ⟨d, by simp [load, valueAt, hbegin, hnone], rfl, rfl⟩
      · obtain ⟨htype, hbody⟩ := hbalanced c hc
        obtain ⟨d₁, hload, hwalker, hroot₁⟩ := ih value id hon hcount False.elim hbody
        refine ⟨d₁.endObject, ?_, ?_, by simpa using hroot₁⟩
        · simp only [load, hbegin, hload, valueAt, hc]
          rfl
        · rw [walker_endObject, (hon.of_eq hwalker hroot₁).walkNode, if_pos htype, hwalker]
          rfl
  | nothing => exact ⟨d, rfl, rfl, rfl⟩
  | member id' a ih => exact ih value id' h hcount hroot hbalanced
  | checked id' isDefault a ih => exact ih value id' h hcount hroot hbalanced
  | seq a b iha ihb =>
      obtain ⟨d₁, hload₁, hwalker₁, hroot₁⟩ := iha value.1 id h hcount hroot hbalanced.1
      obtain ⟨d₂, hload₂, hwalker₂, hroot₂⟩ := ihb value.2 id (h.of_eq hwalker₁ hroot₁)
        (by rwa [hroot₁]) (fun hr => by rw [hwalker₁, hroot hr]) hbalanced.2
      refine ⟨d₂, ?_, hwalker₂.trans hwalker₁, hroot₂.trans hroot₁⟩
      simp [load, hload₁, hload₂, valueAt]

end

end Accessor

end SRCommon
