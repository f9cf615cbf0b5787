import SRCommon.Serialization.Accessors
import SRCommon.Serialization.LoadedValue
import SRCommon.Serialization.SavedFile

/-!
# Reading what was saved

For accessors built from leaves, vectors and objects with different member ids
the nodes of a value are found again by their ids. Reading them gives the
value back up to the members that were left out, and `Begin` and `End` are
balanced exactly if no vector in the value is empty.
-/

namespace SRCommon

/-!
## What accessors save

Saving appends one node for a value and any number for a body, whatever stands
in the tree already. `nodes` are these nodes.
-/

namespace Accessor

open SRASerializer

section

variable (fl : FloatOps) (writeDefaults : Bool)

def nodes : {kind : AccessorKind} → {α : Type} → Accessor kind α → α → SerializationId →
    List SRANode
  | _, _, boolean, value, id => [.node { id := id, type := .boolean, data := .boolean value } []]
  | _, _, integer k, value, id =>
      [.node { id := id, type := .integer, data := .integer (k.toInt64 value) } []]
  | _, _, float, value, id =>
      [.node { id := id, type := .floating, data := .floating (fl.widen value) } []]
  | _, _, double, value, id =>
      [.node { id := id, type := .floating, data := .floating value } []]
  | _, _, string, value, id => [.node { id := id, type := .string, string := value } []]
  | _, _, vector a, value, id =>
      [.node { id := id, type := .array } (value.flatMap fun item =>
        [.node { id := vectorItemId, type := .item } (a.nodes item vectorDataId)])]
  | _, _, array _ isDefault a, value, id =>
      [.node { id := id, type := .array } (value.toList.flatMap fun item =>
        if writeDefaults || !isDefault item then
          [.node { id := itemId, type := .item } (a.nodes item dataId)]
        else [])]
  | _, _, map key mapped, value, id =>
      [.node { id := id, type := .array } (value.flatMap fun item =>
        [.node { id := itemId, type := .object }
          (key.nodes item.1 (.create "first") ++ mapped.nodes item.2 (.create "second"))])]
  | _, _, set second a, value, id =>
      [.node { id := id, type := .array } (value.flatMap fun item =>
        a.nodes (second item) itemId)]
  | _, _, object _ body, value, id =>
      [.node { id := id, type := .object } (body.nodes value id)]
  | _, _, nothing, _, _ => []
  | _, _, member id a, value, _ => a.nodes value id
  | _, _, checked id isDefault a, value, _ =>
      if !writeDefaults && isDefault value then [] else a.nodes value id
  | _, _, seq a b, value, id => a.nodes value.1 id ++ b.nodes value.2 id

end

section

variable {fl : FloatOps} {writeDefaults : Bool}

/-- A loop that appends the nodes of every item appends the nodes of all of them. -/
theorem foldl_appendNodes {α : Type*} {step : SRASerializer → α → SRASerializer}
    {itemNodes : α → List SRANode}
    (hstep : ∀ s item, s.Valid → s.isNeedWriteDefaults = writeDefaults →
      step s item = s.appendNodes (itemNodes item))
    (items : List α) {s : SRASerializer} (hs : s.Valid)
    (hdefaults : s.isNeedWriteDefaults = writeDefaults) :
    items.foldl step s = s.appendNodes (items.flatMap itemNodes) := by
  induction items generalizing s with
  | nil => exact (appendNodes_nil hs).symm
  | cons item items ih =>
      rw [List.foldl_cons, hstep s item hs hdefaults, ih (hs.appendNodes _) hdefaults,
        appendNodes_appendNodes, List.flatMap_cons]

/-- Between `Begin` and `End` the nodes go under the new one. -/
theorem endNode_eq {s s' : SRASerializer} (hs : s.Valid) {fields : SRANodeFields}
    {children : List SRANode} (h : s' = (s.beginNode (.node fields [])).appendNodes children) :
    s'.endNode = s.appendNodes [.node fields children] := by
  rw [h, endNode_appendNodes_beginNode hs]

theorem save_eq {kind : AccessorKind} {α : Type} (a : Accessor kind α) (value : α)
    (id : SerializationId) {s : SRASerializer} (hs : s.Valid)
    (hdefaults : s.isNeedWriteDefaults = writeDefaults) :
    a.save fl value id s = s.appendNodes (a.nodes fl writeDefaults value id) := by
  induction a generalizing id s with
  | boolean | integer | float | double | string => exact appendNode_eq hs _
  | vector a ih =>
      refine endNode_eq hs (foldl_appendNodes (fun s item hs hdefaults => ?_) value
        (hs.beginNode _) hdefaults)
      exact endNode_eq hs (ih item vectorDataId (hs.beginNode _) hdefaults)
  | array n isDefault a ih =>
      refine endNode_eq hs (foldl_appendNodes (fun s item hs hdefaults => ?_) value.toList
        (hs.beginNode _) hdefaults)
      rw [hdefaults]
      split
      · exact endNode_eq hs (ih item dataId (hs.beginNode _) hdefaults)
      · exact (appendNodes_nil hs).symm
  | map key mapped ihk ihm =>
      refine endNode_eq hs (foldl_appendNodes (fun s item hs hdefaults => ?_) value
        (hs.beginNode _) hdefaults)
      refine endNode_eq hs ?_
      have hkey := ihk item.1 (.create "first") (hs.beginNode (sraNode itemId .object)) hdefaults
      rw [beginObject, hkey, ihm item.2 (.create "second") ((hs.beginNode _).appendNodes _) hdefaults,
        appendNodes_appendNodes]
      rfl
  | set second a ih =>
      refine endNode_eq hs (foldl_appendNodes (fun s item hs hdefaults => ?_) value
        (hs.beginNode _) hdefaults)
      exact ih (second item) itemId hs hdefaults
  | object init body ih => exact endNode_eq hs (ih value id (hs.beginNode _) hdefaults)
  | nothing => exact (appendNodes_nil hs).symm
  | member id' a ih => exact ih value id' hs hdefaults
  | checked id' isDefault a ih =>
      simp only [save, nodes, hdefaults]
      split
      · exact (appendNodes_nil hs).symm
      · exact ih value id' hs hdefaults
  | seq a b iha ihb =>
      rw [save, iha value.1 id hs hdefaults, ihb value.2 id (hs.appendNodes _) hdefaults,
        appendNodes_appendNodes, nodes]

end

end Accessor

open Text SRADeserializer

/-- Ids that files keep. -/
def GoodId (id : SerializationId) : Prop := id.Proper ∧ ch '\n' ∉ id.name

theorem goodId_create {name : String} (hlen : (lit name).length < SerializationId.maxNameLength)
    (hzero : 0 ∉ lit name) (hline : ch '\n' ∉ (SerializationId.create name).name) :
    GoodId (.create name) := ⟨⟨lit name, hlen, hzero, rfl⟩, hline⟩

namespace Accessor

/-! ## Ids and nodes -/

/-- The ids that an accessor or a body looks for. -/
def lookupIds : {kind : AccessorKind} → {α : Type} → Accessor kind α → SerializationId →
    List SerializationId
  | .value, _, _, id => [id]
  | _, _, nothing, _ => []
  | _, _, member id _, _ => [id]
  | _, _, checked id _ _, _ => [id]
  | _, _, seq a b, id => a.lookupIds id ++ b.lookupIds id

theorem lookupIds_value {α : Type} (a : Accessor .value α) (id : SerializationId) :
    a.lookupIds id = [id] := by
  cases a <;> rfl

def DifferentHashes (ids : List SerializationId) : Prop := (ids.map (·.hash)).Nodup

/-- Leaves, vectors, and objects like pairs and math vectors of integers. -/
inductive Plain : {kind : AccessorKind} → {α : Type} → Accessor kind α → Prop
  | boolean : Plain boolean
  | integer (k : IntKind) : Plain (integer k)
  | string : Plain string
  | vector {α : Type} {a : Accessor .value α} (ha : Plain a) : Plain (vector a)
  | object {α : Type} {body : Accessor .body α} (hbody : Plain body)
      (hids : ∀ id, DifferentHashes (body.lookupIds id)) : Plain (object body.dflt body)
  | nothing : Plain nothing
  | member {α : Type} {id : SerializationId} {a : Accessor .value α} (hid : GoodId id)
      (ha : Plain a) : Plain (member id a)
  | checked {id : SerializationId} (hid : GoodId id) (k : IntKind) :
      Plain (checked id isDefaultInteger (.integer k))
  | seq {α β : Type} {a : Accessor .body α} {b : Accessor .body β} (ha : Plain a) (hb : Plain b) :
      Plain (seq a b)

theorem Plain.pair {α β : Type} {a : Accessor .value α} {b : Accessor .value β} (ha : Plain a)
    (hb : Plain b) : Plain (pair a b) := by
  have hfirst : GoodId (.create "first") := goodId_create (by decide) (by decide) (by decide)
  have hsecond : GoodId (.create "second") := goodId_create (by decide) (by decide) (by decide)
  have hbody : Plain (Accessor.seq (Accessor.member (.create "first") a)
      (Accessor.member (.create "second") b)) := .seq (.member hfirst ha) (.member hsecond hb)
  apply Plain.object hbody
  intro id
  change DifferentHashes [.create "first", .create "second"]
  unfold DifferentHashes
  decide

theorem goodId_x : GoodId (.create "x") := goodId_create (by decide) (by decide) (by decide)
theorem goodId_y : GoodId (.create "y") := goodId_create (by decide) (by decide) (by decide)
theorem goodId_z : GoodId (.create "z") := goodId_create (by decide) (by decide) (by decide)
theorem goodId_w : GoodId (.create "w") := goodId_create (by decide) (by decide) (by decide)

theorem Plain.vector2 (k : IntKind) : Plain (vector2 isDefaultInteger (.integer k)) := by
  apply Plain.object (.seq (.checked goodId_x k) (.checked goodId_y k))
  intro id
  change DifferentHashes [.create "x", .create "y"]
  unfold DifferentHashes
  decide

theorem Plain.vector3 (k : IntKind) : Plain (vector3 isDefaultInteger (.integer k)) := by
  apply Plain.object
    (.seq (.checked goodId_x k) (.seq (.checked goodId_y k) (.checked goodId_z k)))
  intro id
  change DifferentHashes [.create "x", .create "y", .create "z"]
  unfold DifferentHashes
  decide

theorem Plain.vector4 (k : IntKind) : Plain (vector4 isDefaultInteger (.integer k)) := by
  apply Plain.object (.seq (.checked goodId_x k)
    (.seq (.checked goodId_y k) (.seq (.checked goodId_z k) (.checked goodId_w k))))
  intro id
  change DifferentHashes [.create "x", .create "y", .create "z", .create "w"]
  unfold DifferentHashes
  decide

/-! ## Conditions on values -/

def OneLineStrings : {kind : AccessorKind} → {α : Type} → Accessor kind α → α → Prop
  | _, _, boolean, _ => True
  | _, _, integer _, _ => True
  | _, _, float, _ => True
  | _, _, double, _ => True
  | _, _, string, value => ch '\n' ∉ value
  | _, _, vector a, value => ∀ item ∈ value, a.OneLineStrings item
  | _, _, array _ _ a, value => ∀ item ∈ value.toList, a.OneLineStrings item
  | _, _, map key mapped, value =>
      ∀ item ∈ value, key.OneLineStrings item.1 ∧ mapped.OneLineStrings item.2
  | _, _, set second a, value => ∀ item ∈ value, a.OneLineStrings (second item)
  | _, _, object _ body, value => body.OneLineStrings value
  | _, _, nothing, _ => True
  | _, _, member _ a, value => a.OneLineStrings value
  | _, _, checked _ _ a, value => a.OneLineStrings value
  | _, _, seq a b, value => a.OneLineStrings value.1 ∧ b.OneLineStrings value.2

/-- No vector in the value is empty. -/
def NoEmpty : {kind : AccessorKind} → {α : Type} → Accessor kind α → α → Prop
  | _, _, boolean, _ => True
  | _, _, integer _, _ => True
  | _, _, float, _ => True
  | _, _, double, _ => True
  | _, _, string, _ => True
  | _, _, vector a, value => value ≠ [] ∧ ∀ item ∈ value, a.NoEmpty item
  | _, _, array _ _ _, _ => True
  | _, _, map _ _, _ => True
  | _, _, set _ _, _ => True
  | _, _, object _ body, value => body.NoEmpty value
  | _, _, nothing, _ => True
  | _, _, member _ a, value => a.NoEmpty value
  | _, _, checked _ _ a, value => a.NoEmpty value
  | _, _, seq a b, value => a.NoEmpty value.1 ∧ b.NoEmpty value.2

/-- What is left out of the value because it is the default is the default in
the destination too. -/
def StaleFree : {kind : AccessorKind} → {α : Type} → Accessor kind α → α → α → Prop
  | _, _, boolean, _, _ => True
  | _, _, integer _, _, _ => True
  | _, _, float, _, _ => True
  | _, _, double, _, _ => True
  | _, _, string, _, _ => True
  | _, _, vector _, _, _ => True
  | _, _, array _ _ _, _, _ => True
  | _, _, map _ _, _, _ => True
  | _, _, set _ _, _, _ => True
  | _, _, object _ body, value, dest => body.StaleFree value dest
  | _, _, nothing, _, _ => True
  | _, _, member _ a, value, dest => a.StaleFree value dest
  | _, _, checked _ isDefault a, value, dest =>
      if isDefault value then isDefault dest = true else a.StaleFree value dest
  | _, _, seq a b, value, dest => a.StaleFree value.1 dest.1 ∧ b.StaleFree value.2 dest.2

theorem Plain.staleFree_dflt {kind : AccessorKind} {α : Type} {a : Accessor kind α} (ha : a.Plain)
    (value : α) : a.StaleFree value a.dflt := by
  induction ha with
  | boolean | integer | string | vector | nothing => trivial
  | object hbody hids ih => exact ih value
  | member hid ha ih => exact ih value
  | checked hid k =>
      unfold StaleFree
      split
      · exact decide_eq_true rfl
      · trivial
  | seq ha hb iha ihb => exact ⟨iha value.1, ihb value.2⟩

section

variable {fl : FloatOps}

variable (fl) in
theorem exists_nodes_eq {α : Type} (a : Accessor .value α) (writeDefaults : Bool) (value : α)
    (id : SerializationId) :
    ∃ m, a.nodes fl writeDefaults value id = [m] ∧ m.label.id = id := by
  cases a <;> exact ⟨_, rfl, rfl⟩

theorem id_mem_lookupIds {kind : AccessorKind} {α : Type} {a : Accessor kind α}
    {writeDefaults : Bool} {value : α} {id : SerializationId} {m : SRANode}
    (hm : m ∈ a.nodes fl writeDefaults value id) : m.label.id ∈ a.lookupIds id := by
  have hvalue : ∀ {β : Type} (b : Accessor .value β) (v : β) (i : SerializationId),
      m ∈ b.nodes fl writeDefaults v i → m.label.id ∈ [i] := by
    intro β b v i hm
    obtain ⟨m', hnodes, hid⟩ := exists_nodes_eq fl b writeDefaults v i
    rw [hnodes, List.mem_singleton] at hm
    rw [hm, hid]
    exact List.mem_singleton_self i
  induction a with
  | boolean => exact hvalue boolean value id hm
  | integer k => exact hvalue (integer k) value id hm
  | float => exact hvalue float value id hm
  | double => exact hvalue double value id hm
  | string => exact hvalue string value id hm
  | vector a => exact hvalue (vector a) value id hm
  | array n isDefault a => exact hvalue (array n isDefault a) value id hm
  | map key mapped => exact hvalue (map key mapped) value id hm
  | set second a => exact hvalue (set second a) value id hm
  | object init body => exact hvalue (object init body) value id hm
  | nothing => cases hm
  | member id' a => exact hvalue a value id' hm
  | checked id' isDefault a =>
      rw [nodes] at hm
      split at hm
      · cases hm
      · exact hvalue a value id' hm
  | seq a b iha ihb =>
      rw [lookupIds, List.mem_append]
      exact (List.mem_append.mp hm).imp iha ihb

/-! ## The tree of the nodes -/

def savedShape : NodeShape where
  id := GoodId
  string := fun value => ch '\n' ∉ value
  floating := fun _ => False
  itemSize := fun n => n = 1

theorem Plain.goodId_of_mem {α : Type} {body : Accessor .body α} (hbody : body.Plain)
    {id i : SerializationId} (hi : i ∈ body.lookupIds id) : GoodId i := by
  have hall : ∀ {kind : AccessorKind} {α : Type} {a : Accessor kind α}, a.Plain →
      kind = .body → ∀ i ∈ a.lookupIds id, GoodId i := by
    intro kind α a ha
    induction ha with
    | boolean | integer | string | vector | object => intro hkind; cases hkind
    | nothing => simp [lookupIds]
    | member hid ha ih => simpa [lookupIds] using hid
    | checked hid k => simpa [lookupIds] using hid
    | seq ha hb iha ihb =>
        intro hkind i hi
        exact (List.mem_append.mp hi).elim (iha rfl i) (ihb rfl i)
  exact hall hbody rfl i hi

theorem Plain.built_nodes {kind : AccessorKind} {α : Type} {a : Accessor kind α} (ha : a.Plain)
    {value : α} (hvalue : a.OneLineStrings value) {id : SerializationId}
    (hids : ∀ i ∈ a.lookupIds id, GoodId i) {m : SRANode}
    (hm : m ∈ a.nodes fl false value id) : Built savedShape m := by
  induction ha generalizing id m with
  | boolean =>
      obtain rfl := List.mem_singleton.mp hm
      exact .boolean id (hids id (List.mem_singleton_self id)) value
  | integer k =>
      obtain rfl := List.mem_singleton.mp hm
      exact .integer id (hids id (List.mem_singleton_self id)) _
  | string =>
      obtain rfl := List.mem_singleton.mp hm
      exact .string id (hids id (List.mem_singleton_self id)) value hvalue
  | @vector α a ha ih =>
      have hitemId : GoodId vectorItemId := goodId_create (by decide) (by decide) (by decide)
      have hdataId : GoodId vectorDataId := goodId_create (by decide) (by decide) (by decide)
      obtain rfl := List.mem_singleton.mp hm
      refine .array id (hids id (List.mem_singleton_self id)) _ ?_
      intro c hc
      obtain ⟨item, hitem, hc⟩ := List.mem_flatMap.mp hc
      obtain rfl := List.mem_singleton.mp hc
      refine .item vectorItemId hitemId _ ?_ ?_
      · obtain ⟨m', hnodes, -⟩ := exists_nodes_eq fl a false item vectorDataId
        rw [hnodes]
        rfl
      · intro c hc
        refine ih (hvalue item hitem) ?_ hc
        simpa [lookupIds_value] using hdataId
  | object hbody hbodyIds ih =>
      obtain rfl := List.mem_singleton.mp hm
      refine .object id (hids id (List.mem_singleton_self id)) _ ?_
      intro c hc
      exact ih hvalue (fun i hi => hbody.goodId_of_mem hi) hc
  | nothing => cases hm
  | @member α id' a hid ha ih =>
      refine ih hvalue ?_ hm
      simpa [lookupIds_value] using hid
  | @checked id' hid k =>
      rw [nodes] at hm
      split at hm
      · cases hm
      · obtain rfl := List.mem_singleton.mp hm
        exact .integer id' hid _
  | seq ha hb iha ihb =>
      rcases List.mem_append.mp hm with hm | hm
      · exact iha hvalue.1 (fun i hi => hids i (List.mem_append_left _ hi)) hm
      · exact ihb hvalue.2 (fun i hi => hids i (List.mem_append_right _ hi)) hm

/-! ## Finding the nodes again -/

/-- Searching the node for these ids is searching the list. -/
def Sees (n : SRANode) (ms : List SRANode) (ids : List SerializationId) : Prop :=
  ∀ i ∈ ids, findChild? i n = ms.find? fun m => HasHash i m

theorem sees_node (fields : SRANodeFields) (ms : List SRANode) (ids : List SerializationId) :
    Sees (.node fields ms) ms ids := fun _ _ => rfl

theorem DifferentHashes.ne {ids js : List SerializationId} (h : DifferentHashes (ids ++ js))
    {i j : SerializationId} (hi : i ∈ ids) (hj : j ∈ js) : i.hash ≠ j.hash := by
  unfold DifferentHashes at h
  rw [List.map_append] at h
  exact (List.nodup_append.mp h).2.2 _ (List.mem_map_of_mem hi) _ (List.mem_map_of_mem hj)

theorem DifferentHashes.left {ids js : List SerializationId} (h : DifferentHashes (ids ++ js)) :
    DifferentHashes ids := by
  unfold DifferentHashes at h ⊢
  rw [List.map_append] at h
  exact (List.nodup_append.mp h).1

theorem DifferentHashes.right {ids js : List SerializationId} (h : DifferentHashes (ids ++ js)) :
    DifferentHashes js := by
  unfold DifferentHashes at h ⊢
  rw [List.map_append] at h
  exact (List.nodup_append.mp h).2.1

theorem differentHashes_singleton (id : SerializationId) : DifferentHashes [id] :=
  List.nodup_singleton _

theorem find?_eq_none_of_ids {ms : List SRANode} {js : List SerializationId}
    (hms : ∀ m ∈ ms, m.label.id ∈ js) {i : SerializationId} (hi : ∀ j ∈ js, i.hash ≠ j.hash) :
    ms.find? (fun m => HasHash i m) = none := by
  rw [List.find?_eq_none]
  intro m hm hhash
  exact hi _ (hms m hm) (of_decide_eq_true hhash).symm

/-- The nodes of the second body do not hide those of the first, nor the other way round. -/
theorem Sees.append {n : SRANode} {ms ns : List SRANode} {ids js : List SerializationId}
    (h : Sees n (ms ++ ns) (ids ++ js)) (hhashes : DifferentHashes (ids ++ js))
    (hms : ∀ m ∈ ms, m.label.id ∈ ids) (hns : ∀ m ∈ ns, m.label.id ∈ js) :
    Sees n ms ids ∧ Sees n ns js := by
  constructor
  · intro i hi
    have hnone := find?_eq_none_of_ids hns fun j hj => hhashes.ne hi hj
    rw [h i (List.mem_append_left _ hi), List.find?_append, hnone, Option.or_none]
  · intro j hj
    have hnone := find?_eq_none_of_ids hms fun i hi => (hhashes.ne hi hj).symm
    rw [h j (List.mem_append_right _ hj), List.find?_append, hnone, Option.none_or]

theorem Sees.findChild? {α : Type} {a : Accessor .value α} {value : α} {id : SerializationId}
    {n m : SRANode} (h : Sees n (a.nodes fl false value id) (a.lookupIds id))
    (hnodes : a.nodes fl false value id = [m]) (hid : m.label.id = id) :
    findChild? id n = some m := by
  have hmem : id ∈ a.lookupIds id := by simp [lookupIds_value]
  have hhash : HasHash id m := by rw [HasHash, hid]
  simpa [hnodes, hhash] using h id hmem

/-- The loop of a vector visits all nodes that were saved for its items. -/
theorem vectorItems_nodes {α : Type} (a : Accessor .value α) (value : List α)
    (fields : SRANodeFields) :
    vectorItems (.node fields (value.flatMap fun item =>
      [.node { id := vectorItemId, type := .item } (a.nodes fl false item vectorDataId)])) =
    value.map fun item =>
      .node { id := vectorItemId, type := .item } (a.nodes fl false item vectorDataId) := by
  rw [vectorItems, Rose.children_node, ← List.map_eq_flatMap, List.takeWhile_eq_self_iff]
  intro m hm
  obtain ⟨item, -, rfl⟩ := List.mem_map.mp hm
  exact decide_eq_true rfl

theorem valueAt_nodes_iff {kind : AccessorKind} {α : Type} {a : Accessor kind α} (ha : a.Plain)
    {value : α} (dest : α) {id : SerializationId} {n : SRANode}
    (hhashes : DifferentHashes (a.lookupIds id))
    (hsees : Sees n (a.nodes fl false value id) (a.lookupIds id)) :
    a.valueAt fl dest id n = value ↔ a.StaleFree value dest := by
  induction ha generalizing id n with
  | boolean =>
      simp [valueAt, readChild, hsees.findChild? rfl rfl, StaleFree, SRATrivialDataType.asBoolean]
  | integer k =>
      simp [valueAt, readChild, hsees.findChild? rfl rfl, StaleFree, SRATrivialDataType.asInteger,
        k.setWidth_toInt64]
  | string => simp [valueAt, readChild, hsees.findChild? rfl rfl, StaleFree]
  | @vector α a ha ih =>
      have hitem : ∀ item ∈ value, a.valueAt fl a.dflt vectorDataId
          (.node { id := vectorItemId, type := .item } (a.nodes fl false item vectorDataId)) =
          item := by
        intro item _
        refine (ih a.dflt ?_ (sees_node _ _ _)).mpr (ha.staleFree_dflt item)
        rw [lookupIds_value]
        exact differentHashes_singleton _
      have hfind := hsees.findChild? rfl rfl
      have hvalue : (Accessor.vector a).valueAt fl dest id n = value := by
        simp only [valueAt, hfind, vectorItems_nodes, List.map_map]
        conv_rhs => rw [← List.map_id value]
        exact List.map_congr_left hitem
      exact iff_of_true hvalue trivial
  | @object α body hbody hids ih =>
      have hbodyIff : body.valueAt fl dest id (.node { id := id, type := .object }
          (body.nodes fl false value id)) = value ↔ body.StaleFree value dest :=
        ih dest (hids id) (sees_node _ _ _)
      simpa only [valueAt, hsees.findChild? rfl rfl, StaleFree] using hbodyIff
  | nothing => exact iff_of_true rfl trivial
  | @member α id' a hid ha ih =>
      refine ih dest ?_ ?_
      · rwa [lookupIds_value]
      · rwa [lookupIds_value]
  | @checked id' hid k =>
      have hfind := hsees id' (List.mem_singleton_self id')
      by_cases hdefault : isDefaultInteger value = true
      · have hvalue : value = 0 := of_decide_eq_true hdefault
        have hnone : findChild? id' n = none := by simpa [nodes, hdefault] using hfind
        simp [valueAt, readChild, hnone, StaleFree, hvalue, isDefaultInteger]
      · have hsome : findChild? id' n = some (.node
            { id := id', type := .integer, data := .integer (k.toInt64 value) } []) := by
          simpa [nodes, hdefault, HasHash] using hfind
        simp [valueAt, readChild, hsome, StaleFree, hdefault, SRATrivialDataType.asInteger,
          k.setWidth_toInt64]
  | @seq α β a b ha hb iha ihb =>
      obtain ⟨hseesA, hseesB⟩ := hsees.append hhashes (fun m hm => id_mem_lookupIds hm)
        fun m hm => id_mem_lookupIds hm
      rw [valueAt, Prod.ext_iff, iha dest.1 hhashes.left hseesA, ihb dest.2 hhashes.right hseesB]
      rfl

/-- `Begin` and `End` are balanced on saved nodes exactly if no array is empty. -/
theorem balanced_nodes_iff {kind : AccessorKind} {α : Type} {a : Accessor kind α} (ha : a.Plain)
    {value : α} {id : SerializationId} {n : SRANode} {atRoot : Prop}
    (hhashes : DifferentHashes (a.lookupIds id))
    (hsees : Sees n (a.nodes fl false value id) (a.lookupIds id)) :
    a.Balanced n atRoot id ↔ a.NoEmpty value := by
  induction ha generalizing id n atRoot with
  | boolean | integer | string | nothing => exact Iff.rfl
  | @vector α a ha ih =>
      have hitem : ∀ item, a.Balanced
          (.node { id := vectorItemId, type := .item } (a.nodes fl false item vectorDataId)) False
          vectorDataId ↔ a.NoEmpty item := by
        intro item
        refine ih ?_ (sees_node _ _ _)
        rw [lookupIds_value]
        exact differentHashes_singleton _
      have hfind := hsees.findChild? rfl rfl
      simp only [Balanced, hfind, Option.some.injEq, forall_eq', vectorItems_nodes, NoEmpty,
        Rose.children_node]
      simp [← List.map_eq_flatMap, hitem]
  | @object α body hbody hids ih =>
      have hbodyIff : body.Balanced (.node { id := id, type := .object }
          (body.nodes fl false value id)) False id ↔ body.NoEmpty value :=
        ih (hids id) (sees_node _ _ _)
      simpa [Balanced, hsees.findChild? rfl rfl, NoEmpty] using hbodyIff
  | @member α id' a hid ha ih =>
      refine ih ?_ ?_
      · rwa [lookupIds_value]
      · rwa [lookupIds_value]
  | @checked id' hid k => exact Iff.rfl
  | @seq α β a b ha hb iha ihb =>
      obtain ⟨hseesA, hseesB⟩ := hsees.append hhashes (fun m hm => id_mem_lookupIds hm)
        fun m hm => id_mem_lookupIds hm
      exact and_congr (iha hhashes.left hseesA) (ihb hhashes.right hseesB)

end

end Accessor

end SRCommon
