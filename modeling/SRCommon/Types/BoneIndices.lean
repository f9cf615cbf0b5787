import SRCommon.Types.RawMesh

/-!
# Which bones an index tells apart

A bone has the index that it has in the first mesh with it, where it is counted
from zero. Bones that begin in different meshes may have the same one.
-/

namespace SRCommon

section

variable {κ α μ β γ : Type}

/-! ## Values at indices -/

theorem length_resize_ge {values : List μ} {n : ℕ} (blank : μ) : n ≤ (resize values n blank).length := by
  rw [resize, List.length_append, List.length_take, List.length_replicate]
  omega

theorem getElem?_resize {values : List μ} {n i : ℕ} {value : μ} (blank : μ) (hn : values.length ≤ n)
    (h : values[i]? = some value) : (resize values n blank)[i]? = some value := by
  obtain ⟨hi, -⟩ := List.getElem?_eq_some_iff.mp h
  rw [resize, List.take_of_length_le hn, List.getElem?_append_left hi, h]

theorem getElem?_storeAt_self (values : List μ) (i : ℕ) (value blank : μ) :
    (storeAt values i value blank)[i]? = some value := by
  rw [storeAt, List.getElem?_set_self]
  split
  · exact Nat.lt_of_lt_of_le (Nat.lt_succ_self i) (length_resize_ge blank)
  · omega

theorem getElem?_storeAt_ne {values : List μ} {i j : ℕ} {value other : μ} (blank : μ) (hne : i ≠ j)
    (h : values[j]? = some other) : (storeAt values i value blank)[j]? = some other := by
  rw [storeAt, List.getElem?_set_ne hne]
  split
  · exact getElem?_resize blank (by omega) h
  · exact h

/-- A value stays that no later name overwrites. -/
theorem getElem?_foldl_storeAt {names : List κ} {index : κ → ℕ} {value : κ → μ} {blank other : μ}
    {values : List μ} {j : ℕ} (hne : ∀ name ∈ names, index name ≠ j)
    (h : values[j]? = some other) :
    (names.foldl (fun values name => storeAt values (index name) (value name) blank)
      values)[j]? = some other := by
  induction names generalizing values with
  | nil => exact h
  | cons name names ih =>
      obtain ⟨hfirst, hne⟩ := List.forall_mem_cons.mp hne
      exact ih hne (getElem?_storeAt_ne blank hfirst h)

/-- Names with different indices have their values there in the end. -/
theorem getElem?_foldl_storeAt_self {names : List κ} (hnodup : names.Nodup) (index : κ → ℕ)
    (value : κ → μ) (blank : μ) (values : List μ)
    (hinj : ∀ name ∈ names, ∀ name' ∈ names, index name = index name' → name = name') {name : κ}
    (hname : name ∈ names) :
    (names.foldl (fun values name => storeAt values (index name) (value name) blank)
      values)[index name]? = some (value name) := by
  induction names generalizing values with
  | nil => cases hname
  | cons first names ih =>
      obtain ⟨hfirst, hnodup⟩ := List.nodup_cons.mp hnodup
      rw [List.foldl_cons]
      obtain rfl | hname := List.mem_cons.mp hname
      · refine getElem?_foldl_storeAt (fun other hother heq => ?_) (getElem?_storeAt_self ..)
        rw [hinj other (List.mem_cons_of_mem _ hother) name (List.mem_cons_self ..) heq] at hother
        exact hfirst hother
      · exact ih hnodup _ (fun a ha b hb =>
          hinj a (List.mem_cons_of_mem _ ha) b (List.mem_cons_of_mem _ hb)) hname

variable [DecidableEq κ]

/-! ## Maps -/

namespace FlatHashMap

theorem lookup_add (m : FlatHashMap κ β) (name : κ) (value : β) (k : κ) :
    (m.add name value).lookup k =
      if k = name then (m.lookup name).or (some value) else m.lookup k := by
  rw [add]
  by_cases hk : k = name
  · subst hk
    rw [if_pos rfl]
    split
    case isTrue hmem =>
      obtain ⟨v, hv⟩ := Option.isSome_iff_exists.mp (AList.lookup_isSome.mpr hmem)
      rw [hv]
      rfl
    case isFalse hmem => rw [AList.lookup_insert, AList.lookup_eq_none.mpr hmem, Option.none_or]
  · rw [if_neg hk]
    split
    · rfl
    · rw [AList.lookup_insert_ne hk]

/-- The first value for a key is kept. -/
theorem lookup_foldl_add (key : γ → κ) (value : γ → β) (xs : List γ) (m : FlatHashMap κ β) (k : κ) :
    (xs.foldl (fun m x => m.add (key x) (value x)) m).lookup k =
      (m.lookup k).or ((xs.find? fun x => key x = k).map value) := by
  induction xs generalizing m with
  | nil => rw [List.foldl_nil, List.find?_nil, Option.map_none, Option.or_none]
  | cons x xs ih =>
      rw [List.foldl_cons, ih, lookup_add, List.find?_cons]
      by_cases hk : k = key x
      · subst hk
        rw [if_pos rfl, decide_eq_true rfl, Option.or_assoc]
        rfl
      · rw [if_neg hk, decide_eq_false (Ne.symm hk)]

end FlatHashMap

/-! ## The places of the bones -/

/-- The names without those that have occurred before. -/
def distinctNames (names : List κ) : List κ :=
  names.foldl (fun distinct name => if name ∈ distinct then distinct else distinct ++ [name]) []

/-- Where the name is among the different names of a mesh. -/
def AiMesh.place (pMesh : AiMesh κ α) (name : κ) : Option ℕ :=
  (distinctNames (pMesh.mBones.map AiBone.mName)).idxOf? name

/-- The same for the first mesh with the name. -/
def AiBoneScene.place (scene : AiBoneScene κ α) (name : κ) : Option ℕ :=
  scene.mMeshes.findSome? fun pMesh => pMesh.place name

/-- The map numbers the names in their order. -/
structure Numbers (bones : FlatHashMap κ UInt32) (distinct : List κ) : Prop where
  size : bones.entries.length = distinct.length
  lookup : ∀ name, bones.lookup name = (distinct.idxOf? name).map Nat.toUInt32

theorem Numbers.add {bones : FlatHashMap κ UInt32} {distinct : List κ} (h : Numbers bones distinct)
    (name : κ) : Numbers (bones.add name bones.entries.length.toUInt32)
      (if name ∈ distinct then distinct else distinct ++ [name]) := by
  have hmem : name ∈ bones ↔ name ∈ distinct := by
    rw [← AList.lookup_isSome, h.lookup, Option.isSome_map, List.isSome_idxOf?]
  by_cases hname : name ∈ distinct
  · rwa [FlatHashMap.add, if_pos hname, if_pos (hmem.mpr hname)]
  · rw [if_neg hname]
    refine ⟨?_, fun other => ?_⟩
    · rw [FlatHashMap.add, if_neg (mt hmem.mp hname),
        AList.entries_insert_of_notMem (mt hmem.mp hname), List.length_cons, h.size,
        List.length_append, List.length_singleton]
    · rw [FlatHashMap.lookup_add, List.idxOf?, List.findIdx?_append]
      by_cases hother : other = name
      · subst hother
        have hnone : distinct.findIdx? (· == other) = none := List.idxOf?_eq_none_iff.mpr hname
        rw [if_pos rfl, h.lookup, List.idxOf?, hnone, h.size]
        simp
      · rw [if_neg hother, h.lookup, List.idxOf?]
        simp [Ne.symm hother]

theorem numbers_addBones (pMesh : AiMesh κ α) :
    Numbers (RawMesh.addBones ∅ pMesh) (distinctNames (pMesh.mBones.map AiBone.mName)) := by
  have hall (bones : List (AiBone κ α)) (m : FlatHashMap κ UInt32) (distinct : List κ)
      (h : Numbers m distinct) :
      Numbers (bones.foldl (fun m bone => m.add bone.mName m.entries.length.toUInt32) m)
        ((bones.map AiBone.mName).foldl
          (fun distinct name => if name ∈ distinct then distinct else distinct ++ [name])
          distinct) := by
    induction bones generalizing m distinct with
    | nil => exact h
    | cons bone bones ih => exact ih _ _ (h.add bone.mName)
  exact hall pMesh.mBones ∅ [] ⟨rfl, fun _ => rfl⟩

theorem lookup_addBones (pMesh : AiMesh κ α) (name : κ) :
    (RawMesh.addBones ∅ pMesh).lookup name = (pMesh.place name).map Nat.toUInt32 :=
  (numbers_addBones pMesh).lookup name

theorem length_distinct_le (names distinct : List κ) :
    (names.foldl (fun distinct name => if name ∈ distinct then distinct else distinct ++ [name])
      distinct).length ≤ distinct.length + names.length := by
  induction names generalizing distinct with
  | nil => exact Nat.le_refl _
  | cons name names ih =>
      rw [List.foldl_cons, List.length_cons]
      refine Nat.le_trans (ih _) ?_
      split
      · omega
      · rw [List.length_append, List.length_singleton]
        omega

theorem AiMesh.place_lt {pMesh : AiMesh κ α} {name : κ} {place : ℕ}
    (h : pMesh.place name = some place) : place < 2 ^ 32 := by
  obtain ⟨hlt, -⟩ := List.idxOf?_eq_some_iff.mp h
  have hle := length_distinct_le (pMesh.mBones.map AiBone.mName) []
  rw [List.length_map, List.length_nil, Nat.zero_add] at hle
  exact Nat.lt_of_lt_of_le (Nat.lt_of_lt_of_le hlt hle) (Nat.le_of_lt pMesh.mNumBones_lt)

theorem mem_foldl_distinct {names distinct : List κ} {name : κ} :
    name ∈ names.foldl (fun distinct name => if name ∈ distinct then distinct else distinct ++ [name])
      distinct ↔ name ∈ distinct ∨ name ∈ names := by
  induction names generalizing distinct with
  | nil => simp
  | cons first names ih =>
      rw [List.foldl_cons, ih, List.mem_cons, ← or_assoc]
      refine or_congr_left ?_
      split
      case isTrue hfirst =>
        refine ⟨Or.inl, ?_⟩
        rintro (hname | rfl)
        · exact hname
        · exact hfirst
      case isFalse => rw [List.mem_append, List.mem_singleton]

theorem AiMesh.isSome_place_iff {pMesh : AiMesh κ α} {name : κ} :
    (pMesh.place name).isSome ↔ ∃ bone ∈ pMesh.mBones, bone.mName = name := by
  rw [place, List.isSome_idxOf?, distinctNames, mem_foldl_distinct, List.mem_map]
  simp

/-! ## The common index -/

namespace RawMesh

variable (hash : HashOrder κ)

/-- What one round does. -/
theorem lookup_optimizeBone (s : FlatHashMap κ UInt16 × FlatHashMap κ UInt32) {hashName : κ}
    {index : UInt32} (h : s.2.lookup hashName = some index) (name : κ) :
    (optimizeBone s hashName).1.lookup name =
        (if name = hashName then (s.1.lookup name).or (some index.toUInt16) else s.1.lookup name) ∧
      (optimizeBone s hashName).2.lookup name =
        if name = hashName then some (((s.1.lookup name).map UInt16.toUInt32).getD index)
        else s.2.lookup name := by
  rw [optimizeBone]
  by_cases hname : name = hashName
  · subst hname
    rw [if_pos rfl, if_pos rfl]
    split
    case h_1 i hi => simp [hi]
    case h_2 hnone => simp [hnone, h]
  · rw [if_neg hname, if_neg hname]
    split
    · exact ⟨rfl, AList.lookup_insert_ne hname⟩
    · exact ⟨AList.lookup_insert_ne hname, rfl⟩

theorem lookup_foldl_optimizeBone (names : List κ) (hnodup : names.Nodup)
    (s : FlatHashMap κ UInt16 × FlatHashMap κ UInt32) (hmem : ∀ name ∈ names, name ∈ s.2)
    (name : κ) :
    (names.foldl optimizeBone s).1.lookup name =
        (if name ∈ names then (s.1.lookup name).or ((s.2.lookup name).map UInt32.toUInt16)
        else s.1.lookup name) ∧
      (names.foldl optimizeBone s).2.lookup name =
        if name ∈ names then
          (s.2.lookup name).map fun index => ((s.1.lookup name).map UInt16.toUInt32).getD index
        else s.2.lookup name := by
  induction names generalizing s with
  | nil => exact ⟨rfl, rfl⟩
  | cons first names ih =>
      obtain ⟨hfirst, hnodup⟩ := List.nodup_cons.mp hnodup
      obtain ⟨hmemfirst, hmem⟩ := List.forall_mem_cons.mp hmem
      obtain ⟨index, hindex⟩ := Option.isSome_iff_exists.mp (AList.lookup_isSome.mpr hmemfirst)
      have hround := lookup_optimizeBone s hindex
      have hrest := ih hnodup (optimizeBone s first) fun other hother => by
        rw [← AList.lookup_isSome, (hround other).2]
        split
        · rfl
        · exact AList.lookup_isSome.mpr (hmem other hother)
      rw [List.foldl_cons, hrest.1, hrest.2, (hround name).1, (hround name).2]
      by_cases hname : name = first
      · subst hname
        simp [hfirst, hindex]
      · simp [hname]

theorem lookup_optimizeMesh (o : FlatHashMap κ UInt16) (mesh : FlatHashMap κ UInt32) (name : κ) :
    (optimizeMesh hash o mesh).1.lookup name =
        (o.lookup name).or ((mesh.lookup name).map UInt32.toUInt16) ∧
      (optimizeMesh hash o mesh).2.lookup name =
        (mesh.lookup name).map fun index => ((o.lookup name).map UInt16.toUInt32).getD index := by
  have hall := lookup_foldl_optimizeBone (hash.order mesh) (hash.nodup mesh) (o, mesh)
    (fun name hname => (hash.mem_order mesh name).mp hname) name
  rw [optimizeMesh, hall.1, hall.2]
  simp only [hash.mem_order]
  by_cases hname : name ∈ mesh
  · rw [if_pos hname, if_pos hname]
    exact ⟨rfl, rfl⟩
  · rw [if_neg hname, if_neg hname, AList.lookup_eq_none.mpr hname]
    exact ⟨by simp, rfl⟩

/-- The first mesh with a name gives its index. -/
theorem lookup_optimizeMeshes (o : FlatHashMap κ UInt16) (meshes : List (FlatHashMap κ UInt32))
    (name : κ) :
    (optimizeMeshes hash o meshes).1.lookup name = (o.lookup name).or
      (meshes.findSome? fun mesh => (mesh.lookup name).map UInt32.toUInt16) := by
  induction meshes generalizing o with
  | nil => exact (Option.or_none).symm
  | cons mesh meshes ih =>
      rw [optimizeMeshes]
      dsimp only
      rw [ih, (lookup_optimizeMesh hash o mesh name).1, Option.or_assoc, List.findSome?_cons]
      cases (mesh.lookup name).map UInt32.toUInt16 <;> rfl

/-- Every later mesh takes it over. -/
theorem getElem?_optimizeMeshes (o : FlatHashMap κ UInt16) (meshes : List (FlatHashMap κ UInt32))
    {meshId : ℕ} {mesh : FlatHashMap κ UInt32} (h : meshes[meshId]? = some mesh) :
    ∃ mesh', (optimizeMeshes hash o meshes).2[meshId]? = some mesh' ∧
      ∀ name, mesh'.lookup name = (mesh.lookup name).map fun index =>
        (((o.lookup name).or ((meshes.take meshId).findSome? fun mesh =>
          (mesh.lookup name).map UInt32.toUInt16)).map UInt16.toUInt32).getD index := by
  induction meshes generalizing o meshId with
  | nil => cases h
  | cons first meshes ih =>
      rw [optimizeMeshes]
      dsimp only
      cases meshId with
      | zero =>
          obtain rfl := Option.some.inj h
          refine ⟨_, rfl, fun name => ?_⟩
          rw [(lookup_optimizeMesh hash o first name).2, List.take_zero, List.findSome?_nil,
            Option.or_none]
      | succ meshId =>
          obtain ⟨mesh', hmesh', hlookup⟩ := ih (optimizeMesh hash o first).1 h
          refine ⟨mesh', hmesh', fun name => ?_⟩
          rw [hlookup, (lookup_optimizeMesh hash o first name).1, Option.or_assoc,
            List.take_succ_cons, List.findSome?_cons]
          cases (first.lookup name).map UInt32.toUInt16 <;> rfl

theorem getElem?_storeBones (this : RawMesh κ μ) (matrices : BoneMatrices α μ) (value : κ → μ)
    (values : List μ)
    (hinj : ∀ name name' i, this.optimizedBones.lookup name = some i →
      this.optimizedBones.lookup name' = some i → name = name') {name : κ} {i : UInt16}
    (h : this.optimizedBones.lookup name = some i) :
    (this.storeBones matrices hash value values)[i.toNat]? = some (value name) := by
  have hmem (name : κ) (hname : name ∈ hash.order this.optimizedBones) :
      ∃ i, this.optimizedBones.lookup name = some i :=
    Option.isSome_iff_exists.mp (AList.lookup_isSome.mpr ((hash.mem_order _ name).mp hname))
  have hname : name ∈ hash.order this.optimizedBones :=
    (hash.mem_order _ name).mpr (AList.lookup_isSome.mp (by rw [h]; rfl))
  have hstore := getElem?_foldl_storeAt_self (hash.nodup this.optimizedBones)
    (fun name => ((this.optimizedBones.lookup name).getD 0).toNat) value matrices.blank values
    (fun a ha b hb heq => ?_) hname
  · simp only [h, Option.getD_some] at hstore
    exact hstore
  · obtain ⟨j, hj⟩ := hmem a ha
    obtain ⟨k, hk⟩ := hmem b hb
    simp only [hj, hk, Option.getD_some] at heq
    obtain rfl := UInt16.toNat_inj.mp heq
    exact hinj a b j hj hk

end RawMesh

/-! ## The bones of a scene -/

/-- The offset of the first bone with the name. -/
def AiBoneScene.offset (scene : AiBoneScene κ α) (matrices : BoneMatrices α μ) (name : κ) : μ :=
  ((scene.bones.find? fun bone => bone.mName = name).map fun bone =>
    matrices.decompose bone.mOffsetMatrix).getD matrices.identity

mutual

/-- The nodes with their transformations, a node before its children. -/
def nodesOf : Rose (κ × α) → List (κ × α)
  | .node pNode children => pNode :: nodesOfAll children

def nodesOfAll : List (Rose (κ × α)) → List (κ × α)
  | [] => []
  | child :: children => nodesOf child ++ nodesOfAll children

end

/-- The transformation of the first node with the name. -/
def AiBoneScene.transform (scene : AiBoneScene κ α) (matrices : BoneMatrices α μ) (name : κ) : μ :=
  (((nodesOf scene.mRootNode).find? fun pNode => pNode.1 = name).map fun pNode =>
    matrices.decompose pNode.2).getD matrices.identity

theorem processNode_eq (matrices : BoneMatrices α μ) (t : Rose (κ × α)) (m : FlatHashMap κ μ) :
    processNode matrices m t =
      (nodesOf t).foldl (fun m pNode => m.add pNode.1 (matrices.decompose pNode.2)) m := by
  induction t using Rose.induct generalizing m with
  | h pNode children ih =>
      have hall (cs : List (Rose (κ × α))) (hcs : ∀ c ∈ cs, c ∈ children) (m : FlatHashMap κ μ) :
          processNode.processNodes matrices m cs = (nodesOfAll cs).foldl
            (fun m pNode => m.add pNode.1 (matrices.decompose pNode.2)) m := by
        induction cs generalizing m with
        | nil => rw [processNode.processNodes, nodesOfAll, List.foldl_nil]
        | cons c cs ihcs =>
            obtain ⟨hc, hcs⟩ := List.forall_mem_cons.mp hcs
            rw [processNode.processNodes, nodesOfAll, List.foldl_append, ih c hc, ihcs hcs]
      rw [processNode, nodesOf, List.foldl_cons, hall children fun _ hc => hc]

/-- Different names have different indices; each mesh has the common index of each of its bones; and
the offset and the transformation of a name are at its index. -/
structure RawMesh.Identifies (this : RawMesh κ μ) (scene : AiBoneScene κ α)
    (matrices : BoneMatrices α μ) : Prop where
  distinct : ∀ name name' i, this.optimizedBones.lookup name = some i →
    this.optimizedBones.lookup name' = some i → name = name'
  common : ∀ (meshId : ℕ) (pMesh : AiMesh κ α), scene.mMeshes[meshId]? = some pMesh →
    ∀ bone ∈ pMesh.mBones, ∃ bones i, this.bones[meshId]? = some bones ∧
      this.optimizedBones.lookup bone.mName = some i ∧
      bones.lookup bone.mName = some i.toUInt32
  offsets : ∀ name i, this.optimizedBones.lookup name = some i →
    this.boneOffsets[i.toNat]? = some (scene.offset matrices name)
  transforms : ∀ name i, this.optimizedBones.lookup name = some i →
    this.boneTransforms[i.toNat]? = some (scene.transform matrices name)

/-- Different bones have different places, which fit 16 bits. -/
structure AiBoneScene.PlacesDiffer (scene : AiBoneScene κ α) : Prop where
  differ : ∀ name name' place, scene.place name = some place → scene.place name' = some place →
    name = name'
  fit : ∀ name place, scene.place name = some place → place < 2 ^ 16

section

variable (scene : AiBoneScene κ α) (matrices : BoneMatrices α μ) (hash : HashOrder κ)

theorem bones_calculateBones :
    (({} : RawMesh κ μ).calculateBones scene).bones = scene.mMeshes.map (RawMesh.addBones ∅) := by
  apply List.ext_getElem?
  intro meshId
  rw [RawMesh.calculateBones, List.getElem?_mapIdx, List.getElem?_map]
  rfl

theorem lookup_optimizedBones (name : κ) :
    (({} : RawMesh κ μ).calculate scene matrices hash).optimizedBones.lookup name =
      (scene.place name).map fun place => place.toUInt32.toUInt16 := by
  change (RawMesh.optimizeMeshes hash ∅
    (({} : RawMesh κ μ).calculateBones scene).bones).1.lookup name = _
  rw [bones_calculateBones, RawMesh.lookup_optimizeMeshes, AList.lookup_empty, Option.none_or,
    List.findSome?_map, AiBoneScene.place, List.map_findSome?]
  simp only [Function.comp_def, lookup_addBones, Option.map_map]

/-- What a mesh has for a name after the skeleton has been optimized. -/
theorem lookup_bones {meshId : ℕ} {pMesh : AiMesh κ α} (h : scene.mMeshes[meshId]? = some pMesh) :
    ∃ bones, (({} : RawMesh κ μ).calculate scene matrices hash).bones[meshId]? = some bones ∧
      ∀ name, bones.lookup name = (pMesh.place name).map fun place =>
        ((((scene.mMeshes.take meshId).findSome? fun pMesh => pMesh.place name).map
          fun place => place.toUInt32.toUInt16).map UInt16.toUInt32).getD place.toUInt32 := by
  change ∃ bones, (RawMesh.optimizeMeshes hash ∅
    (({} : RawMesh κ μ).calculateBones scene).bones).2[meshId]? = some bones ∧ _
  rw [bones_calculateBones]
  have hmesh : (scene.mMeshes.map (RawMesh.addBones ∅))[meshId]? =
      some (RawMesh.addBones ∅ pMesh) := by
    rw [List.getElem?_map, h]
    rfl
  obtain ⟨bones, hbones, hlookup⟩ := RawMesh.getElem?_optimizeMeshes hash ∅ _ hmesh
  refine ⟨bones, hbones, fun name => ?_⟩
  rw [hlookup, lookup_addBones, Option.map_map, AList.lookup_empty, Option.none_or,
    ← List.map_take, List.findSome?_map]
  simp only [Function.comp_def, lookup_addBones, Option.map_map, List.map_findSome?]

theorem lookup_boneOffsetsMap (name : κ) :
    (({} : RawMesh κ μ).calculate scene matrices hash).boneOffsetsMap.lookup name =
      (scene.bones.find? fun bone => bone.mName = name).map fun bone =>
        matrices.decompose bone.mOffsetMatrix := by
  change (scene.bones.foldl
    (fun m (bone : AiBone κ α) => m.add bone.mName (matrices.decompose bone.mOffsetMatrix))
    (∅ : FlatHashMap κ μ)).lookup name = _
  rw [FlatHashMap.lookup_foldl_add, AList.lookup_empty, Option.none_or]

theorem lookup_foldl_elim (m : FlatHashMap κ μ) (bones : List (AiBone κ α))
    (transforms : FlatHashMap κ μ) (name : κ) :
    (bones.foldl (fun transforms (bone : AiBone κ α) =>
      (m.lookup bone.mName).elim transforms (transforms.add bone.mName)) transforms).lookup name =
      (transforms.lookup name).or
        ((bones.find? fun bone => bone.mName = name).bind fun _ => m.lookup name) := by
  induction bones generalizing transforms with
  | nil => simp
  | cons bone bones ih =>
      rw [List.foldl_cons, ih, List.find?_cons]
      by_cases hname : bone.mName = name
      · subst hname
        rw [decide_eq_true rfl]
        cases hm : m.lookup bone.mName with
        | none => simp
        | some value => simp [FlatHashMap.lookup_add]
      · rw [decide_eq_false hname]
        cases hm : m.lookup bone.mName with
        | none => rfl
        | some value => simp [FlatHashMap.lookup_add, Ne.symm hname]

theorem isSome_find?_of_place {name : κ} {place : ℕ} (h : scene.place name = some place) :
    (scene.bones.find? fun bone => bone.mName = name).isSome := by
  obtain ⟨pMesh, hmem, hplace⟩ := List.exists_of_findSome?_eq_some h
  obtain ⟨bone, hbone, hname⟩ := AiMesh.isSome_place_iff.mp (by rw [hplace]; rfl)
  rw [List.find?_isSome]
  exact ⟨bone, List.mem_flatMap.mpr ⟨pMesh, hmem, hbone⟩, by simpa using hname⟩

theorem getBoneTransform_eq {name : κ} {place : ℕ} (h : scene.place name = some place) :
    (({} : RawMesh κ μ).calculate scene matrices hash).getBoneTransform matrices name =
      scene.transform matrices name := by
  change ((scene.bones.foldl (fun transforms (bone : AiBone κ α) =>
      ((processNode matrices ∅ scene.mRootNode).lookup bone.mName).elim transforms
        (transforms.add bone.mName)) (∅ : FlatHashMap κ μ)).lookup name).getD matrices.identity = _
  obtain ⟨bone, hbone⟩ := Option.isSome_iff_exists.mp (isSome_find?_of_place scene h)
  rw [lookup_foldl_elim, hbone, AList.lookup_empty, Option.none_or, Option.bind_some,
    processNode_eq, FlatHashMap.lookup_foldl_add, AList.lookup_empty, Option.none_or,
    AiBoneScene.transform]

theorem toUInt16_inj {a b : ℕ} (ha : a < 2 ^ 16) (hb : b < 2 ^ 16)
    (h : a.toUInt32.toUInt16 = b.toUInt32.toUInt16) : a = b := by
  have hnat := congrArg UInt16.toNat h
  simp only [UInt32.toNat_toUInt16, Nat.toUInt32, UInt32.toNat_ofNat'] at hnat
  omega

/-- An index that fits is not cut off. -/
theorem toUInt32_toUInt16_iff {a : ℕ} (ha : a < 2 ^ 32) :
    a.toUInt32.toUInt16.toUInt32 = a.toUInt32 ↔ a < 2 ^ 16 := by
  rw [← UInt32.toNat_inj]
  simp only [UInt16.toNat_toUInt32, UInt32.toNat_toUInt16, Nat.toUInt32, UInt32.toNat_ofNat']
  omega

/-- The first mesh with a name. -/
theorem exists_first {name : κ} {place : ℕ} (h : scene.place name = some place) :
    ∃ meshId pMesh, scene.mMeshes[meshId]? = some pMesh ∧ pMesh.place name = some place ∧
      (scene.mMeshes.take meshId).findSome? (fun pMesh => pMesh.place name) = none := by
  rw [AiBoneScene.place, List.findSome?_eq_some_iff] at h
  obtain ⟨before, pMesh, after, hmeshes, hplace, hbefore⟩ := h
  refine ⟨before.length, pMesh, ?_, hplace, ?_⟩
  · rw [hmeshes, List.getElem?_append_right (Nat.le_refl _), Nat.sub_self]
    rfl
  · rw [hmeshes, List.take_left]
    exact List.findSome?_eq_none_iff.mpr hbefore

theorem place_of_take {name : κ} {place meshId : ℕ}
    (h : (scene.mMeshes.take meshId).findSome? (fun pMesh => pMesh.place name) = some place) :
    scene.place name = some place := by
  rw [AiBoneScene.place, ← List.take_append_drop meshId scene.mMeshes, List.findSome?_append, h]
  rfl

theorem place_of_getElem? {meshId : ℕ} {pMesh : AiMesh κ α} {name : κ} {place : ℕ}
    (hmesh : scene.mMeshes[meshId]? = some pMesh) (hplace : pMesh.place name = some place)
    (h : (scene.mMeshes.take meshId).findSome? (fun pMesh => pMesh.place name) = none) :
    scene.place name = some place := by
  obtain ⟨hlt, hget⟩ := List.getElem?_eq_some_iff.mp hmesh
  rw [AiBoneScene.place, ← List.take_append_drop meshId scene.mMeshes, List.findSome?_append, h,
    Option.none_or, List.drop_eq_getElem_cons hlt, hget, List.findSome?_cons, hplace]

/-- The indices identify the bones when different bones have different places in their first
meshes, and these places fit the indices. -/
theorem identifies_iff_placesDiffer :
    (({} : RawMesh κ μ).calculate scene matrices hash).Identifies scene matrices ↔
      scene.PlacesDiffer := by
  have hlookup := lookup_optimizedBones scene matrices hash (μ := μ)
  constructor
  · intro h
    have hfit (name : κ) (place : ℕ) (hplace : scene.place name = some place) : place < 2 ^ 16 := by
      obtain ⟨meshId, pMesh, hmesh, hfirst, hbefore⟩ := exists_first scene hplace
      obtain ⟨bone, hbone, rfl⟩ := AiMesh.isSome_place_iff.mp (by rw [hfirst]; rfl)
      obtain ⟨bones, i, hbones, hi, hindex⟩ := h.common meshId pMesh hmesh bone hbone
      obtain ⟨bones', hbones', hall⟩ := lookup_bones scene matrices hash hmesh
      obtain rfl := Option.some.inj (hbones.symm.trans hbones')
      rw [hlookup, hplace] at hi
      rw [hall, hfirst, hbefore] at hindex
      obtain rfl := Option.some.inj hi
      exact (toUInt32_toUInt16_iff (AiMesh.place_lt hfirst)).mp (Option.some.inj hindex).symm
    refine ⟨fun name name' place hplace hplace' => ?_, hfit⟩
    refine h.distinct name name' place.toUInt32.toUInt16 ?_ ?_
    · rw [hlookup, hplace]
      rfl
    · rw [hlookup, hplace']
      rfl
  · intro h
    have hdistinct : ∀ name name' i,
        (({} : RawMesh κ μ).calculate scene matrices hash).optimizedBones.lookup name = some i →
        (({} : RawMesh κ μ).calculate scene matrices hash).optimizedBones.lookup name' = some i →
        name = name' := by
      intro name name' i hi hi'
      rw [hlookup] at hi hi'
      obtain ⟨place, hplace, rfl⟩ := Option.map_eq_some_iff.mp hi
      obtain ⟨place', hplace', heq⟩ := Option.map_eq_some_iff.mp hi'
      obtain rfl := toUInt16_inj (h.fit name' place' hplace') (h.fit name place hplace) heq
      exact h.differ name name' place' hplace hplace'
    refine ⟨hdistinct, fun meshId pMesh hmesh bone hbone => ?_, fun name i hi => ?_,
      fun name i hi => ?_⟩
    · obtain ⟨bones, hbones, hall⟩ := lookup_bones scene matrices hash hmesh
      obtain ⟨place, hplace⟩ := Option.isSome_iff_exists.mp
        (AiMesh.isSome_place_iff.mpr ⟨bone, hbone, rfl⟩)
      cases hbefore : (scene.mMeshes.take meshId).findSome? fun pMesh => pMesh.place bone.mName with
      | none =>
          -- the mesh is the first one with the bone
          have hscene := place_of_getElem? scene hmesh hplace hbefore
          refine ⟨bones, place.toUInt32.toUInt16, hbones, by rw [hlookup, hscene]; rfl, ?_⟩
          rw [hall, hplace, hbefore,
            (toUInt32_toUInt16_iff (AiMesh.place_lt hplace)).mpr (h.fit _ _ hscene)]
          rfl
      | some first =>
          have hscene := place_of_take scene hbefore
          refine ⟨bones, first.toUInt32.toUInt16, hbones, by rw [hlookup, hscene]; rfl, ?_⟩
          rw [hall, hplace, hbefore]
          rfl
    · have hoffset : (({} : RawMesh κ μ).calculate scene matrices hash).getBoneOffset matrices name =
          scene.offset matrices name := by
        rw [RawMesh.getBoneOffset, lookup_boneOffsetsMap, AiBoneScene.offset]
      rw [← hoffset]
      exact RawMesh.getElem?_storeBones hash (({} : RawMesh κ μ).calculate scene matrices hash)
        matrices _ _ hdistinct hi
    · have hplace := hi
      rw [hlookup] at hplace
      obtain ⟨place, hplace, -⟩ := Option.map_eq_some_iff.mp hplace
      rw [← getBoneTransform_eq scene matrices hash hplace]
      exact RawMesh.getElem?_storeBones hash (({} : RawMesh κ μ).calculate scene matrices hash)
        matrices _ _ hdistinct hi

end

end

/-! ## Two bones with one index -/

def keysOrder (κ : Type) : HashOrder κ where
  order := AList.keys
  nodup := AList.keys_nodup
  mem_order _ _ := AList.mem_keys.symm

def oneBone (name : ℕ) : AiMesh ℕ Unit where
  mBones := [⟨name, ()⟩]
  mNumBones_lt := Nat.one_lt_two_pow (by decide)

def twoMeshes : AiBoneScene ℕ Unit where
  mRootNode := .node (0, ()) []
  mMeshes := [oneBone 1, oneBone 2]

def unitMatrices : BoneMatrices Unit Unit := ⟨id, (), ()⟩

/-- Each bone is the first one of its mesh. -/
theorem not_identifies_twoMeshes :
    ¬ (({} : RawMesh ℕ Unit).calculate twoMeshes unitMatrices (keysOrder ℕ)).Identifies twoMeshes
      unitMatrices := by
  intro h
  have heq := h.distinct 1 2 0 (by rw [lookup_optimizedBones]; decide)
    (by rw [lookup_optimizedBones]; decide)
  revert heq
  decide

end SRCommon
