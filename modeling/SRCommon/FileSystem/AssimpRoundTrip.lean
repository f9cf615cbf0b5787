import Mathlib.Algebra.Group.Nat.Defs
import SRCommon.FileSystem.AssimpLoading

/-!
# Round trip of scenes

A scene comes back as it was if every node that a bone refers to has a number,
if no key of a morphing channel has any values, and if the colours that are cut
off are zero.
-/

namespace SRCommon

/-! ## Numbers of nodes -/

theorem length_walked_le (n : Rose Unit) (a : ℕ) (path : List ℕ) :
    (walked n a path).length ≤ n.count := by
  induction n using Rose.induct generalizing a path with
  | h label cs ih =>
      have hall (ds : List (Rose Unit)) (hds : ∀ d ∈ ds, d ∈ cs) (i : ℕ) :
          (walkedAll ds i a path).length ≤ Rose.countAll ds := by
        induction ds generalizing i with
        | nil => simp [walkedAll]
        | cons d ds ihds =>
            obtain ⟨hd, hds⟩ := List.forall_mem_cons.mp hds
            have hrest := ihds hds (i + 1)
            have hfirst := ih d hd i (i :: path)
            rw [walkedAll_cons, List.length_append, Rose.countAll_cons]
            split
            · omega
            · rw [List.length_nil]
              omega
      have hchildren := hall cs (fun _ hd => hd) 0
      rw [walked_eq, List.length_cons, Rose.count_eq]
      exact Nat.succ_le_succ hchildren

namespace AssimpCache

open Marshal MarshalUtils

variable {ai : AssimpHeaders}

/-- The nodes at their paths. -/
def nodeTree (mRootNode : Rose (AiNodeData ai)) :
    NodeTree (pathMemory (mRootNode.map fun _ => ())) [] (mRootNode.map fun _ => ()) :=
  pathTree _

/-- What `BuildNodeMap` returns. -/
def nodeNumbers (mRootNode : Rose (AiNodeData ai)) : NodeMap (List ℕ) :=
  (nodeTree mRootNode).numbers

variable {mRootNode : Rose (AiNodeData ai)}

theorem exists_nodeMap (mRootNode : Rose (AiNodeData ai)) :
    ∃ enough, ∀ fuel ≥ enough, nodeMap mRootNode fuel = some (nodeNumbers mRootNode) := by
  obtain ⟨enough, henough⟩ := (nodeTree mRootNode).exists_buildNodeMap
  exact ⟨enough, fun fuel hfuel => NodeTree.run_mono hfuel henough⟩

theorem first_nodeNumbers (mRootNode : Rose (AiNodeData ai)) :
    (nodeNumbers mRootNode).first = walked (mRootNode.map fun _ => ()) 0 [] :=
  (nodeTree mRootNode).first_numbers.trans (List.map_id _)

theorem isSome_second_iff {path : List ℕ} :
    ((nodeNumbers mRootNode).second path).isSome ↔
      path ∈ walked (mRootNode.map fun _ => ()) 0 [] := by
  rw [Option.isSome_iff_exists, ← first_nodeNumbers, List.mem_iff_getElem?]
  exact exists_congr fun i => (nodeTree mRootNode).inverse_numbers path i

theorem hasNumber_of_isSome {path : List ℕ} (hcount : mRootNode.count < 2 ^ 64)
    (h : ((nodeNumbers mRootNode).second path).isSome) :
    HasNumber (nodeNumbers mRootNode) path := by
  obtain ⟨i, hi⟩ := Option.isSome_iff_exists.mp h
  have hfirst := ((nodeTree mRootNode).inverse_numbers path i).mp hi
  refine ⟨i, hi, hfirst, ?_⟩
  have hlt := (List.getElem?_eq_some_iff.mp hfirst).1
  have hle := length_walked_le (mRootNode.map fun _ => ()) 0 []
  rw [Rose.count_map, ← first_nodeNumbers] at hle
  exact (hlt.trans_le hle).trans hcount

/-- The positions do not decrease on the way from the root. -/
theorem isSome_second_iff_isChain {path : List ℕ} (h : (mRootNode.at? path).isSome) :
    ((nodeNumbers mRootNode).second path).isSome ↔ path.IsChain (· ≥ ·) := by
  have hpath : ((mRootNode.map fun _ => ()).at? path).isSome := by
    rwa [Rose.at?_map, Option.isSome_map]
  rw [isSome_second_iff, mem_walked_iff hpath, List.isChain_append]
  exact and_iff_left ⟨List.isChain_singleton 0, fun i _ j hj => by
    cases hj
    exact Nat.zero_le i⟩

/-! ## Numbers of meshes -/

theorem buildMeshMap_eq (mMeshes : Counted (AiMesh ai)) :
    (buildMeshMap mMeshes).first = List.range mMeshes.toList.length ∧
      ∀ i, (buildMeshMap mMeshes).second i =
        if i < mMeshes.toList.length then some i else none := by
  rw [buildMeshMap]
  generalize mMeshes.toList.length = count
  induction count with
  | zero => exact ⟨rfl, fun i => rfl⟩
  | succ count ih =>
      obtain ⟨hfirst, hsecond⟩ := ih
      rw [List.range_succ, List.foldl_concat]
      refine ⟨congrArg (· ++ [count]) hfirst, fun i => ?_⟩
      change Function.update _ _ _ i = _
      by_cases hi : i = count
      · subst hi
        rw [Function.update_self, if_pos (Nat.lt_succ_self i)]
      · rw [Function.update_of_ne hi, hsecond]
        exact if_congr (by omega) rfl rfl

theorem hasNumber_buildMeshMap {mMeshes : Counted (AiMesh ai)} {i : ℕ}
    (h : i < mMeshes.toList.length) : HasNumber (buildMeshMap mMeshes) i := by
  obtain ⟨hfirst, hsecond⟩ := buildMeshMap_eq mMeshes
  refine ⟨i, by rw [hsecond, if_pos h], by rw [hfirst, List.getElem?_range h], ?_⟩
  exact h.trans (mMeshes.length_lt.trans (by decide))

theorem buildMeshMap_map (mMeshes : Counted (AiMesh ai)) (f : AiMesh ai → AiMesh ai) :
    buildMeshMap (mMeshes.map f) = buildMeshMap mMeshes := by
  rw [buildMeshMap, buildMeshMap, Counted.map, List.length_map]

/-! ## Exceptions -/

section

variable {α ν : Type} {call : Call ai.model} {f : α → Calls ai}

theorem mem_saveOption {x : α} {pointer : Option α} (hx : x ∈ pointer) (h : call ∈ f x) :
    call ∈ saveOption f pointer := by
  obtain rfl := Option.mem_def.mp hx
  exact List.mem_cons_of_mem _ h

theorem mem_saveCounted {x : α} {xs : Counted α} (hx : x ∈ xs.toList) (h : call ∈ f x) :
    call ∈ saveCounted f xs :=
  List.mem_append_right _ (List.mem_flatMap_of_mem hx h)

theorem outOfRange_mem_savePointer {map : NodeMap ν} {pointer : ν}
    (h : ¬ (map.second pointer).isSome) :
    Call.outOfRange ∈ (savePointer map pointer : Calls ai) := by
  rw [savePointer, Option.not_isSome_iff_eq_none.mp h]
  exact List.mem_singleton_self _

end

variable {nodeMap : NodeMap (List ℕ)} {path : List ℕ}

theorem outOfRange_mem_saveBone {pBone : AiBone ai} (hpath : path ∈ pBone.nodes)
    (h : ¬ (nodeMap.second path).isSome) : .outOfRange ∈ saveBone nodeMap pBone := by
  have hmem : .outOfRange ∈ (savePointer nodeMap path : Calls ai) := outOfRange_mem_savePointer h
  rcases List.mem_append.mp hpath with hpath | hpath
  · have hcall := mem_saveOption (Option.mem_toList.mp hpath) hmem
    simp only [saveBone, List.mem_flatten, List.mem_cons]
    exact ⟨_, .inr (.inl rfl), hcall⟩
  · have hcall := mem_saveOption (Option.mem_toList.mp hpath) hmem
    simp only [saveBone, List.mem_flatten, List.mem_cons]
    exact ⟨_, .inr (.inr (.inl rfl)), hcall⟩

theorem outOfRange_mem_saveMeshOf {pMesh : AiMesh ai} (hpath : path ∈ pMesh.nodes)
    (h : ¬ (nodeMap.second path).isSome) : .outOfRange ∈ saveMeshOf nodeMap pMesh := by
  obtain ⟨pBone, hbone, hpath⟩ := List.mem_flatMap.mp hpath
  have hcall := mem_saveCounted hbone (outOfRange_mem_saveBone hpath h)
  simp only [saveMeshOf, List.mem_flatten, List.mem_cons]
  exact ⟨_, .inr (.inr (.inr (.inr (.inr (.inr (.inr (.inr (.inl rfl)))))))), hcall⟩

theorem outOfRange_mem_saveSkeletonBone {meshMap : NodeMap ℕ} {pBone : AiSkeletonBone ai}
    (hpath : path ∈ pBone.nodes) (h : ¬ (nodeMap.second path).isSome) :
    .outOfRange ∈ saveSkeletonBone nodeMap meshMap pBone := by
  have hmem : .outOfRange ∈ (savePointer nodeMap path : Calls ai) := outOfRange_mem_savePointer h
  rcases List.mem_append.mp hpath with hpath | hpath
  · have hcall := mem_saveOption (Option.mem_toList.mp hpath) hmem
    simp only [saveSkeletonBone, List.mem_flatten, List.mem_cons]
    exact ⟨_, .inr (.inl rfl), hcall⟩
  · have hcall := mem_saveOption (Option.mem_toList.mp hpath) hmem
    simp only [saveSkeletonBone, List.mem_flatten, List.mem_cons]
    exact ⟨_, .inr (.inr (.inl rfl)), hcall⟩

theorem outOfRange_mem_saveSkeleton {meshMap : NodeMap ℕ} {pSkeleton : AiSkeleton ai}
    (hpath : path ∈ pSkeleton.nodes) (h : ¬ (nodeMap.second path).isSome) :
    .outOfRange ∈ saveSkeleton nodeMap meshMap pSkeleton := by
  obtain ⟨pBone, hbone, hpath⟩ := List.mem_flatMap.mp hpath
  have hcall : .outOfRange ∈ saveCounted (saveSkeletonBone nodeMap meshMap) pSkeleton.mBones :=
    mem_saveCounted hbone (outOfRange_mem_saveSkeletonBone hpath h)
  simp only [saveSkeleton, List.mem_flatten, List.mem_cons]
  exact ⟨_, .inr (.inl rfl), hcall⟩

/-! ## Scenes -/

/-- The nodes that the bones of a scene refer to. -/
def AiScene.nodes (pScene : AiScene ai) : List (List ℕ) :=
  pScene.mMeshes.toList.flatMap AiMesh.nodes ++ pScene.mSkeletons.toList.flatMap AiSkeleton.nodes

/-- The meshes that the bones of a scene refer to. -/
def AiScene.meshes (pScene : AiScene ai) : List ℕ :=
  pScene.mSkeletons.toList.flatMap AiSkeleton.meshes

/-- The vertices of the meshes and the animated meshes. -/
def AiMesh.vertexStreams (pMesh : AiMesh ai) : List (AiVertices ai) :=
  pMesh.vertices :: pMesh.mAnimMeshes.toList.map AiAnimMesh.vertices

/-- The calls of the four save functions, with the numbers that a node map gives. -/
def AiScene.calls (pScene : AiScene ai) (nodeMap : NodeMap (List ℕ)) : Calls ai := List.flatten [
  saveNode pScene.mRootNode,
  saveCounted (saveMeshOf nodeMap) pScene.mMeshes,
  saveCounted (saveSkeleton nodeMap (buildMeshMap pScene.mMeshes)) pScene.mSkeletons,
  saveAnimations pScene]

theorem saveScene_eq (fuel : ℕ) (pScene : AiScene ai) :
    saveScene fuel pScene = (AssimpCache.nodeMap pScene.mRootNode fuel).map pScene.calls := by
  rw [saveScene, saveMeshes, saveSkeletons]
  cases AssimpCache.nodeMap pScene.mRootNode fuel <;> rfl

/-- Bones refer to nodes and meshes of the scene, and what is saved fits in a marshal. -/
structure AiScene.Valid (pScene : AiScene ai) : Prop where
  narrow : Narrow pScene.mRootNode
  nodes : ∀ path ∈ pScene.nodes, (pScene.mRootNode.at? path).isSome
  meshes : ∀ i ∈ pScene.meshes, i < pScene.mMeshes.toList.length
  fits : ∀ fuel calls, saveScene fuel pScene = some calls → (bytes calls).length < 2 ^ 63

/-- What has been saved is loaded as it was, up to the end and without an exception or a write to
memory that is not allocated. -/
def RoundTrips (pScene : AiScene ai) : Prop :=
  ∃ enough, ∀ fuel ≥ enough, ∃ calls s s', saveScene fuel pScene = some calls ∧
    perform Stream.empty calls = some s ∧
    loadScene fuel (s.setPosition 0) = some (pScene, s') ∧ s'.pos = s'.size

/-- Colours that are cut off are zero. -/
def AiVertices.ColorsKept (pMesh : AiVertices ai) : Prop :=
  ∀ colors ∈ pMesh.mColors.toList, ∀ pColors ∈ colors,
    ∀ byte ∈ pColors.toList.drop (savedColors pMesh.mNumVertices), byte = 0

structure AiScene.Kept (pScene : AiScene ai) : Prop where
  numbered : ∀ path ∈ pScene.nodes, path.IsChain (· ≥ ·)
  morphsEmpty : ∀ pAnimation ∈ pScene.mAnimations.toList, pAnimation.MorphsEmpty
  colors : ∀ pMesh ∈ pScene.mMeshes.toList, ∀ vertices ∈ pMesh.vertexStreams, vertices.ColorsKept

/-! ## What is loaded -/

def AiScene.reloaded (pScene : AiScene ai) : AiScene ai :=
  { pScene with mMeshes := pScene.mMeshes.map AiMesh.reloaded }

theorem list_map_eq_self_iff {α : Type} {f : α → α} {xs : List α} :
    xs.map f = xs ↔ ∀ x ∈ xs, f x = x := by
  have h := List.map_inj_left (f := f) (g := id) (l := xs)
  rwa [List.map_id] at h

theorem Counted.map_eq_self_iff {α : Type} {f : α → α} {xs : Counted α} :
    xs.map f = xs ↔ ∀ x ∈ xs.toList, f x = x := by
  obtain ⟨xs, hlength⟩ := xs
  rw [Counted.map, Counted.mk.injEq, list_map_eq_self_iff]

theorem option_map_eq_self_iff {α : Type} {f : α → α} {x : Option α} :
    x.map f = x ↔ ∀ y ∈ x, f y = y := by
  cases x <;> simp

theorem AiVertices.reloaded_eq_iff {pMesh : AiVertices ai} :
    pMesh.reloaded = pMesh ↔ pMesh.ColorsKept := by
  have hcolors : pMesh.reloaded = pMesh ↔
      pMesh.mColors.map (Option.map reloadedColors) = pMesh.mColors := by
    cases pMesh
    simp [reloaded]
  rw [hcolors, ← List.Vector.toList_injective.eq_iff, List.Vector.toList_map,
    list_map_eq_self_iff]
  refine forall₂_congr fun colors _ => ?_
  rw [option_map_eq_self_iff]
  exact forall₂_congr fun pColors _ => reloadedColors_eq_iff pColors

theorem AiMesh.reloaded_eq_iff {pMesh : AiMesh ai} :
    pMesh.reloaded = pMesh ↔ ∀ vertices ∈ pMesh.vertexStreams, vertices.ColorsKept := by
  have hparts : pMesh.reloaded = pMesh ↔ pMesh.vertices.reloaded = pMesh.vertices ∧
      pMesh.mAnimMeshes.map AiAnimMesh.reloaded = pMesh.mAnimMeshes := by
    cases pMesh
    simp [reloaded]
  have hanim (pAnimatedMesh : AiAnimMesh ai) :
      pAnimatedMesh.reloaded = pAnimatedMesh ↔ pAnimatedMesh.vertices.ColorsKept := by
    rw [← AiVertices.reloaded_eq_iff]
    cases pAnimatedMesh
    simp [AiAnimMesh.reloaded]
  rw [hparts, vertexStreams, List.forall_mem_cons, AiVertices.reloaded_eq_iff,
    Counted.map_eq_self_iff, List.forall_mem_map]
  exact and_congr_right fun _ => forall₂_congr fun pAnimatedMesh _ => hanim pAnimatedMesh

theorem AiScene.reloaded_eq_iff {pScene : AiScene ai} :
    pScene.reloaded = pScene ↔
      ∀ pMesh ∈ pScene.mMeshes.toList, ∀ vertices ∈ pMesh.vertexStreams,
        vertices.ColorsKept := by
  have hmeshes : pScene.reloaded = pScene ↔
      pScene.mMeshes.map AiMesh.reloaded = pScene.mMeshes := by
    cases pScene
    simp [reloaded]
  rw [hmeshes, Counted.map_eq_self_iff]
  exact forall₂_congr fun pMesh _ => AiMesh.reloaded_eq_iff

section

variable {pScene : AiScene ai} {fuel : ℕ}

/-- The pointers of the bones have numbers. -/
structure AiScene.Numbered (pScene : AiScene ai) (nodeMap : NodeMap (List ℕ)) : Prop where
  nodes : ∀ path ∈ pScene.nodes, HasNumber nodeMap path
  meshes : ∀ i ∈ pScene.meshes, HasNumber (buildMeshMap pScene.mMeshes) i

theorem loads_loadMeshes (h : pScene.Numbered nodeMap)
    (hmap : AssimpCache.nodeMap pScene.mRootNode fuel = some nodeMap) :
    Loads (loadMeshes fuel pScene.mRootNode) (saveCounted (saveMeshOf nodeMap) pScene.mMeshes)
      pScene.reloaded.mMeshes := by
  rw [loadMeshes, hmap]
  exact loads_loadCounted _ fun pMesh hmesh => loads_loadMeshOf fun path hpath =>
    h.nodes path (List.mem_append_left _ (List.mem_flatMap_of_mem hmesh hpath))

theorem loads_loadSkeletons (h : pScene.Numbered nodeMap)
    (hmap : AssimpCache.nodeMap pScene.mRootNode fuel = some nodeMap) :
    Loads (loadSkeletons fuel pScene.mRootNode pScene.reloaded.mMeshes)
      (saveCounted (saveSkeleton nodeMap (buildMeshMap pScene.mMeshes)) pScene.mSkeletons)
      pScene.mSkeletons := by
  rw [loadSkeletons, hmap, AiScene.reloaded, buildMeshMap_map]
  exact loads_loadCounted_self _ fun pSkeleton hskeleton => loads_loadSkeleton
    (fun path hpath => h.nodes path
      (List.mem_append_right _ (List.mem_flatMap_of_mem hskeleton hpath)))
    (fun i hi => h.meshes i (List.mem_flatMap_of_mem hskeleton hi))

theorem loads_loadScene (hnarrow : Narrow pScene.mRootNode) (h : pScene.Numbered nodeMap)
    (hmap : AssimpCache.nodeMap pScene.mRootNode fuel = some nodeMap)
    (hfuel : pScene.mRootNode.count ≤ fuel)
    (hmorphs : ∀ pAnimation ∈ pScene.mAnimations.toList, pAnimation.MorphsEmpty) :
    Loads (loadScene fuel) (pScene.calls nodeMap) pScene.reloaded := by
  refine (loads_loadNode hnarrow hfuel).bind ?_
  refine (loads_loadMeshes h hmap).bind ?_
  refine (loads_loadSkeletons h hmap).bind ?_
  refine (loads_loadCounted_self _ fun pAnimation hanimation =>
    loads_loadAnimation (hmorphs pAnimation hanimation)).bind ?_
  exact .pure pScene.reloaded

theorem fails_loadScene (hnarrow : Narrow pScene.mRootNode) (h : pScene.Numbered nodeMap)
    (hmap : AssimpCache.nodeMap pScene.mRootNode fuel = some nodeMap)
    (hfuel : pScene.mRootNode.count ≤ fuel)
    (hmorphs : ∃ pAnimation ∈ pScene.mAnimations.toList, ¬ pAnimation.MorphsEmpty) :
    Fails (loadScene fuel : Load (AiScene ai)) (pScene.calls nodeMap) := by
  have hanimations : Fails (loadAnimations : Load (Counted (AiAnimation ai)))
      (saveAnimations pScene) :=
    fails_loadCounted _ (fun _ _ => loads_loadAnimation) (fun _ _ => fails_loadAnimation) hmorphs
  refine (loads_loadNode hnarrow hfuel).bind_fails ?_
  refine (loads_loadMeshes h hmap).bind_fails ?_
  refine (loads_loadSkeletons h hmap).bind_fails ?_
  exact (hanimations.append (List.forall_mem_nil _)).bind _

/-! ## Scenes that come back -/

theorem one_le_length_saveString (str : AiString ai) : 1 ≤ (bytes (saveString str)).length := by
  have hbytes : bytes (saveString str) = countedBytes byteBytes str.data :=
    List.flatMap_singleton _ _
  rw [hbytes, countedBytes, List.length_append, LittleEndian.length_toBytes]
  omega

/-- There are more bytes than nodes. -/
theorem count_le_length_bytes (mRootNode : Rose (AiNodeData ai)) :
    mRootNode.count ≤ (bytes (saveNode mRootNode)).length := by
  induction mRootNode using Rose.induct with
  | h pNode mChildren ih =>
      have hall (pChildren : List (Rose (AiNodeData ai))) (hsub : ∀ c ∈ pChildren, c ∈ mChildren) :
          Rose.countAll pChildren ≤ (bytes (saveNodes pChildren)).length := by
        induction pChildren with
        | nil => exact Nat.zero_le _
        | cons pChild pChildren ihc =>
            obtain ⟨hchild, hsub⟩ := List.forall_mem_cons.mp hsub
            rw [saveNodes, bytes_append, List.length_append, Rose.countAll_cons]
            exact Nat.add_le_add (ih pChild hchild) (ihc hsub)
      have hname := one_le_length_saveString pNode.mName
      have hchildren := hall mChildren fun _ hc => hc
      rw [Rose.count_eq, Rose.children_node, saveNode]
      simp only [List.flatten_cons, bytes_append, List.length_append]
      omega

/-- A scene without an exception has numbers for all of its nodes. -/
theorem isSome_second_of_notMem (h : .outOfRange ∉ pScene.calls nodeMap) :
    ∀ path ∈ pScene.nodes, (nodeMap.second path).isSome := by
  intro path hpath
  by_contra hnot
  refine h (List.mem_flatten.mpr ?_)
  rcases List.mem_append.mp hpath with hpath | hpath
  · obtain ⟨pMesh, hmesh, hpath⟩ := List.mem_flatMap.mp hpath
    exact ⟨_, List.mem_cons_of_mem _ (List.mem_cons_self ..),
      mem_saveCounted hmesh (outOfRange_mem_saveMeshOf hpath hnot)⟩
  · obtain ⟨pSkeleton, hskeleton, hpath⟩ := List.mem_flatMap.mp hpath
    exact ⟨_, List.mem_cons_of_mem _ (List.mem_cons_of_mem _ (List.mem_cons_self ..)),
      mem_saveCounted hskeleton (outOfRange_mem_saveSkeleton hpath hnot)⟩

theorem count_lt_of_fits (hfits : (bytes (pScene.calls nodeMap)).length < 2 ^ 63) :
    pScene.mRootNode.count < 2 ^ 64 := by
  have hle := count_le_length_bytes pScene.mRootNode
  rw [AiScene.calls, List.flatten_cons, bytes_append, List.length_append] at hfits
  omega

theorem AiScene.Valid.numbered (h : pScene.Valid)
    (hfits : (bytes (pScene.calls nodeMap)).length < 2 ^ 63)
    (hnodes : ∀ path ∈ pScene.nodes, ((nodeNumbers pScene.mRootNode).second path).isSome) :
    pScene.Numbered (nodeNumbers pScene.mRootNode) where
  nodes path hpath := hasNumber_of_isSome (count_lt_of_fits hfits) (hnodes path hpath)
  meshes i hi := hasNumber_buildMeshMap (h.meshes i hi)

theorem exists_perform {calls : Calls ai} (hvalid : ∀ call ∈ calls, call.Valid)
    (hfits : (bytes calls).length < 2 ^ 63) :
    ∃ s, perform Stream.empty calls = some s ∧
      Stream.Ahead (s.setPosition 0) (bytes calls ++ []) := by
  obtain ⟨s, hs, hholds⟩ := perform_eq Stream.holds_empty hvalid hfits
  rw [List.nil_append] at hholds
  exact ⟨s, hs, (List.append_nil (bytes calls)).symm ▸ hholds.rewind⟩

theorem RoundTrips.kept (h : pScene.Valid) (hround : RoundTrips pScene) : pScene.Kept := by
  obtain ⟨enough, henough⟩ := exists_nodeMap pScene.mRootNode
  obtain ⟨least, hleast⟩ := hround
  let fuel := max least (max enough pScene.mRootNode.count)
  have hmap := henough fuel ((le_max_left _ _).trans (le_max_right _ _))
  have hfuel : pScene.mRootNode.count ≤ fuel := (le_max_right _ _).trans (le_max_right _ _)
  obtain ⟨calls, s, s', hcalls, hs, hload, -⟩ := hleast fuel (le_max_left _ _)
  have hfits := h.fits fuel calls hcalls
  obtain rfl : pScene.calls (nodeNumbers pScene.mRootNode) = calls := by
    rw [saveScene_eq, hmap] at hcalls
    exact Option.some.inj hcalls
  have hnodes := isSome_second_of_notMem (outOfRange_notMem_of_perform hs)
  have hnumbered := h.numbered hfits hnodes
  have hmorphs : ∀ pAnimation ∈ pScene.mAnimations.toList, pAnimation.MorphsEmpty := by
    by_contra hnot
    push Not at hnot
    have hfails := fails_loadScene h.narrow hnumbered hmap hfuel hnot
    obtain ⟨s₁, hs₁, hahead⟩ := exists_perform hfails.valid hfits
    obtain rfl : s = s₁ := Option.some.inj (hs.symm.trans hs₁)
    rw [hfails.answer hahead] at hload
    cases hload
  have hloads := loads_loadScene h.narrow hnumbered hmap hfuel hmorphs
  obtain ⟨s₁, hs₁, hahead⟩ := exists_perform hloads.valid hfits
  obtain rfl : s = s₁ := Option.some.inj (hs.symm.trans hs₁)
  obtain ⟨s₂, hs₂, -⟩ := hloads.answer hahead
  have hreloaded : pScene.reloaded = pScene :=
    (Prod.mk.inj (Option.some.inj (hs₂.symm.trans hload))).1
  exact ⟨fun path hpath => (isSome_second_iff_isChain (h.nodes path hpath)).mp (hnodes path hpath),
    hmorphs, AiScene.reloaded_eq_iff.mp hreloaded⟩

theorem AiScene.Kept.roundTrips (h : pScene.Valid) (hkept : pScene.Kept) : RoundTrips pScene := by
  obtain ⟨enough, henough⟩ := exists_nodeMap pScene.mRootNode
  refine ⟨max enough pScene.mRootNode.count, fun fuel hfuel => ?_⟩
  have hmap := henough fuel ((le_max_left _ _).trans hfuel)
  have hcalls : saveScene fuel pScene = some (pScene.calls (nodeNumbers pScene.mRootNode)) := by
    rw [saveScene_eq, hmap, Option.map_some]
  have hfits := h.fits fuel _ hcalls
  have hnumbered := h.numbered hfits fun path hpath =>
    (isSome_second_iff_isChain (h.nodes path hpath)).mpr (hkept.numbered path hpath)
  have hloads := loads_loadScene h.narrow hnumbered hmap ((le_max_right _ _).trans hfuel)
    hkept.morphsEmpty
  rw [AiScene.reloaded_eq_iff.mpr hkept.colors] at hloads
  obtain ⟨s, hs, hahead⟩ := exists_perform hloads.valid hfits
  obtain ⟨s', hs', hahead⟩ := hloads.answer hahead
  exact ⟨_, s, s', hcalls, hs, hs', hahead.pos_eq_size⟩

/-- A scene is loaded as it was saved exactly if its numbers, morphing keys and colours are kept. -/
theorem scene_roundTrips_iff (pScene : AiScene ai) (h : pScene.Valid) :
    RoundTrips pScene ↔ pScene.Kept := by
  constructor
  · intro hround
    exact hround.kept h
  · intro hkept
    exact hkept.roundTrips h

end

/-! ## Two scenes -/

theorem narrow_of_count (h : mRootNode.count ≤ 2 ^ 32) : Narrow mRootNode := by
  intro path pNode hnode
  have hle := Rose.count_at?_le hnode
  have hlt := pNode.length_children_lt_count
  omega

theorem fits_of_nodeNumbers {pScene : AiScene ai}
    (h : (bytes (pScene.calls (nodeNumbers pScene.mRootNode))).length < 2 ^ 63) :
    ∀ fuel calls, saveScene fuel pScene = some calls → (bytes calls).length < 2 ^ 63 := by
  intro fuel calls hcalls
  rw [saveScene_eq] at hcalls
  obtain ⟨map, hmap, rfl⟩ := Option.map_eq_some_iff.mp hcalls
  rwa [(nodeTree pScene.mRootNode).eq_numbers hmap]

/-- Sizes on 64 bits. -/
def headers : AssimpHeaders where
  model := .lp64
  aiMatrix4x4 := 64
  aiVertexWeight := 8
  aiVectorKey := 24
  aiQuatKey := 24
  aiMeshKey := 16
  maxNumberOfColorSets := 8
  maxNumberOfTextureCoords := 8
  longest := 1023
  longest_lt := by decide

def shortName : AiString headers := ⟨[97], by decide, by decide⟩

def plainNode : AiNodeData headers where
  mName := shortName
  mTransformation := .replicate _ 0
  mMeshes := ⟨0, .nil⟩

def Counted.empty {α : Type} : Counted α := ⟨[], Nat.two_pow_pos 32⟩

def Counted.single {α : Type} (x : α) : Counted α := ⟨[x], by simp⟩

/-- A mesh of one vertex with a bone at a node. -/
def bonedMesh (pNode : List ℕ) : AiMesh headers where
  mPrimitiveTypes := 1
  mMaterialIndex := 0
  mMethod := 0
  mAABB := .replicate _ 0
  vertices :=
    { mName := shortName
      mNumVertices := 1
      mColors := .replicate _ none
      mVertices := some (.replicate _ 1)
      mNormals := none
      mTangents := none
      mBitangents := none
      mTextureCoords := .replicate _ none }
  mNumUVComponents := .replicate _ 0
  mTextureCoordsNames := none
  mFaces := .empty
  mBones := .single
    { mName := shortName
      mArmature := none
      mNode := some pNode
      mWeights := ⟨0, .nil⟩
      mOffsetMatrix := .replicate _ 0 }
  mAnimMeshes := .empty

def bonedScene : AiScene headers where
  mRootNode := .node plainNode [.node plainNode []]
  mMeshes := .single (bonedMesh [0])
  mSkeletons := .empty
  mAnimations := .empty

theorem scene_roundTrips_iff_boned : RoundTrips bonedScene ↔ bonedScene.Kept :=
  scene_roundTrips_iff bonedScene ⟨narrow_of_count (by decide), by decide, by decide,
    fits_of_nodeNumbers (by decide +kernel)⟩

/-- An animation with a key that has one value. -/
def morphScene : AiScene headers where
  mRootNode := .node plainNode []
  mMeshes := .empty
  mSkeletons := .empty
  mAnimations := .single
    { mName := shortName
      mDuration := CppType.zero _ _
      mTicksPerSecond := CppType.zero _ _
      mChannels := .empty
      mMeshChannels := .empty
      mMorphMeshChannels := .single
        { mName := shortName
          mKeys := .single
            { mTime := CppType.zero _ _
              mNumValuesAndWeights := 1
              mValues := .replicate _ 0
              mWeights := .replicate _ 0 } } }

theorem not_roundTrips_morphScene : morphScene.Valid ∧ ¬ RoundTrips morphScene := by
  have hvalid : morphScene.Valid := ⟨narrow_of_count (by decide), by decide, by decide,
    fits_of_nodeNumbers (by decide +kernel)⟩
  refine ⟨hvalid, fun h => ?_⟩
  have hempty : (1 : UInt32) = 0 := (h.kept hvalid).morphsEmpty _ (List.mem_singleton_self _) _
    (List.mem_singleton_self _) _ (List.mem_singleton_self _)
  exact absurd hempty (by decide)

end AssimpCache

end SRCommon
