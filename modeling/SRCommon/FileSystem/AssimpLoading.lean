import SRCommon.FileSystem.AssimpCache

/-!
# What is loaded of what has been saved

Each load function returns what the save function of the same struct was given.
Two of them do not: colours are cut off where the size of their block wraps
around, and a key of a morphing channel that has any values is written through
null pointers.
-/

namespace SRCommon

namespace AssimpCache

open Marshal MarshalUtils

variable {ai : AssimpHeaders}

/-! ## Pieces -/

theorem loads_loadString (str : AiString ai) : Loads loadString (saveString str) str := by
  have hlength : str.data.length < 32768 := str.length_le.trans_lt ai.longest_lt
  have h := (loads_string (m := ai.model) hlength).map (AiString.assign : List UInt8 → AiString ai)
  rwa [str.assign_data] at h

theorem loads_loadUInt32 (value : UInt32) :
    Loads (loadUInt32 ai) (saveUInt32 value : Calls ai) value := by
  have h := (loads_uint64 (m := ai.model) value.toUInt64).map UInt64.toUInt32
  rwa [UInt32.toUInt32_toUInt64] at h

section

variable {α β : Type} {g : Load β} {f : α → Calls ai} {k : α → β}

theorem loads_loadOption (x : Option α) (h : ∀ y ∈ x, Loads g (f y) (k y)) :
    Loads (loadOption ai g) (saveOption f x) (x.map k) := by
  cases x with
  | none => exact (loads_flag false).cons (.pure none)
  | some y => exact (loads_flag true).cons ((h y rfl).map some)

theorem loads_loadCounted (xs : Counted α) (h : ∀ x ∈ xs.toList, Loads g (f x) (k x)) :
    Loads (loadCounted ai g) (saveCounted f xs) (xs.map k) := by
  have hcount : xs.toList.length = xs.count.toNat := (UInt32.toNat_ofNat_of_lt' xs.length_lt).symm
  refine (loads_loadUInt32 xs.count).bind ?_
  exact (Loads.each ⟨xs.toList, hcount⟩ h).map Counted.ofVector

end

section

variable {α : Type} {g : Load α} {f : α → Calls ai}

theorem loads_loadOption_self (x : Option α) (h : ∀ y ∈ x, Loads g (f y) y) :
    Loads (loadOption ai g) (saveOption f x) x := by
  have hread := loads_loadOption x (k := id) h
  rwa [Option.map_id_fun, id] at hread

theorem loads_loadCounted_self (xs : Counted α) (h : ∀ x ∈ xs.toList, Loads g (f x) x) :
    Loads (loadCounted ai g) (saveCounted f xs) xs := by
  have hread := loads_loadCounted xs (k := id) h
  rwa [Counted.map_id] at hread

/-- The first element that is not read ends it. -/
theorem fails_loadCounted {Good : α → Prop} (xs : Counted α)
    (hgood : ∀ x ∈ xs.toList, Good x → Loads g (f x) x)
    (hbad : ∀ x ∈ xs.toList, ¬ Good x → Fails g (f x)) (h : ∃ x ∈ xs.toList, ¬ Good x) :
    Fails (loadCounted ai g) (saveCounted f xs) := by
  have hcount : xs.toList.length = xs.count.toNat := (UInt32.toNat_ofNat_of_lt' xs.length_lt).symm
  refine (loads_loadUInt32 xs.count).bind_fails ?_
  exact (Fails.each (g := id) ⟨xs.toList, hcount⟩ hgood hbad h).bind _

theorem loads_each_self {count : ℕ} (xs : List.Vector α count)
    (h : ∀ x ∈ xs.toList, Loads g (f x) x) :
    Loads (Load.each g count) (xs.toList.flatMap f) xs := by
  have hread := Loads.each xs (g := id) h
  rwa [List.Vector.map_id] at hread

end

theorem toNat_mul_toUInt64 (count size : UInt32) :
    (count.toUInt64 * size.toUInt64).toNat = count.toNat * size.toNat := by
  have hlt : count.toNat * size.toNat < 2 ^ 32 * 2 ^ 32 :=
    Nat.mul_lt_mul'' count.toNat_lt size.toNat_lt
  rw [UInt64.toNat_mul, UInt32.toNat_toUInt64, UInt32.toNat_toUInt64]
  exact Nat.mod_eq_of_lt hlt

theorem length_indeterminate (n : ℕ) : (indeterminate n).length = n := List.length_replicate

theorem length_zeros (n : ℕ) : (zeros n).length = n := List.length_replicate

theorem loads_loadElements {count size : UInt32} (elements : Elements count size)
    {pDestination : List Cell} (h : count > 0 → pDestination.length = count.toNat * size.toNat) :
    Loads (loadElements ai count size pDestination) (saveElements elements : Calls ai)
      elements := by
  rw [loadElements, saveElements]
  by_cases hcount : count > 0
  · rw [dif_pos hcount, if_pos hcount]
    exact loads_block_toList elements (toNat_mul_toUInt64 count size) (h hcount)
  · rw [dif_neg hcount, if_neg hcount]
    have hnil : elements = ⟨[], zero_eq_mul_of_not_pos hcount _⟩ := by
      apply Subtype.ext
      apply List.eq_nil_of_length_eq_zero
      exact elements.2.trans (zero_eq_mul_of_not_pos hcount _).symm
    rw [hnil]
    exact .pure _

/-- Elements are written through a null pointer. -/
theorem fails_loadElements {count size : UInt32} (elements : Elements count size)
    (hcount : count > 0) (hsize : size > 0) :
    Fails (loadElements ai count size []) (saveElements elements : Calls ai) := by
  have hblock : (count.toUInt64 * size.toUInt64).toNat = elements.toList.length := by
    rw [toNat_mul_toUInt64, elements.toList_length]
  have hroom : ([] : List Cell).length < (count.toUInt64 * size.toUInt64).toNat := by
    rw [toNat_mul_toUInt64]
    exact Nat.mul_pos (UInt32.lt_iff_toNat_lt.mp hcount) (UInt32.lt_iff_toNat_lt.mp hsize)
  rw [loadElements, saveElements, dif_pos hcount, if_pos hcount]
  exact (fails_readBlock hblock.le hroom).bind _

theorem loads_loadArray {size : UInt32} (array : AiArray size) :
    Loads (loadArray ai size) (saveArray array : Calls ai) array :=
  (loads_loadUInt32 array.count).bind
    ((loads_loadElements array.elements fun _ => length_indeterminate _).map _)

theorem loads_loadKeys {size : UInt32} (keys : AiArray size) :
    Loads (loadKeys ai size) (saveKeys keys : Calls ai) keys :=
  (loads_loadUInt32 keys.count).bind
    ((loads_block_toList keys.elements (toNat_mul_toUInt64 keys.count size)
      (length_indeterminate _)).map _)

theorem loads_loadMatrix (matrix : Bytes ai.aiMatrix4x4) :
    Loads loadMatrix (saveMatrix matrix) matrix :=
  loads_block_toList matrix (UInt32.toNat_toUInt64 _) (length_indeterminate _)

/-- The number of the pointer leads back to it. -/
def HasNumber {ν : Type} (map : NodeMap ν) (pointer : ν) : Prop :=
  ∃ i, map.second pointer = some i ∧ map.first[i]? = some pointer ∧ i < 2 ^ 64

theorem loads_loadPointer {ν : Type} {map : NodeMap ν} {pointer : ν} (h : HasNumber map pointer) :
    Loads (loadPointer ai map) (savePointer map pointer : Calls ai) pointer := by
  obtain ⟨i, hsecond, hfirst, hi⟩ := h
  have hvalue : (UInt64.ofNat i).toNat = i := UInt64.toNat_ofNat_of_lt' hi
  rw [savePointer, hsecond]
  refine (loads_uint64 (UInt64.ofNat i)).cons ?_
  rw [hvalue, hfirst]
  exact .pure pointer

/-! ## Nodes -/

theorem saveNodes_eq (mChildren : List (Rose (AiNodeData ai))) :
    saveNodes mChildren = mChildren.flatMap saveNode := by
  induction mChildren with
  | nil => rw [saveNodes, List.flatMap_nil]
  | cons pChild pChildren ih => rw [saveNodes, ih, List.flatMap_cons]

/-- The numbers of children have 32 bits. -/
def Narrow (mRootNode : Rose (AiNodeData ai)) : Prop :=
  ∀ path pNode, mRootNode.at? path = some pNode → pNode.children.length < 2 ^ 32

theorem Narrow.child {mRootNode pChild : Rose (AiNodeData ai)} (h : Narrow mRootNode)
    (hchild : pChild ∈ mRootNode.children) : Narrow pChild := by
  intro path pNode hnode
  obtain ⟨i, hi⟩ := List.mem_iff_getElem?.mp hchild
  refine h (path ++ [i]) pNode ?_
  rw [Rose.at?_append_singleton, hi, Option.bind_some, hnode]

theorem loads_loadNode {mRootNode : Rose (AiNodeData ai)} {fuel : ℕ} (hnarrow : Narrow mRootNode)
    (hfuel : mRootNode.count ≤ fuel) : Loads (loadNode fuel) (saveNode mRootNode) mRootNode := by
  induction fuel generalizing mRootNode with
  | zero => exact absurd mRootNode.count_pos (Nat.not_lt.mpr hfuel)
  | succ fuel ih =>
      obtain ⟨pNode, mChildren⟩ := mRootNode
      have hlength : mChildren.length = (UInt32.ofNat mChildren.length).toNat :=
        (UInt32.toNat_ofNat_of_lt' (hnarrow [] _ rfl)).symm
      have hchildren (pChild) (hchild : pChild ∈ mChildren) :
          Loads (loadNode fuel) (saveNode pChild) pChild := by
        refine ih (hnarrow.child hchild) ?_
        have hle := Rose.count_le_countAll hchild
        rw [Rose.count_eq, Rose.children_node] at hfuel
        omega
      have heach := loads_each_self ⟨mChildren, hlength⟩ hchildren
      rw [saveNode, saveNodes_eq]
      refine (loads_loadString _).bind ?_
      refine (loads_loadMatrix _).bind ?_
      refine (loads_loadKeys _).bind ?_
      refine (loads_loadUInt32 _).bind ?_
      refine heach.bind ?_
      exact .pure (Rose.node pNode mChildren)

/-! ## Meshes -/

/-- The bytes of the colours that `SaveMesh` saves. -/
def savedColors (count : UInt32) : ℕ := count.toNat % 2 ^ 30 * 16

theorem toNat_sizeOfColors (count : UInt32) :
    ((count * 4).toUInt64 * 4).toNat = savedColors count := by
  have hlt := count.toNat_lt
  rw [UInt64.toNat_mul, UInt32.toNat_toUInt64, UInt32.toNat_mul, savedColors]
  change count.toNat * 4 % 2 ^ 32 * 4 % 2 ^ 64 = _
  omega

theorem savedColors_le (count : UInt32) : savedColors count ≤ count.toNat * 16 :=
  Nat.mul_le_mul_right 16 (Nat.mod_le _ _)

/-- The colours behind the saved ones are zero. -/
def reloadedColors {count : UInt32} (pColors : Elements count 16) : Elements count 16 where
  val := pColors.toList.take (savedColors count) ++
    List.replicate (count.toNat * 16 - savedColors count) 0
  property := by
    have hlength : pColors.toList.length = count.toNat * 16 := pColors.toList_length
    have hle := savedColors_le count
    change _ = count.toNat * 16
    rw [List.length_append, List.length_take, List.length_replicate]
    omega

theorem loads_loadColors {count : UInt32} (pColors : Elements count 16) :
    Loads (loadColors ai count) (saveColors pColors : Calls ai) (reloadedColors pColors) := by
  have hlength : pColors.toList.length = count.toNat * 16 := pColors.toList_length
  have hle := savedColors_le count
  have hsize := toNat_sizeOfColors count
  refine loads_block (reloadedColors pColors) (by omega) (by rw [length_zeros]; omega) ?_
  rw [hsize, zeros, List.drop_replicate, ← List.map_replicate, ← List.map_append]
  rfl

theorem reloadedColors_eq_iff {count : UInt32} (pColors : Elements count 16) :
    reloadedColors pColors = pColors ↔
      ∀ byte ∈ pColors.toList.drop (savedColors count), byte = 0 := by
  have hlength : pColors.toList.length = count.toNat * 16 := pColors.toList_length
  have hrest : (pColors.toList.drop (savedColors count)).length =
      count.toNat * 16 - savedColors count := by rw [List.length_drop, hlength]
  have hzero : (∀ byte ∈ pColors.toList.drop (savedColors count), byte = 0) ↔
      pColors.toList.drop (savedColors count) =
        List.replicate (count.toNat * 16 - savedColors count) 0 :=
    (List.eq_replicate_iff.trans (and_iff_right hrest)).symm
  have happend := List.take_append_drop (savedColors count) pColors.toList
  rw [hzero, eq_comm, ← List.append_right_inj (pColors.toList.take (savedColors count)), happend]
  exact List.Vector.toList_injective.eq_iff.symm

theorem loads_loadVectors {count : UInt32} (vectors : Elements count 12) :
    Loads (loadVectors ai count) (saveVectors vectors : Calls ai) vectors := by
  have hsize : (count.toUInt64 * 4 * 3).toNat = count.toNat * 12 := by
    have hlt := count.toNat_lt
    rw [UInt64.toNat_mul, UInt64.toNat_mul, UInt32.toNat_toUInt64]
    change count.toNat * 4 % 2 ^ 64 * 3 % 2 ^ 64 = _
    omega
  exact loads_block_toList vectors hsize (length_zeros _)

/-- What is loaded for a mesh. -/
def AiVertices.reloaded (pMesh : AiVertices ai) : AiVertices ai :=
  { pMesh with mColors := pMesh.mColors.map (Option.map reloadedColors) }

def AiAnimMesh.reloaded (pAnimatedMesh : AiAnimMesh ai) : AiAnimMesh ai :=
  { pAnimatedMesh with vertices := pAnimatedMesh.vertices.reloaded }

def AiMesh.reloaded (pMesh : AiMesh ai) : AiMesh ai :=
  { pMesh with
    vertices := pMesh.vertices.reloaded
    mAnimMeshes := pMesh.mAnimMeshes.map AiAnimMesh.reloaded }

theorem loads_loadMesh (pMesh : AiVertices ai) :
    Loads loadMesh (saveMesh pMesh) pMesh.reloaded := by
  refine (loads_loadString _).bind ?_
  refine (loads_loadUInt32 _).bind ?_
  refine (Loads.each _ fun colors _ => loads_loadOption colors
    fun pColors _ => loads_loadColors pColors).bind ?_
  refine (loads_loadOption_self _ fun vectors _ => loads_loadVectors vectors).bind ?_
  refine (loads_loadOption_self _ fun vectors _ => loads_loadVectors vectors).bind ?_
  refine (loads_loadOption_self _ fun vectors _ => loads_loadVectors vectors).bind ?_
  refine (loads_loadOption_self _ fun vectors _ => loads_loadVectors vectors).bind ?_
  refine (loads_each_self _ fun coords _ => loads_loadOption_self coords
    fun vectors _ => loads_loadVectors vectors).bind ?_
  exact .pure pMesh.reloaded

theorem loads_loadAnimMesh (pAnimatedMesh : AiAnimMesh ai) :
    Loads loadAnimMesh (saveAnimMesh pAnimatedMesh) pAnimatedMesh.reloaded := by
  refine (loads_scalar rfl pAnimatedMesh.mWeight).bind ?_
  refine (loads_loadMesh _).bind ?_
  exact .pure pAnimatedMesh.reloaded

/-- The nodes that a bone refers to. -/
def AiBone.nodes (pBone : AiBone ai) : List (List ℕ) :=
  pBone.mArmature.toList ++ pBone.mNode.toList

def AiMesh.nodes (pMesh : AiMesh ai) : List (List ℕ) := pMesh.mBones.toList.flatMap AiBone.nodes

theorem loads_loadBone {nodeMap : NodeMap (List ℕ)} {pBone : AiBone ai}
    (h : ∀ pNode ∈ pBone.nodes, HasNumber nodeMap pNode) :
    Loads (loadBone nodeMap) (saveBone nodeMap pBone) pBone := by
  obtain ⟨hmArmature, hmNode⟩ := List.forall_mem_append.mp h
  refine (loads_loadString _).bind ?_
  refine (loads_loadOption_self _ fun pNode hnode =>
    loads_loadPointer (hmArmature pNode (Option.mem_toList.mpr hnode))).bind ?_
  refine (loads_loadOption_self _ fun pNode hnode =>
    loads_loadPointer (hmNode pNode (Option.mem_toList.mpr hnode))).bind ?_
  refine (loads_loadArray _).bind ?_
  refine (loads_loadMatrix _).bind ?_
  exact .pure pBone

theorem loads_loadMeshOf {nodeMap : NodeMap (List ℕ)} {pMesh : AiMesh ai}
    (h : ∀ pNode ∈ pMesh.nodes, HasNumber nodeMap pNode) :
    Loads (loadMeshOf nodeMap) (saveMeshOf nodeMap pMesh) pMesh.reloaded := by
  refine (loads_loadUInt32 _).bind ?_
  refine (loads_loadUInt32 _).bind ?_
  refine (loads_loadUInt32 _).bind ?_
  refine (loads_block_toList pMesh.mAABB rfl (length_indeterminate _)).bind ?_
  refine (loads_loadMesh _).bind ?_
  refine (loads_each_self _ fun value _ => loads_loadUInt32 value).bind ?_
  refine (loads_loadOption_self _ fun names _ => loads_each_self names fun name _ =>
    loads_loadOption_self name fun str _ => loads_loadString str).bind ?_
  refine (loads_loadCounted_self _ fun face _ => loads_loadArray face).bind ?_
  refine (loads_loadCounted_self _ fun pBone hbone => loads_loadBone fun pNode hnode =>
    h pNode (List.mem_flatMap_of_mem hbone hnode)).bind ?_
  refine (loads_loadCounted _ fun pAnimatedMesh _ => loads_loadAnimMesh pAnimatedMesh).bind ?_
  exact .pure pMesh.reloaded

/-! ## Skeletons -/

def AiSkeletonBone.nodes (pBone : AiSkeletonBone ai) : List (List ℕ) :=
  pBone.mArmature.toList ++ pBone.mNode.toList

def AiSkeleton.nodes (pSkeleton : AiSkeleton ai) : List (List ℕ) :=
  pSkeleton.mBones.toList.flatMap AiSkeletonBone.nodes

def AiSkeleton.meshes (pSkeleton : AiSkeleton ai) : List ℕ :=
  pSkeleton.mBones.toList.flatMap fun pBone => pBone.mMeshId.toList

theorem loads_loadParent (mParent : BitVec 32) :
    Loads (loadParent ai) (saveParent mParent : Calls ai) mParent := by
  have h := (loads_uint64 (m := ai.model) (UInt64.ofBitVec (mParent.signExtend 64))).map
    fun value => value.toBitVec.setWidth 32
  have hvalue : (mParent.signExtend 64).setWidth 32 = mParent := by
    ext i hi
    have hi' : i < 64 := hi.trans (by decide)
    rw [BitVec.getElem_setWidth, BitVec.getLsbD_signExtend]
    simp [hi, hi']
  rwa [show (UInt64.ofBitVec (mParent.signExtend 64)).toBitVec.setWidth 32 = mParent from hvalue]
    at h

theorem loads_loadSkeletonBone {nodeMap : NodeMap (List ℕ)} {meshMap : NodeMap ℕ}
    {pBone : AiSkeletonBone ai} (hnodes : ∀ pNode ∈ pBone.nodes, HasNumber nodeMap pNode)
    (hmesh : ∀ pMesh ∈ pBone.mMeshId, HasNumber meshMap pMesh) :
    Loads (loadSkeletonBone nodeMap meshMap) (saveSkeletonBone nodeMap meshMap pBone) pBone := by
  obtain ⟨hmArmature, hmNode⟩ := List.forall_mem_append.mp hnodes
  refine (loads_loadOption_self _ fun pMesh hpMesh => loads_loadPointer (hmesh pMesh hpMesh)).bind ?_
  refine (loads_loadOption_self _ fun pNode hnode =>
    loads_loadPointer (hmArmature pNode (Option.mem_toList.mpr hnode))).bind ?_
  refine (loads_loadOption_self _ fun pNode hnode =>
    loads_loadPointer (hmNode pNode (Option.mem_toList.mpr hnode))).bind ?_
  refine (loads_loadParent _).bind ?_
  refine (loads_loadArray _).bind ?_
  refine (loads_loadMatrix _).bind ?_
  refine (loads_loadMatrix _).bind ?_
  exact .pure pBone

theorem loads_loadSkeleton {nodeMap : NodeMap (List ℕ)} {meshMap : NodeMap ℕ}
    {pSkeleton : AiSkeleton ai} (hnodes : ∀ pNode ∈ pSkeleton.nodes, HasNumber nodeMap pNode)
    (hmeshes : ∀ pMesh ∈ pSkeleton.meshes, HasNumber meshMap pMesh) :
    Loads (loadSkeleton nodeMap meshMap) (saveSkeleton nodeMap meshMap pSkeleton) pSkeleton := by
  refine (loads_loadString _).bind ?_
  refine (loads_loadCounted_self _ fun pBone hbone => loads_loadSkeletonBone
    (fun pNode hnode => hnodes pNode (List.mem_flatMap_of_mem hbone hnode))
    (fun pMesh hmesh => hmeshes pMesh
      (List.mem_flatMap_of_mem hbone (Option.mem_toList.mpr hmesh)))).bind ?_
  exact .pure pSkeleton

/-! ## Animations -/

theorem loads_loadDouble (value : CppType.Value ai.model .double) :
    Loads loadDouble (saveDouble value) value := loads_scalar rfl value

theorem loads_loadChannel (pChannel : AiNodeAnim ai) :
    Loads loadChannel (saveChannel pChannel) pChannel := by
  refine (loads_loadString _).bind ?_
  refine (loads_loadUInt32 _).bind ?_
  refine (loads_loadUInt32 _).bind ?_
  refine (loads_loadOption_self _ fun keys _ => loads_loadKeys keys).bind ?_
  refine (loads_loadOption_self _ fun keys _ => loads_loadKeys keys).bind ?_
  refine (loads_loadOption_self _ fun keys _ => loads_loadKeys keys).bind ?_
  exact .pure pChannel

theorem loads_loadMeshChannel (pMeshChannel : AiMeshAnim ai) :
    Loads loadMeshChannel (saveMeshChannel pMeshChannel) pMeshChannel := by
  refine (loads_loadString _).bind ?_
  refine (loads_loadOption_self _ fun keys _ => loads_loadKeys keys).bind ?_
  exact .pure pMeshChannel

def AiMeshMorphKey.IsEmpty (key : AiMeshMorphKey ai) : Prop := key.mNumValuesAndWeights = 0

def AiMeshMorphAnim.IsEmpty (pMorphMeshChannel : AiMeshMorphAnim ai) : Prop :=
  ∀ key ∈ pMorphMeshChannel.mKeys.toList, key.IsEmpty

/-- No key of a morphing channel has any values. -/
def AiAnimation.MorphsEmpty (pAnimation : AiAnimation ai) : Prop :=
  ∀ channel ∈ pAnimation.mMorphMeshChannels.toList, channel.IsEmpty

theorem loads_loadMorphKey {key : AiMeshMorphKey ai} (h : key.IsEmpty) :
    Loads loadMorphKey (saveMorphKey key) key := by
  have hnot : ¬ key.mNumValuesAndWeights > 0 := by
    rw [show key.mNumValuesAndWeights = 0 from h]
    decide
  refine (loads_loadDouble _).bind ?_
  refine (loads_loadUInt32 _).bind ?_
  refine (loads_loadElements _ fun hpos => absurd hpos hnot).bind ?_
  refine (loads_loadElements _ fun hpos => absurd hpos hnot).bind ?_
  exact .pure key

theorem fails_loadMorphKey {key : AiMeshMorphKey ai} (h : ¬ key.IsEmpty) :
    Fails (loadMorphKey : Load (AiMeshMorphKey ai)) (saveMorphKey key) := by
  have hpos : key.mNumValuesAndWeights > 0 := UInt32.pos_iff_ne_zero.mpr h
  refine (loads_loadDouble _).bind_fails ?_
  refine (loads_loadUInt32 _).bind_fails ?_
  have hweights : Loads (loadElements ai _ 8 (indeterminate _)) (saveElements key.mWeights)
      key.mWeights := loads_loadElements _ fun _ => length_indeterminate _
  have hrest := List.forall_mem_append.mpr ⟨hweights.valid, List.forall_mem_nil _⟩
  exact ((fails_loadElements key.mValues hpos (by decide)).append hrest).bind _

theorem loads_loadMorphMeshChannel {pMorphMeshChannel : AiMeshMorphAnim ai}
    (h : pMorphMeshChannel.IsEmpty) :
    Loads loadMorphMeshChannel (saveMorphMeshChannel pMorphMeshChannel) pMorphMeshChannel := by
  refine (loads_loadString _).bind ?_
  refine (loads_loadCounted_self _ fun key hkey => loads_loadMorphKey (h key hkey)).bind ?_
  exact .pure pMorphMeshChannel

theorem fails_loadMorphMeshChannel {pMorphMeshChannel : AiMeshMorphAnim ai}
    (h : ¬ pMorphMeshChannel.IsEmpty) :
    Fails (loadMorphMeshChannel : Load (AiMeshMorphAnim ai))
      (saveMorphMeshChannel pMorphMeshChannel) := by
  have hkeys : Fails (loadCounted ai loadMorphKey)
      (saveCounted saveMorphKey pMorphMeshChannel.mKeys) :=
    fails_loadCounted _ (fun _ _ => loads_loadMorphKey) (fun _ _ => fails_loadMorphKey) (by
      simpa [AiMeshMorphAnim.IsEmpty] using h)
  refine (loads_loadString _).bind_fails ?_
  exact (hkeys.append (List.forall_mem_nil _)).bind _

theorem loads_loadAnimation {pAnimation : AiAnimation ai} (h : pAnimation.MorphsEmpty) :
    Loads loadAnimation (saveAnimation pAnimation) pAnimation := by
  refine (loads_loadString _).bind ?_
  refine (loads_loadDouble _).bind ?_
  refine (loads_loadDouble _).bind ?_
  refine (loads_loadCounted_self _ fun channel _ => loads_loadChannel channel).bind ?_
  refine (loads_loadCounted_self _ fun channel _ => loads_loadMeshChannel channel).bind ?_
  refine (loads_loadCounted_self _ fun channel hchannel =>
    loads_loadMorphMeshChannel (h channel hchannel)).bind ?_
  exact .pure pAnimation

theorem fails_loadAnimation {pAnimation : AiAnimation ai} (h : ¬ pAnimation.MorphsEmpty) :
    Fails (loadAnimation : Load (AiAnimation ai)) (saveAnimation pAnimation) := by
  have hchannels : Fails (loadCounted ai loadMorphMeshChannel)
      (saveCounted saveMorphMeshChannel pAnimation.mMorphMeshChannels) :=
    fails_loadCounted _ (fun _ _ => loads_loadMorphMeshChannel)
      (fun _ _ => fails_loadMorphMeshChannel) (by simpa [AiAnimation.MorphsEmpty] using h)
  refine (loads_loadString _).bind_fails ?_
  refine (loads_loadDouble _).bind_fails ?_
  refine (loads_loadDouble _).bind_fails ?_
  refine (loads_loadCounted_self _ fun channel _ => loads_loadChannel channel).bind_fails ?_
  refine (loads_loadCounted_self _ fun channel _ => loads_loadMeshChannel channel).bind_fails ?_
  exact (hchannels.append (List.forall_mem_nil _)).bind _

end AssimpCache

end SRCommon
