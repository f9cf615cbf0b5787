import SRCommon.FileSystem.AssimpScene
import SRCommon.FileSystem.NodeNumbers
import SRCommon.Types.MarshalCalls

/-!
# Saving and loading of scenes

`AssimpCache` with the functions that `Save` and `Load` go through, one for
each struct. Constructors of assimp leave null pointers, and its colours and
vectors start with zeros.
-/

namespace SRCommon

namespace AssimpCache

open Marshal MarshalUtils

variable {ai : AssimpHeaders}

abbrev Calls (ai : AssimpHeaders) := List (Call ai.model)

/-! ## Pieces -/

def saveString (str : AiString ai) : Calls ai := [.write ⟨.string, str.data⟩]

def loadString : Load (AiString ai) := do
  let str ← Load.string ai.model
  pure (AiString.assign str)

/-- `unsigned int` values and enumerators go through a `uint64_t`. -/
def saveUInt32 (value : UInt32) : Calls ai := [.write (uint64 value.toUInt64)]

def loadUInt32 (ai : AssimpHeaders) : Load UInt32 := do
  let value ← Load.uint64 ai.model
  pure value.toUInt32

/-- A value behind a flag that says whether there is one. -/
def saveOption {α : Type} (f : α → Calls ai) : Option α → Calls ai
  | some x => .write (flag true) :: f x
  | none => [.write (flag false)]

def loadOption {α : Type} (ai : AssimpHeaders) (g : Load α) : Load (Option α) := do
  let has ← Load.flag ai.model
  if has then
    let x ← g
    pure (some x)
  else pure none

def saveCounted {α : Type} (f : α → Calls ai) (xs : Counted α) : Calls ai :=
  saveUInt32 xs.count ++ xs.toList.flatMap f

def loadCounted {α : Type} (ai : AssimpHeaders) (g : Load α) : Load (Counted α) := do
  let count ← loadUInt32 ai
  let xs ← Load.each g count.toNat
  pure (Counted.ofVector xs)

/-- The block of an array that has any elements. -/
def saveElements {count size : UInt32} (elements : Elements count size) : Calls ai :=
  if count > 0 then [.writeBlock elements.toList (count.toUInt64 * size.toUInt64)] else []

theorem zero_eq_mul_of_not_pos {count : UInt32} (h : ¬ count > 0) (size : ℕ) :
    0 = count.toNat * size := by
  have hzero : count.toNat = 0 :=
    Nat.eq_zero_of_le_zero (UInt32.le_iff_toNat_le.mp (UInt32.not_lt.mp h))
  rw [hzero, Nat.zero_mul]

def loadElements (ai : AssimpHeaders) (count size : UInt32) (pDestination : List Cell) :
    Load (Elements count size) :=
  if h : count > 0 then Load.block ai.model _ pDestination
  else pure ⟨[], zero_eq_mul_of_not_pos h _⟩

def saveArray {size : UInt32} (array : AiArray size) : Calls ai :=
  saveUInt32 array.count ++ saveElements array.elements

def loadArray (ai : AssimpHeaders) (size : UInt32) : Load (AiArray size) := do
  let count ← loadUInt32 ai
  let elements ← loadElements ai count size (indeterminate (count.toNat * size.toNat))
  pure ⟨count, elements⟩

/-- The block of an array that may have no elements. -/
def saveKeys {size : UInt32} (keys : AiArray size) : Calls ai :=
  saveUInt32 keys.count ++
    [.writeBlock keys.elements.toList (keys.count.toUInt64 * size.toUInt64)]

def loadKeys (ai : AssimpHeaders) (size : UInt32) : Load (AiArray size) := do
  let count ← loadUInt32 ai
  let elements ← Load.block ai.model _ (indeterminate (count.toNat * size.toNat))
  pure ⟨count, elements⟩

def saveMatrix (matrix : Bytes ai.aiMatrix4x4) : Calls ai :=
  [.writeBlock matrix.toList ai.aiMatrix4x4.toUInt64]

def loadMatrix : Load (Bytes ai.aiMatrix4x4) :=
  Load.block ai.model _ (indeterminate ai.aiMatrix4x4.toNat)

/-! ## Numbers for pointers -/

/-- `BuildNodeMap`, after at most so many rounds. -/
def nodeMap (mRootNode : Rose (AiNodeData ai)) (fuel : ℕ) : Option (NodeMap (List ℕ)) :=
  buildNodeMap (pathMemory (mRootNode.map fun _ => ())) (some []) fuel

def buildMeshMap (mMeshes : Counted (AiMesh ai)) : NodeMap ℕ :=
  (List.range mMeshes.toList.length).foldl (fun map i => map.list i i) {}

section

variable {ν : Type}

def savePointer (map : NodeMap ν) (pointer : ν) : Calls ai :=
  match map.second pointer with
  | some i => [.write (uint64 (UInt64.ofNat i))]
  | none => [.outOfRange]

def loadPointer (ai : AssimpHeaders) (map : NodeMap ν) : Load ν := do
  let i ← Load.uint64 ai.model
  match map.first[i.toNat]? with
  | some pointer => pure pointer
  | none => failure

end

/-! ## Nodes -/

mutual

def saveNode : Rose (AiNodeData ai) → Calls ai
  | .node pNode mChildren => List.flatten [
      saveString pNode.mName,
      saveMatrix pNode.mTransformation,
      saveKeys pNode.mMeshes,
      saveUInt32 (UInt32.ofNat mChildren.length),
      saveNodes mChildren]

def saveNodes : List (Rose (AiNodeData ai)) → Calls ai
  | [] => []
  | pChild :: pChildren => saveNode pChild ++ saveNodes pChildren

end

/-- The nodes of a tree that is not deeper than the bound. -/
def loadNode : ℕ → Load (Rose (AiNodeData ai))
  | 0 => failure
  | fuel + 1 => do
      let mName ← loadString
      let mTransformation ← loadMatrix
      let mMeshes ← loadKeys ai 4
      let mNumChildren ← loadUInt32 ai
      let mChildren ← Load.each (loadNode fuel) mNumChildren.toNat
      pure (.node ⟨mName, mTransformation, mMeshes⟩ mChildren.toList)

/-! ## Meshes -/

/-- The product with 4 has 32 bits. -/
def saveColors {count : UInt32} (pColors : Elements count 16) : Calls ai :=
  [.writeBlock pColors.toList ((count * 4).toUInt64 * 4)]

def loadColors (ai : AssimpHeaders) (count : UInt32) : Load (Elements count 16) :=
  Load.block ai.model _ (zeros (count.toNat * 16))

def saveVectors {count : UInt32} (vectors : Elements count 12) : Calls ai :=
  [.writeBlock vectors.toList (count.toUInt64 * 4 * 3)]

def loadVectors (ai : AssimpHeaders) (count : UInt32) : Load (Elements count 12) :=
  Load.block ai.model _ (zeros (count.toNat * 12))

def saveMesh (pMesh : AiVertices ai) : Calls ai := List.flatten [
  saveString pMesh.mName,
  saveUInt32 pMesh.mNumVertices,
  pMesh.mColors.toList.flatMap (saveOption saveColors),
  saveOption saveVectors pMesh.mVertices,
  saveOption saveVectors pMesh.mNormals,
  saveOption saveVectors pMesh.mTangents,
  saveOption saveVectors pMesh.mBitangents,
  pMesh.mTextureCoords.toList.flatMap (saveOption saveVectors)]

def loadMesh : Load (AiVertices ai) := do
  let mName ← loadString
  let mNumVertices ← loadUInt32 ai
  let mColors ← Load.each (loadOption ai (loadColors ai mNumVertices)) ai.maxNumberOfColorSets
  let mVertices ← loadOption ai (loadVectors ai mNumVertices)
  let mNormals ← loadOption ai (loadVectors ai mNumVertices)
  let mTangents ← loadOption ai (loadVectors ai mNumVertices)
  let mBitangents ← loadOption ai (loadVectors ai mNumVertices)
  let mTextureCoords ←
    Load.each (loadOption ai (loadVectors ai mNumVertices)) ai.maxNumberOfTextureCoords
  pure ⟨mName, mNumVertices, mColors, mVertices, mNormals, mTangents, mBitangents, mTextureCoords⟩

def saveBone (nodeMap : NodeMap (List ℕ)) (pBone : AiBone ai) : Calls ai := List.flatten [
  saveString pBone.mName,
  saveOption (savePointer nodeMap) pBone.mArmature,
  saveOption (savePointer nodeMap) pBone.mNode,
  saveArray pBone.mWeights,
  saveMatrix pBone.mOffsetMatrix]

def loadBone (nodeMap : NodeMap (List ℕ)) : Load (AiBone ai) := do
  let mName ← loadString
  let mArmature ← loadOption ai (loadPointer ai nodeMap)
  let mNode ← loadOption ai (loadPointer ai nodeMap)
  let mWeights ← loadArray ai ai.aiVertexWeight
  let mOffsetMatrix ← loadMatrix
  pure ⟨mName, mArmature, mNode, mWeights, mOffsetMatrix⟩

def saveAnimMesh (pAnimatedMesh : AiAnimMesh ai) : Calls ai := List.flatten [
  [.write ⟨.scalar .float, pAnimatedMesh.mWeight⟩],
  saveMesh pAnimatedMesh.vertices]

def loadAnimMesh : Load (AiAnimMesh ai) := do
  let mWeight ← readValue (.scalar .float)
  let vertices ← loadMesh
  pure ⟨mWeight, vertices⟩

/-- One round of `SaveMeshes`. -/
def saveMeshOf (nodeMap : NodeMap (List ℕ)) (pMesh : AiMesh ai) : Calls ai := List.flatten [
  saveUInt32 pMesh.mPrimitiveTypes,
  saveUInt32 pMesh.mMaterialIndex,
  saveUInt32 pMesh.mMethod,
  [.writeBlock pMesh.mAABB.toList (2 * 3 * 4)],
  saveMesh pMesh.vertices,
  pMesh.mNumUVComponents.toList.flatMap saveUInt32,
  saveOption (fun names => names.toList.flatMap (saveOption saveString))
    pMesh.mTextureCoordsNames,
  saveCounted saveArray pMesh.mFaces,
  saveCounted (saveBone nodeMap) pMesh.mBones,
  saveCounted saveAnimMesh pMesh.mAnimMeshes]

/-- One round of `LoadMeshes`. -/
def loadMeshOf (nodeMap : NodeMap (List ℕ)) : Load (AiMesh ai) := do
  let mPrimitiveTypes ← loadUInt32 ai
  let mMaterialIndex ← loadUInt32 ai
  let mMethod ← loadUInt32 ai
  let mAABB ← Load.block ai.model _ (indeterminate 24)
  let vertices ← loadMesh
  let mNumUVComponents ← Load.each (loadUInt32 ai) ai.maxNumberOfTextureCoords
  let mTextureCoordsNames ←
    loadOption ai (Load.each (loadOption ai loadString) ai.maxNumberOfTextureCoords)
  let mFaces ← loadCounted ai (loadArray ai 4)
  let mBones ← loadCounted ai (loadBone nodeMap)
  let mAnimMeshes ← loadCounted ai loadAnimMesh
  pure ⟨mPrimitiveTypes, mMaterialIndex, mMethod, mAABB, vertices, mNumUVComponents,
    mTextureCoordsNames, mFaces, mBones, mAnimMeshes⟩

def saveMeshes (fuel : ℕ) (pScene : AiScene ai) : Option (Calls ai) := do
  let nodeMap ← nodeMap pScene.mRootNode fuel
  some (saveCounted (saveMeshOf nodeMap) pScene.mMeshes)

def loadMeshes (fuel : ℕ) (mRootNode : Rose (AiNodeData ai)) : Load (Counted (AiMesh ai)) := do
  let nodeMap ← StateT.lift (nodeMap mRootNode fuel)
  loadCounted ai (loadMeshOf nodeMap)

/-! ## Skeletons -/

/-- An `int` goes through a `uint64_t`. -/
def saveParent (mParent : BitVec 32) : Calls ai :=
  [.write (uint64 (UInt64.ofBitVec (mParent.signExtend 64)))]

def loadParent (ai : AssimpHeaders) : Load (BitVec 32) := do
  let value ← Load.uint64 ai.model
  pure (value.toBitVec.setWidth 32)

def saveSkeletonBone (nodeMap : NodeMap (List ℕ)) (meshMap : NodeMap ℕ)
    (pBone : AiSkeletonBone ai) : Calls ai := List.flatten [
  saveOption (savePointer meshMap) pBone.mMeshId,
  saveOption (savePointer nodeMap) pBone.mArmature,
  saveOption (savePointer nodeMap) pBone.mNode,
  saveParent pBone.mParent,
  saveArray pBone.mWeights,
  saveMatrix pBone.mLocalMatrix,
  saveMatrix pBone.mOffsetMatrix]

def loadSkeletonBone (nodeMap : NodeMap (List ℕ)) (meshMap : NodeMap ℕ) :
    Load (AiSkeletonBone ai) := do
  let mMeshId ← loadOption ai (loadPointer ai meshMap)
  let mArmature ← loadOption ai (loadPointer ai nodeMap)
  let mNode ← loadOption ai (loadPointer ai nodeMap)
  let mParent ← loadParent ai
  let mWeights ← loadArray ai ai.aiVertexWeight
  let mLocalMatrix ← loadMatrix
  let mOffsetMatrix ← loadMatrix
  pure ⟨mMeshId, mArmature, mNode, mParent, mWeights, mLocalMatrix, mOffsetMatrix⟩

def saveSkeleton (nodeMap : NodeMap (List ℕ)) (meshMap : NodeMap ℕ) (pSkeleton : AiSkeleton ai) :
    Calls ai := List.flatten [
  saveString pSkeleton.mName,
  saveCounted (saveSkeletonBone nodeMap meshMap) pSkeleton.mBones]

def loadSkeleton (nodeMap : NodeMap (List ℕ)) (meshMap : NodeMap ℕ) : Load (AiSkeleton ai) := do
  let mName ← loadString
  let mBones ← loadCounted ai (loadSkeletonBone nodeMap meshMap)
  pure ⟨mName, mBones⟩

def saveSkeletons (fuel : ℕ) (pScene : AiScene ai) : Option (Calls ai) := do
  let nodeMap ← nodeMap pScene.mRootNode fuel
  some (saveCounted (saveSkeleton nodeMap (buildMeshMap pScene.mMeshes)) pScene.mSkeletons)

def loadSkeletons (fuel : ℕ) (mRootNode : Rose (AiNodeData ai)) (mMeshes : Counted (AiMesh ai)) :
    Load (Counted (AiSkeleton ai)) := do
  let nodeMap ← StateT.lift (nodeMap mRootNode fuel)
  loadCounted ai (loadSkeleton nodeMap (buildMeshMap mMeshes))

/-! ## Animations -/

def saveDouble (value : CppType.Value ai.model .double) : Calls ai :=
  [.write ⟨.scalar .double, value⟩]

def loadDouble : Load (CppType.Value ai.model .double) := readValue (.scalar .double)

def saveChannel (pChannel : AiNodeAnim ai) : Calls ai := List.flatten [
  saveString pChannel.mNodeName,
  saveUInt32 pChannel.mPreState,
  saveUInt32 pChannel.mPostState,
  saveOption saveKeys pChannel.mPositionKeys,
  saveOption saveKeys pChannel.mRotationKeys,
  saveOption saveKeys pChannel.mScalingKeys]

def loadChannel : Load (AiNodeAnim ai) := do
  let mNodeName ← loadString
  let mPreState ← loadUInt32 ai
  let mPostState ← loadUInt32 ai
  let mPositionKeys ← loadOption ai (loadKeys ai ai.aiVectorKey)
  let mRotationKeys ← loadOption ai (loadKeys ai ai.aiQuatKey)
  let mScalingKeys ← loadOption ai (loadKeys ai ai.aiVectorKey)
  pure ⟨mNodeName, mPreState, mPostState, mPositionKeys, mRotationKeys, mScalingKeys⟩

def saveMeshChannel (pMeshChannel : AiMeshAnim ai) : Calls ai := List.flatten [
  saveString pMeshChannel.mName,
  saveOption saveKeys pMeshChannel.mKeys]

def loadMeshChannel : Load (AiMeshAnim ai) := do
  let mName ← loadString
  let mKeys ← loadOption ai (loadKeys ai ai.aiMeshKey)
  pure ⟨mName, mKeys⟩

def saveMorphKey (key : AiMeshMorphKey ai) : Calls ai := List.flatten [
  saveDouble key.mTime,
  saveUInt32 key.mNumValuesAndWeights,
  saveElements key.mValues,
  saveElements key.mWeights]

/-- Nothing is allocated for the values and weights. -/
def loadMorphKey : Load (AiMeshMorphKey ai) := do
  let mTime ← loadDouble
  let mNumValuesAndWeights ← loadUInt32 ai
  let mValues ← loadElements ai mNumValuesAndWeights 4 []
  let mWeights ← loadElements ai mNumValuesAndWeights 8 []
  pure ⟨mTime, mNumValuesAndWeights, mValues, mWeights⟩

def saveMorphMeshChannel (pMorphMeshChannel : AiMeshMorphAnim ai) : Calls ai := List.flatten [
  saveString pMorphMeshChannel.mName,
  saveCounted saveMorphKey pMorphMeshChannel.mKeys]

def loadMorphMeshChannel : Load (AiMeshMorphAnim ai) := do
  let mName ← loadString
  let mKeys ← loadCounted ai loadMorphKey
  pure ⟨mName, mKeys⟩

def saveAnimation (pAnimation : AiAnimation ai) : Calls ai := List.flatten [
  saveString pAnimation.mName,
  saveDouble pAnimation.mDuration,
  saveDouble pAnimation.mTicksPerSecond,
  saveCounted saveChannel pAnimation.mChannels,
  saveCounted saveMeshChannel pAnimation.mMeshChannels,
  saveCounted saveMorphMeshChannel pAnimation.mMorphMeshChannels]

def loadAnimation : Load (AiAnimation ai) := do
  let mName ← loadString
  let mDuration ← loadDouble
  let mTicksPerSecond ← loadDouble
  let mChannels ← loadCounted ai loadChannel
  let mMeshChannels ← loadCounted ai loadMeshChannel
  let mMorphMeshChannels ← loadCounted ai loadMorphMeshChannel
  pure ⟨mName, mDuration, mTicksPerSecond, mChannels, mMeshChannels, mMorphMeshChannels⟩

def saveAnimations (pScene : AiScene ai) : Calls ai := saveCounted saveAnimation pScene.mAnimations

def loadAnimations : Load (Counted (AiAnimation ai)) := loadCounted ai loadAnimation

/-! ## Scenes -/

/-- `SaveNode`, `SaveMeshes`, `SaveSkeletons` and `SaveAnimations`. -/
def saveScene (fuel : ℕ) (pScene : AiScene ai) : Option (Calls ai) := do
  let meshes ← saveMeshes fuel pScene
  let skeletons ← saveSkeletons fuel pScene
  some (List.flatten [saveNode pScene.mRootNode, meshes, skeletons, saveAnimations pScene])

/-- `LoadNode`, `LoadMeshes`, `LoadSkeletons` and `LoadAnimations`. -/
def loadScene (fuel : ℕ) : Load (AiScene ai) := do
  let mRootNode ← loadNode fuel
  let mMeshes ← loadMeshes fuel mRootNode
  let mSkeletons ← loadSkeletons fuel mRootNode mMeshes
  let mAnimations ← loadAnimations
  pure ⟨mRootNode, mMeshes, mSkeletons, mAnimations⟩

end AssimpCache

end SRCommon
