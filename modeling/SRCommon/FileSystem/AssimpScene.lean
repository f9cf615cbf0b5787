import Mathlib.Data.List.TakeWhile
import Mathlib.Data.Vector.Basic
import SRCommon.Common.BaseMarshal
import SRCommon.Lib.RoseTree

/-!
# Scenes of assimp

The structs that the cache saves. A pointer to a node is the path to the node,
one to a mesh is the position of the mesh, and any other one is what it leads
to. What is copied byte by byte is its bytes.
-/

namespace SRCommon

namespace AssimpCache

/-- What the cache relies on in the headers of assimp: the sizes of structs and three limits. The
longest string has one byte less than `AI_MAXLEN`. -/
structure AssimpHeaders where
  model : DataModel
  aiMatrix4x4 : UInt32
  aiVertexWeight : UInt32
  aiVectorKey : UInt32
  aiQuatKey : UInt32
  aiMeshKey : UInt32
  maxNumberOfColorSets : ℕ
  maxNumberOfTextureCoords : ℕ
  longest : ℕ
  longest_lt : longest < 32768

abbrev Bytes (size : UInt32) := List.Vector UInt8 size.toNat

/-- Structs of `size` bytes in a row. -/
abbrev Elements (count size : UInt32) := List.Vector UInt8 (count.toNat * size.toNat)

/-- An array with a count of 32 bits. -/
structure Counted (α : Type) where
  toList : List α
  length_lt : toList.length < 2 ^ 32

namespace Counted

variable {α β : Type}

def ofVector {count : UInt32} (xs : List.Vector α count.toNat) : Counted α :=
  ⟨xs.toList, xs.toList_length.trans_lt count.toNat_lt⟩

def map (f : α → β) (xs : Counted α) : Counted β :=
  ⟨xs.toList.map f, (List.length_map f).trans_lt xs.length_lt⟩

@[simp] theorem map_id (xs : Counted α) : xs.map id = xs := by
  cases xs
  simp [map]

def count (xs : Counted α) : UInt32 := UInt32.ofNat xs.toList.length

end Counted

structure AiArray (size : UInt32) where
  count : UInt32
  elements : Elements count size

section

variable (ai : AssimpHeaders)

/-- A string up to the zero byte at its end. -/
structure AiString where
  data : List UInt8
  length_le : data.length ≤ ai.longest
  nonzero : 0 ∉ data

structure AiNodeData where
  mName : AiString ai
  mTransformation : Bytes ai.aiMatrix4x4
  mMeshes : AiArray 4

/-- What `SaveMesh` saves of an `aiMesh` or an `aiAnimMesh`. -/
structure AiVertices where
  mName : AiString ai
  mNumVertices : UInt32
  mColors : List.Vector (Option (Elements mNumVertices 16)) ai.maxNumberOfColorSets
  mVertices : Option (Elements mNumVertices 12)
  mNormals : Option (Elements mNumVertices 12)
  mTangents : Option (Elements mNumVertices 12)
  mBitangents : Option (Elements mNumVertices 12)
  mTextureCoords :
    List.Vector (Option (Elements mNumVertices 12)) ai.maxNumberOfTextureCoords

structure AiBone where
  mName : AiString ai
  mArmature : Option (List ℕ)
  mNode : Option (List ℕ)
  mWeights : AiArray ai.aiVertexWeight
  mOffsetMatrix : Bytes ai.aiMatrix4x4

structure AiAnimMesh where
  mWeight : CppType.Value ai.model .float
  vertices : AiVertices ai

structure AiMesh where
  mPrimitiveTypes : UInt32
  mMaterialIndex : UInt32
  mMethod : UInt32
  mAABB : Bytes 24
  vertices : AiVertices ai
  mNumUVComponents : List.Vector UInt32 ai.maxNumberOfTextureCoords
  mTextureCoordsNames : Option (List.Vector (Option (AiString ai)) ai.maxNumberOfTextureCoords)
  mFaces : Counted (AiArray 4)
  mBones : Counted (AiBone ai)
  mAnimMeshes : Counted (AiAnimMesh ai)

structure AiSkeletonBone where
  mMeshId : Option ℕ
  mArmature : Option (List ℕ)
  mNode : Option (List ℕ)
  mParent : BitVec 32
  mWeights : AiArray ai.aiVertexWeight
  mLocalMatrix : Bytes ai.aiMatrix4x4
  mOffsetMatrix : Bytes ai.aiMatrix4x4

structure AiSkeleton where
  mName : AiString ai
  mBones : Counted (AiSkeletonBone ai)

structure AiNodeAnim where
  mNodeName : AiString ai
  mPreState : UInt32
  mPostState : UInt32
  mPositionKeys : Option (AiArray ai.aiVectorKey)
  mRotationKeys : Option (AiArray ai.aiQuatKey)
  mScalingKeys : Option (AiArray ai.aiVectorKey)

structure AiMeshAnim where
  mName : AiString ai
  mKeys : Option (AiArray ai.aiMeshKey)

structure AiMeshMorphKey where
  mTime : CppType.Value ai.model .double
  mNumValuesAndWeights : UInt32
  mValues : Elements mNumValuesAndWeights 4
  mWeights : Elements mNumValuesAndWeights 8

structure AiMeshMorphAnim where
  mName : AiString ai
  mKeys : Counted (AiMeshMorphKey ai)

structure AiAnimation where
  mName : AiString ai
  mDuration : CppType.Value ai.model .double
  mTicksPerSecond : CppType.Value ai.model .double
  mChannels : Counted (AiNodeAnim ai)
  mMeshChannels : Counted (AiMeshAnim ai)
  mMorphMeshChannels : Counted (AiMeshMorphAnim ai)

structure AiScene where
  mRootNode : Rose (AiNodeData ai)
  mMeshes : Counted (AiMesh ai)
  mSkeletons : Counted (AiSkeleton ai)
  mAnimations : Counted (AiAnimation ai)

end

/-- `operator=(const std::string&)` on a new string, which stays empty if the other is too long. -/
def AiString.assign {ai : AssimpHeaders} (str : List UInt8) : AiString ai :=
  if h : str.length ≤ ai.longest then
    { data := str.takeWhile (· != 0)
      length_le := (List.takeWhile_prefix _).length_le.trans h
      nonzero := fun hmem => by simpa using List.mem_takeWhile_imp hmem }
  else ⟨[], Nat.zero_le _, List.not_mem_nil⟩

theorem AiString.assign_data {ai : AssimpHeaders} (str : AiString ai) : assign str.data = str := by
  have hall : str.data.takeWhile (· != 0) = str.data := by
    rw [List.takeWhile_eq_self_iff]
    intro byte hbyte
    rw [bne_iff_ne]
    rintro rfl
    exact str.nonzero hbyte
  rw [assign, dif_pos str.length_le]
  simp only [hall]

end AssimpCache

end SRCommon
