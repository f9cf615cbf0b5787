import Mathlib.Algebra.Group.Nat.Defs
import Mathlib.Data.List.AList
import SRCommon.Lib.RoseTree

/-!
# Bones of a raw mesh

The order in which a hash map is walked through is any order. Matrices are not
looked into.
-/

namespace SRCommon

structure AiBone (κ α : Type) where
  mName : κ
  mOffsetMatrix : α

/-- `mNumBones` has 32 bits. -/
structure AiMesh (κ α : Type) where
  mBones : List (AiBone κ α)
  mNumBones_lt : mBones.length < 2 ^ 32

/-- Every node has its name and its transformation. -/
structure AiBoneScene (κ α : Type) where
  mRootNode : Rose (κ × α)
  mMeshes : List (AiMesh κ α)

/-- The bones of all meshes, as the loops come to them. -/
def AiBoneScene.bones {κ α : Type} (scene : AiBoneScene κ α) : List (AiBone κ α) :=
  scene.mMeshes.flatMap AiMesh.mBones

/-- What is done with matrices: they are decomposed and put together again. -/
structure BoneMatrices (α μ : Type) where
  decompose : α → μ
  identity : μ
  /-- A matrix that is not given. -/
  blank : μ

abbrev FlatHashMap (κ β : Type) := AList fun _ : κ => β

/-- An order of the keys of each map. -/
structure HashOrder (κ : Type) where
  order : {β : Type} → FlatHashMap κ β → List κ
  nodup : ∀ {β : Type} (m : FlatHashMap κ β), (order m).Nodup
  mem_order : ∀ {β : Type} (m : FlatHashMap κ β) (name : κ), name ∈ order m ↔ name ∈ m

structure RawMesh (κ μ : Type) where
  bones : List (FlatHashMap κ UInt32) := []
  optimizedBones : FlatHashMap κ UInt16 := ∅
  boneOffsetsMap : FlatHashMap κ μ := ∅
  boneTransformsMap : FlatHashMap κ μ := ∅
  boneOffsets : List μ := []
  boneTransforms : List μ := []

section

variable {κ α μ : Type} [DecidableEq κ]

/-- A key that is there keeps its value. -/
def FlatHashMap.add {β : Type} (m : FlatHashMap κ β) (name : κ) (value : β) : FlatHashMap κ β :=
  if name ∈ m then m else m.insert name value

/-- `std::vector::resize`. -/
def resize (values : List μ) (n : ℕ) (blank : μ) : List μ :=
  values.take n ++ List.replicate (n - values.length) blank

/-- The vector grows as far as the index asks for. -/
def storeAt (values : List μ) (i : ℕ) (value blank : μ) : List μ :=
  (if i ≥ values.length then resize values (i + 1) blank else values).set i value

def processNode (matrices : BoneMatrices α μ) (m : FlatHashMap κ μ) : Rose (κ × α) → FlatHashMap κ μ
  | .node pNode children =>
      processNodes (m.add pNode.1 (matrices.decompose pNode.2)) children
where
  processNodes (m : FlatHashMap κ μ) : List (Rose (κ × α)) → FlatHashMap κ μ
    | [] => m
    | child :: children => processNodes (processNode matrices m child) children

namespace RawMesh

variable (this : RawMesh κ μ) (scene : AiBoneScene κ α) (matrices : BoneMatrices α μ)
  (hash : HashOrder κ)

def addBones (bones : FlatHashMap κ UInt32) (pMesh : AiMesh κ α) : FlatHashMap κ UInt32 :=
  pMesh.mBones.foldl (fun bones bone => bones.add bone.mName bones.entries.length.toUInt32) bones

def calculateBones : RawMesh κ μ :=
  { this with
    bones := scene.mMeshes.mapIdx fun meshId pMesh =>
      addBones (this.bones.getD meshId ∅) pMesh }

/-- One round of the inner loop, on the map of a mesh that is changed in place. -/
def optimizeBone (s : FlatHashMap κ UInt16 × FlatHashMap κ UInt32) (hashName : κ) :
    FlatHashMap κ UInt16 × FlatHashMap κ UInt32 :=
  match s.1.lookup hashName with
  | some index => (s.1, s.2.insert hashName index.toUInt32)
  | none => (s.1.insert hashName ((s.2.lookup hashName).getD 0).toUInt16, s.2)

def optimizeMesh (optimizedBones : FlatHashMap κ UInt16) (mesh : FlatHashMap κ UInt32) :
    FlatHashMap κ UInt16 × FlatHashMap κ UInt32 :=
  (hash.order mesh).foldl optimizeBone (optimizedBones, mesh)

def optimizeMeshes (optimizedBones : FlatHashMap κ UInt16) :
    List (FlatHashMap κ UInt32) → FlatHashMap κ UInt16 × List (FlatHashMap κ UInt32)
  | [] => (optimizedBones, [])
  | mesh :: meshes =>
      let first := optimizeMesh hash optimizedBones mesh
      let rest := optimizeMeshes first.1 meshes
      (rest.1, first.2 :: rest.2)

def optimizeSkeleton : RawMesh κ μ :=
  let result := optimizeMeshes hash ∅ this.bones
  { this with optimizedBones := result.1, bones := result.2 }

def getBoneOffset (name : κ) : μ := (this.boneOffsetsMap.lookup name).getD matrices.identity

def getBoneTransform (name : κ) : μ := (this.boneTransformsMap.lookup name).getD matrices.identity

/-- A value for each name, at its index. -/
def storeBones (value : κ → μ) (values : List μ) : List μ :=
  (hash.order this.optimizedBones).foldl
    (fun values hashName => storeAt values
      ((this.optimizedBones.lookup hashName).getD 0).toNat (value hashName) matrices.blank)
    values

def calculateOffsets : RawMesh κ μ :=
  let this := { this with
    boneOffsetsMap := scene.bones.foldl
      (fun m (bone : AiBone κ α) => m.add bone.mName (matrices.decompose bone.mOffsetMatrix))
      this.boneOffsetsMap }
  { this with
    boneOffsets := this.storeBones matrices hash (this.getBoneOffset matrices)
      (resize this.boneOffsets this.boneOffsetsMap.entries.length matrices.blank) }

def calculateTransforms : RawMesh κ μ :=
  let m := processNode matrices ∅ scene.mRootNode
  let this := { this with
    boneTransformsMap := scene.bones.foldl
      (fun transforms (bone : AiBone κ α) =>
        (m.lookup bone.mName).elim transforms (transforms.add bone.mName))
      this.boneTransformsMap }
  { this with
    boneTransforms := this.storeBones matrices hash (this.getBoneTransform matrices)
      (resize this.boneTransforms this.boneTransformsMap.entries.length matrices.blank) }

/-- The four calculations of `Load`. -/
def calculate : RawMesh κ μ :=
  (((this.calculateBones scene).optimizeSkeleton hash).calculateOffsets scene matrices
    hash).calculateTransforms scene matrices hash

end RawMesh

end

end SRCommon
