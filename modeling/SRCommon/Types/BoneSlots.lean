import Mathlib.Algebra.GroupWithZero.Nat
import SRCommon.Types.BoneIndices

/-!
# Bone slots of vertices

Every weight of a mesh advances the counter of its vertex, which has eight bits,
and fills a slot as long as there is one. A store beside the slots has no meaning.
-/

namespace SRCommon

structure Vec2 (φ : Type) where
  x : φ
  y : φ

structure Vec3 (φ : Type) where
  x : φ
  y : φ
  z : φ

/-- `SR_MAX_BONES_ON_VERTEX`. -/
def maxBonesOnVertex : ℕ := 16

structure BoneWeight (φ : Type) where
  boneId : UInt32
  weight : φ

structure Vertex (φ : Type) where
  position : Vec3 φ
  uv : Vec2 φ
  normal : Vec3 φ
  tangent : Vec3 φ
  bitangent : Vec3 φ
  weightsNum : UInt8
  weights : Fin maxBonesOnVertex → BoneWeight φ

structure AiVertexWeight (n : ℕ) (φ : Type) where
  mVertexId : Fin n
  mWeight : φ

/-- Every array has a value for each vertex, or is not there. -/
structure AiSkinMesh (κ α φ : Type) extends AiMesh κ α where
  mNumVertices : ℕ
  mVertices : Fin mNumVertices → Vec3 φ
  mTextureCoords : Option (Fin mNumVertices → Vec3 φ)
  mNormals : Option (Fin mNumVertices → Vec3 φ)
  mTangents : Option (Fin mNumVertices → Vec3 φ)
  mBitangents : Fin mNumVertices → Vec3 φ
  mWeights : List (List (AiVertexWeight mNumVertices φ))
  length_mWeights : mWeights.length = mBones.length

structure AiSkinScene (κ α φ : Type) where
  mRootNode : Rose (κ × α)
  mMeshes : List (AiSkinMesh κ α φ)

def AiSkinScene.toBoneScene {κ α φ : Type} (scene : AiSkinScene κ α φ) : AiBoneScene κ α where
  mRootNode := scene.mRootNode
  mMeshes := scene.mMeshes.map AiSkinMesh.toAiMesh

/-- The weights with the names of their bones, as the two loops come to them. -/
def AiSkinMesh.boneWeights {κ α φ : Type} (mesh : AiSkinMesh κ α φ) :
    List (κ × AiVertexWeight mesh.mNumVertices φ) :=
  (mesh.mBones.zip mesh.mWeights).flatMap fun bone =>
    bone.2.map fun weight => (bone.1.mName, weight)

structure VertexFill (n : ℕ) (φ : Type) where
  vertices : Fin n → Vertex φ
  /-- The slots that have been written. -/
  written : List (Fin n × Fin maxBonesOnVertex) := []

section

variable {κ α μ φ : Type} [DecidableEq κ] [Zero φ]

/-- The vertices before the bones are looked at. -/
def AiSkinMesh.vertex (mesh : AiSkinMesh κ α φ) (i : Fin mesh.mNumVertices) : Vertex φ where
  position := mesh.mVertices i
  uv := mesh.mTextureCoords.elim ⟨0, 0⟩ fun uv => ⟨(uv i).x, (uv i).y⟩
  normal := mesh.mNormals.elim ⟨0, 0, 0⟩ fun normals => normals i
  tangent := mesh.mTangents.elim ⟨0, 0, 0⟩ fun tangents => tangents i
  bitangent := mesh.mTangents.elim ⟨0, 0, 0⟩ fun _ => mesh.mBitangents i
  weightsNum := 0
  weights _ := ⟨0, 0⟩

/-- The slot `weightsNum - 1`. -/
def boneSlot (weightsNum : UInt8) : Option (Fin maxBonesOnVertex) :=
  if h : 1 ≤ weightsNum.toNat ∧ weightsNum.toNat ≤ maxBonesOnVertex then
    some ⟨weightsNum.toNat - 1, by omega⟩
  else none

/-- The body of the inner loop. -/
def addWeight {n : ℕ} (bones : FlatHashMap κ UInt32) (s : VertexFill n φ)
    (w : κ × AiVertexWeight n φ) : Option (VertexFill n φ) :=
  let vertex := s.vertices w.2.mVertexId
  let vertex := { vertex with weightsNum := vertex.weightsNum + 1 }
  if maxBonesOnVertex < vertex.weightsNum.toNat then
    some { s with vertices := Function.update s.vertices w.2.mVertexId vertex }
  else
    (bones.lookup w.1).bind fun boneIndex =>
      (boneSlot vertex.weightsNum).map fun slot =>
        { vertices := Function.update s.vertices w.2.mVertexId
            { vertex with
              weights := Function.update vertex.weights slot ⟨boneIndex, w.2.mWeight⟩ }
          written := s.written ++ [(w.2.mVertexId, slot)] }

namespace RawMesh

variable (this : RawMesh κ μ)

def getBones (id : ℕ) : FlatHashMap κ UInt32 := (this.bones[id]?).getD ∅

def fillVertices (id : ℕ) (mesh : AiSkinMesh κ α φ) : Option (VertexFill mesh.mNumVertices φ) :=
  mesh.boneWeights.foldlM (addWeight (this.getBones id)) { vertices := mesh.vertex }

/-- Without a mesh of this number there are no vertices. -/
def getVertices (scene : AiSkinScene κ α φ) (id : ℕ) : Option (List (Vertex φ)) :=
  (scene.mMeshes[id]?).elim (some []) fun mesh =>
    (this.fillVertices id mesh).map fun fill => List.ofFn fill.vertices

end RawMesh

/-! ## Weights of a vertex -/

/-- The weights of one vertex, in the order of the bones. -/
def weightsOf {n : ℕ} (ws : List (κ × AiVertexWeight n φ)) (v : Fin n) :
    List (κ × AiVertexWeight n φ) :=
  ws.filter fun w => w.2.mVertexId = v

/-- The first weights of each vertex fill its slots. -/
structure VertexFill.Correct {n : ℕ} (bones : FlatHashMap κ UInt32)
    (ws : List (κ × AiVertexWeight n φ)) (s : VertexFill n φ) : Prop where
  weightsNum : ∀ v, (s.vertices v).weightsNum.toNat = min (weightsOf ws v).length maxBonesOnVertex
  weights : ∀ v slot (w : κ × AiVertexWeight n φ), (weightsOf ws v)[slot.val]? = some w →
    ∃ boneIndex, bones.lookup w.1 = some boneIndex ∧
      (s.vertices v).weights slot = ⟨boneIndex, w.2.mWeight⟩
  others : ∀ v slot, (weightsOf ws v).length ≤ slot.val → (s.vertices v).weights slot = ⟨0, 0⟩
  once : s.written.Nodup

/-- What holds after each weight. -/
structure VertexFill.Progress {n : ℕ} (bones : FlatHashMap κ UInt32)
    (ws : List (κ × AiVertexWeight n φ)) (s : VertexFill n φ) : Prop where
  weightsNum : ∀ v, (s.vertices v).weightsNum.toNat = (weightsOf ws v).length
  weights : ∀ v slot, (s.vertices v).weights slot =
    ((weightsOf ws v)[slot.val]?).elim ⟨0, 0⟩ fun w =>
      ⟨(bones.lookup w.1).getD 0, w.2.mWeight⟩
  written : ∀ v slot, (v, slot) ∈ s.written → slot.val < (weightsOf ws v).length
  once : s.written.Nodup

end

section

variable {κ φ : Type} {n : ℕ} {ws : List (κ × AiVertexWeight n φ)} {w : κ × AiVertexWeight n φ}

theorem weightsOf_append_self : weightsOf (ws ++ [w]) w.2.mVertexId =
    weightsOf ws w.2.mVertexId ++ [w] := by
  simp [weightsOf]

theorem weightsOf_append_ne {v : Fin n} (hv : v ≠ w.2.mVertexId) :
    weightsOf (ws ++ [w]) v = weightsOf ws v := by
  simp [weightsOf, hv.symm]

theorem getElem?_weightsOf_append {k : ℕ} (hk : k ≠ (weightsOf ws w.2.mVertexId).length) :
    (weightsOf ws w.2.mVertexId ++ [w])[k]? = (weightsOf ws w.2.mVertexId)[k]? := by
  rcases Nat.lt_or_gt_of_ne hk with hlt | hgt
  · exact List.getElem?_append_left hlt
  · rw [List.getElem?_eq_none (Nat.le_of_lt hgt)]
    apply List.getElem?_eq_none
    rw [List.length_append, List.length_singleton]
    omega

end

section

variable {κ α μ φ : Type} [DecidableEq κ] [Zero φ] {n : ℕ} {bones : FlatHashMap κ UInt32}
  {ws ws' : List (κ × AiVertexWeight n φ)} {s s' : VertexFill n φ} {w : κ × AiVertexWeight n φ}

/-- Only the vertex of the weight changes. -/
theorem VertexFill.Progress.update (hs : s.Progress bones ws) {vertex : Vertex φ}
    {written : List (Fin n × Fin maxBonesOnVertex)}
    (hnum : vertex.weightsNum.toNat = (weightsOf ws w.2.mVertexId).length + 1)
    (hweights : ∀ slot, vertex.weights slot =
      ((weightsOf ws w.2.mVertexId ++ [w])[slot.val]?).elim ⟨0, 0⟩ fun w =>
        ⟨(bones.lookup w.1).getD 0, w.2.mWeight⟩)
    (hwritten : ∀ v slot, (v, slot) ∈ written → (v, slot) ∈ s.written ∨
      v = w.2.mVertexId ∧ slot.val = (weightsOf ws w.2.mVertexId).length)
    (honce : written.Nodup) :
    VertexFill.Progress bones (ws ++ [w])
      { vertices := Function.update s.vertices w.2.mVertexId vertex, written } := by
  refine ⟨fun v => ?_, fun v slot => ?_, fun v slot hslot => ?_, honce⟩
  · by_cases hv : v = w.2.mVertexId
    · rw [hv, weightsOf_append_self, List.length_append, List.length_singleton, ← hnum]
      simp
    · rw [weightsOf_append_ne hv, ← hs.weightsNum v]
      simp [hv]
  · by_cases hv : v = w.2.mVertexId
    · rw [hv, weightsOf_append_self, ← hweights slot]
      simp
    · rw [weightsOf_append_ne hv, ← hs.weights v slot]
      simp [hv]
  · by_cases hv : v = w.2.mVertexId
    · subst hv
      rw [weightsOf_append_self, List.length_append, List.length_singleton]
      rcases hwritten _ slot hslot with hold | ⟨-, hnew⟩
      · exact Nat.lt_succ_of_lt (hs.written _ slot hold)
      · omega
    · rw [weightsOf_append_ne hv]
      rcases hwritten v slot hslot with hold | ⟨hnew, -⟩
      · exact hs.written v slot hold
      · exact absurd hnew hv

/-- The counter after one more weight, as long as it does not wrap around. -/
theorem VertexFill.Progress.toNat_add_one (hs : s.Progress bones ws) {v : Fin n}
    (hlt : (weightsOf ws v).length + 1 < 256) :
    ((s.vertices v).weightsNum + 1).toNat = (weightsOf ws v).length + 1 := by
  rw [UInt8.toNat_add, hs.weightsNum v]
  exact Nat.mod_eq_of_lt hlt

theorem VertexFill.Progress.addWeight (hs : s.Progress bones ws) {boneIndex : UInt32}
    (hbone : bones.lookup w.1 = some boneIndex)
    (hlt : (weightsOf ws w.2.mVertexId).length + 1 < 256) :
    ∃ s', SRCommon.addWeight bones s w = some s' ∧ s'.Progress bones (ws ++ [w]) := by
  have hm := hs.toNat_add_one hlt
  by_cases hmax : maxBonesOnVertex < ((s.vertices w.2.mVertexId).weightsNum + 1).toNat
  · refine ⟨_, if_pos hmax, ?_⟩
    apply hs.update hm _ (fun _ _ => Or.inl) hs.once
    intro slot
    have hslot := slot.isLt
    rw [getElem?_weightsOf_append (by omega)]
    exact hs.weights w.2.mVertexId slot
  · let slot : Fin maxBonesOnVertex :=
      ⟨((s.vertices w.2.mVertexId).weightsNum + 1).toNat - 1, by omega⟩
    have hslot : boneSlot ((s.vertices w.2.mVertexId).weightsNum + 1) = some slot :=
      dif_pos ⟨by omega, by omega⟩
    have hval : slot.val = (weightsOf ws w.2.mVertexId).length := by
      change (UInt8.toNat _) - 1 = _
      omega
    have hadd : SRCommon.addWeight bones s w = some
        { vertices := Function.update s.vertices w.2.mVertexId
            { s.vertices w.2.mVertexId with
              weightsNum := (s.vertices w.2.mVertexId).weightsNum + 1
              weights := Function.update (s.vertices w.2.mVertexId).weights slot
                ⟨boneIndex, w.2.mWeight⟩ }
          written := s.written ++ [(w.2.mVertexId, slot)] } := by
      rw [SRCommon.addWeight]
      dsimp only
      rw [if_neg hmax, hbone, Option.bind_some, hslot, Option.map_some]
    refine ⟨_, hadd, ?_⟩
    apply hs.update hm
    · intro i
      by_cases hi : i = slot
      · rw [hi, hval, List.getElem?_concat_length]
        simp [hbone]
      · have hne : i.val ≠ (weightsOf ws w.2.mVertexId).length :=
          fun heq => hi (Fin.ext (heq.trans hval.symm))
        rw [getElem?_weightsOf_append hne, ← hs.weights w.2.mVertexId i]
        simp [hi]
    · intro v i hi
      rcases List.mem_append.mp hi with hold | hnew
      · exact .inl hold
      · cases List.mem_singleton.mp hnew
        exact .inr ⟨rfl, hval⟩
    · apply hs.once.append (List.nodup_singleton _)
      rw [List.disjoint_singleton]
      intro hmem
      have hlt := hs.written _ slot hmem
      omega

/-- The counter that wraps around asks for a slot that is not there. -/
theorem VertexFill.Progress.lt_of_addWeight (hs : s.Progress bones ws)
    (hadd : SRCommon.addWeight bones s w = some s') :
    (weightsOf ws w.2.mVertexId).length + 1 < 256 := by
  by_contra hge
  have hcount := hs.weightsNum w.2.mVertexId
  have hlt := (s.vertices w.2.mVertexId).weightsNum.toNat_lt
  have hzero : ((s.vertices w.2.mVertexId).weightsNum + 1).toNat = 0 := by
    rw [UInt8.toNat_add]
    change ((s.vertices w.2.mVertexId).weightsNum.toNat + 1) % 256 = 0
    omega
  have hslot : boneSlot ((s.vertices w.2.mVertexId).weightsNum + 1) = none := by
    apply dif_neg
    omega
  rw [SRCommon.addWeight] at hadd
  dsimp only at hadd
  rw [if_neg (by omega), hslot] at hadd
  obtain ⟨i, -, hnone⟩ := Option.bind_eq_some_iff.mp hadd
  cases hnone

/-- A run over weights goes through exactly when no counter wraps around. -/
theorem VertexFill.Progress.foldlM (hs : s.Progress bones ws)
    (hbones : ∀ w ∈ ws', ∃ boneIndex, bones.lookup w.1 = some boneIndex) :
    (∀ s', ws'.foldlM (SRCommon.addWeight bones) s = some s' → s'.Progress bones (ws ++ ws')) ∧
      ((∀ v, (weightsOf (ws ++ ws') v).length < 256) →
        ∃ s', ws'.foldlM (SRCommon.addWeight bones) s = some s') := by
  induction ws' generalizing s ws with
  | nil =>
      rw [List.append_nil]
      refine ⟨?_, fun _ => ⟨s, rfl⟩⟩
      rintro _ ⟨⟩
      exact hs
  | cons w ws' ih =>
      rw [List.forall_mem_cons] at hbones
      obtain ⟨boneIndex, hbone⟩ := hbones.1
      have hassoc : ws ++ w :: ws' = ws ++ [w] ++ ws' := by simp
      rw [hassoc]
      constructor
      · intro s' hrun
        rw [List.foldlM_cons] at hrun
        obtain ⟨s₁, hs₁, hrun⟩ := Option.bind_eq_some_iff.mp hrun
        obtain ⟨s₂, hs₂, hprogress⟩ := hs.addWeight hbone (hs.lt_of_addWeight hs₁)
        cases hs₁.symm.trans hs₂
        exact (ih hprogress hbones.2).1 s' hrun
      · intro hlt
        have hfirst : (weightsOf ws w.2.mVertexId).length + 1 < 256 := by
          have hall := hlt w.2.mVertexId
          rw [weightsOf, List.filter_append, List.length_append] at hall
          change (weightsOf (ws ++ [w]) w.2.mVertexId).length + _ < 256 at hall
          rw [weightsOf_append_self, List.length_append, List.length_singleton] at hall
          omega
        obtain ⟨s₁, hs₁, hprogress⟩ := hs.addWeight hbone hfirst
        obtain ⟨s', hs'⟩ := (ih hprogress hbones.2).2 hlt
        refine ⟨s', ?_⟩
        rw [List.foldlM_cons, hs₁]
        exact hs'

theorem VertexFill.Progress.correct_iff (hs : s.Progress bones ws)
    (hbones : ∀ w ∈ ws, ∃ boneIndex, bones.lookup w.1 = some boneIndex) :
    s.Correct bones ws ↔ ∀ v, (weightsOf ws v).length ≤ maxBonesOnVertex := by
  constructor
  · intro h v
    have hcount := h.weightsNum v
    rw [hs.weightsNum v] at hcount
    omega
  · intro h
    refine ⟨fun v => ?_, fun v slot w hw => ?_, fun v slot hslot => ?_, hs.once⟩
    · rw [hs.weightsNum v, Nat.min_eq_left (h v)]
    · have hmem : w ∈ ws := List.mem_of_mem_filter (List.mem_of_getElem? hw)
      obtain ⟨boneIndex, hbone⟩ := hbones w hmem
      refine ⟨boneIndex, hbone, ?_⟩
      rw [hs.weights v slot, hw, Option.elim_some, hbone, Option.getD_some]
    · rw [hs.weights v slot, List.getElem?_eq_none hslot, Option.elim_none]

end

section

variable {κ α μ φ : Type} [DecidableEq κ] {scene : AiSkinScene κ α φ} {id : ℕ}
  {mesh : AiSkinMesh κ α φ}

/-- A loaded mesh has an index for each bone that has weights. -/
theorem exists_lookup_getBones (matrices : BoneMatrices α μ) (hash : HashOrder κ)
    (h : scene.mMeshes[id]? = some mesh) : ∀ w ∈ mesh.boneWeights, ∃ boneIndex,
      ((({} : RawMesh κ μ).calculate scene.toBoneScene matrices hash).getBones id).lookup w.1 =
        some boneIndex := by
  intro w hw
  obtain ⟨⟨bone, weights⟩, hbone, hw⟩ := List.mem_flatMap.mp hw
  obtain ⟨weight, -, rfl⟩ := List.mem_map.mp hw
  have hplace : (mesh.toAiMesh.place bone.mName).isSome :=
    AiMesh.isSome_place_iff.mpr ⟨bone, (List.of_mem_zip hbone).1, rfl⟩
  have hmesh : scene.toBoneScene.mMeshes[id]? = some mesh.toAiMesh := by
    simp [AiSkinScene.toBoneScene, h]
  obtain ⟨bones, hbones, hall⟩ := lookup_bones scene.toBoneScene matrices hash hmesh
  obtain ⟨place, hplace⟩ := Option.isSome_iff_exists.mp hplace
  rw [RawMesh.getBones, hbones, Option.getD_some]
  dsimp only
  rw [hall, hplace]
  exact ⟨_, rfl⟩

variable [Zero φ]

theorem progress_vertex (mesh : AiSkinMesh κ α φ) (bones : FlatHashMap κ UInt32) :
    VertexFill.Progress bones [] { vertices := mesh.vertex } :=
  ⟨fun _ => rfl, fun _ _ => rfl, nofun, .nil⟩

/-- The slots are right exactly when no vertex has more weights than slots. -/
theorem getVertices_correct_iff (matrices : BoneMatrices α μ) (hash : HashOrder κ)
    (h : scene.mMeshes[id]? = some mesh) :
    let this := ({} : RawMesh κ μ).calculate scene.toBoneScene matrices hash
    (∃ s, this.fillVertices id mesh = some s ∧
        this.getVertices scene id = some (List.ofFn s.vertices) ∧
        s.Correct (this.getBones id) mesh.boneWeights) ↔
      ∀ v, (weightsOf mesh.boneWeights v).length ≤ maxBonesOnVertex := by
  intro this
  have hbones := exists_lookup_getBones matrices hash h
  obtain ⟨hprogress, hexists⟩ := (progress_vertex mesh (this.getBones id)).foldlM hbones
  rw [List.nil_append] at hprogress hexists
  constructor
  · rintro ⟨s, hs, -, hcorrect⟩
    exact ((hprogress s hs).correct_iff hbones).mp hcorrect
  · intro hmax
    obtain ⟨s, hs⟩ := hexists fun v => Nat.lt_of_le_of_lt (hmax v) (by decide)
    refine ⟨s, hs, ?_, ((hprogress s hs).correct_iff hbones).mpr hmax⟩
    rw [RawMesh.getVertices, h, Option.elim_some, RawMesh.fillVertices, hs, Option.map_some]

end

/-! ## More bones than slots -/

/-- A mesh with one vertex that each of its bones moves. -/
def oneVertex (n : ℕ) (hn : n < 2 ^ 32) : AiSkinMesh ℕ Unit ℕ where
  mBones := (List.range n).map fun name => ⟨name, ()⟩
  mNumBones_lt := by rwa [List.length_map, List.length_range]
  mNumVertices := 1
  mVertices _ := ⟨0, 0, 0⟩
  mTextureCoords := none
  mNormals := none
  mTangents := none
  mBitangents _ := ⟨0, 0, 0⟩
  mWeights := List.replicate n [⟨0, 1⟩]
  length_mWeights := by rw [List.length_replicate, List.length_map, List.length_range]

theorem getVertices_correct_iff_two :
    let mesh : AiSkinMesh ℕ Unit ℕ := oneVertex 2 (by decide)
    let scene : AiSkinScene ℕ Unit ℕ := { mRootNode := .node (0, ()) [], mMeshes := [mesh] }
    let this : RawMesh ℕ Unit :=
      ({} : RawMesh ℕ Unit).calculate scene.toBoneScene unitMatrices (keysOrder ℕ)
    (∃ s : VertexFill mesh.mNumVertices ℕ, this.fillVertices 0 mesh = some s ∧
        this.getVertices scene 0 = some (List.ofFn s.vertices) ∧
        s.Correct (this.getBones 0) mesh.boneWeights) ↔
      ∀ v, (weightsOf mesh.boneWeights v).length ≤ maxBonesOnVertex := by
  intro mesh scene
  have hmesh : scene.mMeshes[0]? = some mesh := rfl
  exact getVertices_correct_iff unitMatrices (keysOrder ℕ) hmesh

theorem not_getVertices_correct :
    ¬∀ (scene : AiSkinScene ℕ Unit ℕ) (id : ℕ) (mesh : AiSkinMesh ℕ Unit ℕ),
      scene.mMeshes[id]? = some mesh →
      let this := ({} : RawMesh ℕ Unit).calculate scene.toBoneScene unitMatrices (keysOrder ℕ)
      ∃ s, this.fillVertices id mesh = some s ∧
        s.Correct (this.getBones id) mesh.boneWeights := by
  intro h
  let mesh := oneVertex 17 (by decide)
  let scene : AiSkinScene ℕ Unit ℕ := { mRootNode := .node (0, ()) [], mMeshes := [mesh] }
  have hmesh : scene.mMeshes[0]? = some mesh := rfl
  obtain ⟨s, hs, hcorrect⟩ := h scene 0 mesh hmesh
  have hbones := exists_lookup_getBones (μ := Unit) unitMatrices (keysOrder ℕ) hmesh
  have hprogress := ((progress_vertex mesh _).foldlM hbones).1 s hs
  have hmax := (hprogress.correct_iff hbones).mp hcorrect ⟨0, Nat.one_pos⟩
  exact absurd hmax (by decide)

end SRCommon
