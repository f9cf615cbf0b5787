import Mathlib.Algebra.Order.Field.Basic
import SRCommon.Lib.ZeroFree
import SRCommon.World.Observer

/-!
# Chunk coordinates

By index, `AddOffset` adds and a region is a block of chunks. So a chunk
coordinate is its region and its place there, and `MathNeighbour` translates.
-/

namespace SRCommon

/-!
## SceneCubeChunkLogic

How the scene logic places objects in regions and chunks, shifts the origin of
the world and follows the observer's target. `ReloadConfig` gives the same
chunk size and region width to the logic and to its observer, where they are
kept here. Regions and chunks that are loaded on the way are left out.
-/

@[ext]
structure TensorKey where
  region : IVector3
  chunk : IVector3
  deriving DecidableEq

/-- `chunk.Singular(m_regionWidth - 1) / m_regionWidth`. -/
def regionOfChunk (chunk : IVector3) (width : ℤ) : IVector3 :=
  (chunk.singular (.splat (width - 1))).tdiv (.splat width)

/-- The key under which `UpdateContainers` puts an object. -/
def Observer.containerKey {ι : Type} (o : Observer ι) (gmPosition : FVector3) : TensorKey :=
  let chunkSize := (Vector3.ofChunkSize o.chunkSize).toUnit
  let chunk := IVector3.addOffset ((gmPosition.singular chunkSize).div chunkSize).toInt
    (-o.offset.chunk)
  let region := IVector3.addOffset (regionOfChunk chunk o.regionWidth) (-o.offset.region)
  ⟨region, makeChunk chunk o.regionWidth⟩

/-- The objects of the scene by name: `root` is what `GetRoot` gives as a `GameObject`, and
`isRoot` tells which ones `GetRootSceneObjects` has. -/
structure SceneObjects (ι : Type) where
  root : ι → Option ι
  isRoot : ι → Bool
  translation : ι → FVector3

/-- `GlobalTranslate` of all root objects. -/
def SceneObjects.globalTranslate {ι : Type} (scene : SceneObjects ι) (offset : FVector3) :
    SceneObjects ι :=
  { scene with
    translation := fun i =>
      if scene.isRoot i then scene.translation i + offset else scene.translation i }

structure SceneCubeChunkLogic (ι : Type) where
  observer : Observer ι
  scene : SceneObjects ι
  shiftEnabled : Bool
  scopeEnabled : Bool

namespace SceneCubeChunkLogic

variable {ι : Type}

def chunkSize (l : SceneCubeChunkLogic ι) : IVector3 := .ofChunkSize l.observer.chunkSize

/-- The offset that `SetWorldOffset` stores. -/
def normalized (l : SceneCubeChunkLogic ι) (offset : Offset) : Offset :=
  let width := .splat l.observer.regionWidth
  let region := offset.chunk.tdiv width
  ⟨offset.region + region, offset.chunk - region * width⟩

def setWorldOffset (l : SceneCubeChunkLogic ι) (offset : Offset) : SceneCubeChunkLogic ι :=
  let prevOffset := l.observer.offset
  let offset := l.normalized offset
  let deltaOffset := offset - prevOffset
  let fOffset :=
    ((deltaOffset.region * .splat l.observer.regionWidth + deltaOffset.chunk) * l.chunkSize).toUnit
  { l with
    observer := { l.observer with offset := offset }
    scene := l.scene.globalTranslate fOffset }

def setObserver [DecidableEq ι] (l : SceneCubeChunkLogic ι) (target : Option ι) :
    SceneCubeChunkLogic ι :=
  if target ≠ l.observer.target then { l with observer := l.observer.setTarget target } else l

/-- The chunk of `GetRegionAndChunk`. -/
def currentChunkAt (l : SceneCubeChunkLogic ι) (pos : FVector3) : IVector3 :=
  let currentRegion := (pos.div l.chunkSize.toUnit).toInt.map fun n => if n = 0 then -1 else n
  IVector3.addOffset currentRegion (-l.observer.offset.chunk)

def calculateCurrentChunk (l : SceneCubeChunkLogic ι) : IVector3 :=
  l.currentChunkAt l.observer.targetPosition

/-- A component of `CheckShift`. -/
def checkShiftAxis (chunk : IVector3) (s : SceneCubeChunkLogic ι × IVector3) (axis : Fin 3) :
    SceneCubeChunkLogic ι × IVector3 :=
  let (l, offset) := s
  let shift := l.observer.shiftDistance
  if chunk.coord axis > shift then
    let offset := offset.modify axis fun n => n - |chunk.coord axis|
    (l.setWorldOffset ⟨0, offset⟩, offset)
  else if chunk.coord axis < -shift then
    let offset := offset.modify axis fun n => n + |chunk.coord axis|
    (l.setWorldOffset ⟨0, offset⟩, offset)
  else (l, offset)

def checkShift (l : SceneCubeChunkLogic ι) (chunk : IVector3) : SceneCubeChunkLogic ι :=
  let offset := l.observer.offset.chunk + l.observer.offset.region * .splat l.observer.regionWidth
  ([0, 1, 2].foldl (checkShiftAxis chunk) (l, offset)).1

/-- `UpdateScope` as far as it touches the observer. -/
def updateScope (l : SceneCubeChunkLogic ι) : Option (SceneCubeChunkLogic ι) :=
  if l.observer.region.hasZero then
    (l.observer.moveRegion (.splat (-1))).map fun o => { l with observer := o }
  else some l

/-- The position of the target's root, away from zero. -/
def trackTarget (l : SceneCubeChunkLogic ι) : SceneCubeChunkLogic ι :=
  match l.observer.target.bind l.scene.root with
  | some pGameObject =>
      { l with
        observer := { l.observer with
          targetPosition := (l.scene.translation pGameObject).singular l.chunkSize.toUnit } }
  | none => l

/-- What `Update` does when the chunk has changed. -/
def enterChunk (l : SceneCubeChunkLogic ι) (currentChunk : IVector3) :
    Option (SceneCubeChunkLogic ι) := do
  let observer := l.observer.setChunk currentChunk
  let region := IVector3.addOffset (regionOfChunk currentChunk observer.regionWidth)
    (-observer.offset.region)
  let regionDelta := region - observer.lastRegion
  let observer ← if regionDelta ≠ 0 then observer.moveRegion regionDelta else some observer
  some { l with observer := { observer with lastRegion := region, lastChunk := currentChunk } }

def update (l : SceneCubeChunkLogic ι) : Option (SceneCubeChunkLogic ι) := do
  let l := l.trackTarget
  let currentChunk := l.calculateCurrentChunk
  let l ← if l.observer.lastChunk ≠ currentChunk then l.enterChunk currentChunk else some l
  let l ← if l.scopeEnabled then l.updateScope else some l
  if l.shiftEnabled then
    some (l.checkShift (l.observer.targetPosition.toInt.tdiv l.chunkSize))
  else some l

end SceneCubeChunkLogic

open ZeroFree

theorem div_abs_of_pos {q : ℚ} (h : 0 < q) : q / |q| = 1 := by
  rw [abs_of_pos h, div_self h.ne']

theorem div_abs_of_neg {q : ℚ} (h : q < 0) : q / |q| = -1 := by
  rw [abs_of_neg h, div_neg, div_self h.ne]

/-- The sum is corrected exactly when it reaches or passes zero. -/
theorem worldOffset_cast {n : ℤ} (hn : n ≠ 0) (d : ℤ) :
    worldOffset ((n : ℚ) + d) d = (ofIndex (index n + d) : ℤ) := by
  have hsum : (n : ℚ) + d = ((n + d : ℤ) : ℚ) := (Int.cast_add n d).symm
  rw [hsum, worldOffset]
  generalize hm : n + d = m
  simp only [ne_eq, Int.cast_eq_zero, ge_iff_le, gt_iff_lt, Int.cast_le, Int.cast_pos,
    Int.cast_lt_zero]
  rw [ofIndex, index]
  rcases lt_trichotomy m 0 with hneg | rfl | hpos
  · have hdiv : (m : ℚ) / |(m : ℚ)| = -1 := div_abs_of_neg (Int.cast_lt_zero.mpr hneg)
    rw [hdiv]
    split_ifs <;> first | omega | (norm_cast; omega)
  · rcases lt_or_gt_of_ne (show d ≠ 0 by omega) with hd | hd
    · rw [div_abs_of_neg (Int.cast_lt_zero.mpr hd)]
      split_ifs <;> first | omega | (norm_cast; omega)
    · rw [div_abs_of_pos (Int.cast_pos.mpr hd)]
      split_ifs <;> first | omega | (norm_cast; omega)
  · have hdiv : (m : ℚ) / |(m : ℚ)| = 1 := div_abs_of_pos (Int.cast_pos.mpr hpos)
    rw [hdiv]
    split_ifs <;> first | omega | (norm_cast; omega)

/-- The remainder that `MakeChunk` takes of a positive coordinate. -/
theorem tmod_of_pos {w n : ℤ} (hw : 0 < w) (hn : 0 < n) :
    n.tmod w = if place w n = w then 0 else place w n := by
  have hr := Int.emod_nonneg (index n) hw.ne'
  have hrw := Int.emod_lt_of_pos (index n) hw
  have hq : 0 ≤ index n / w := Int.ediv_nonneg (index_nonneg hn) hw.le
  have hsum := Int.mul_ediv_add_emod (index n) w
  have hindex : index n = n - 1 := if_pos hn
  rw [place]
  split
  · have hn' : n = w * (index n / w + 1) + 0 := by linarith
    rw [hn', tmod_add (by omega) le_rfl hw]
  · have hn' : n = w * (index n / w) + (index n % w + 1) := by linarith
    conv_lhs => rw [hn']
    exact tmod_add hq (by omega) (by omega)

theorem tmod_of_neg {w n : ℤ} (hw : 0 < w) (hn : n < 0) :
    n.tmod w = if place w n = 1 then 0 else place w n - 1 - w := by
  have hr := Int.emod_nonneg (index n) hw.ne'
  have hrw := Int.emod_lt_of_pos (index n) hw
  have hindex : index n = n := if_neg hn.not_gt
  have hq : index n / w < 0 := by
    rw [hindex]
    exact Int.ediv_neg_of_neg_of_pos hn hw
  have hsum := Int.mul_ediv_add_emod (index n) w
  rw [place]
  split
  · have hn' : n = w * (index n / w) - 0 := by linarith
    rw [hn', tmod_sub hq.le le_rfl hw, neg_zero]
  · have hn' : n = w * (index n / w + 1) - (w - index n % w) := by linarith
    conv_lhs => rw [hn']
    rw [tmod_sub (by omega) (by omega) (by omega)]
    ring

theorem makeChunkAxis_eq {w n : ℤ} (hw : 0 < w) (hn : n ≠ 0) :
    makeChunkAxis w n = place w n := by
  have hplace := place_pos (n := n) hw
  have hplaceLe := place_le (n := n) hw
  rw [makeChunkAxis]
  rcases lt_or_gt_of_ne hn with hneg | hpos
  · rw [abs_of_neg hneg]
    by_cases hfar : -n > w ∨ n < -w
    · simp only [if_pos hfar, tmod_of_neg hw hneg]
      split_ifs <;> first | omega | (rw [abs_of_neg (by omega)]; omega)
    · have hindex : place w n = n + w + 1 := by
        rw [place, index, if_neg hneg.not_gt, ← Int.add_emod_right,
          Int.emod_eq_of_lt (by omega) (by omega)]
      simp only [if_neg hfar]
      split_ifs <;> first | omega | (rw [abs_of_neg (by omega)]; omega)
  · rw [abs_of_pos hpos]
    by_cases hfar : n > w ∨ n < -w
    · simp only [if_pos hfar, tmod_of_pos hw hpos]
      split_ifs <;> omega
    · have hindex : place w n = n := by
        rw [place, index, if_pos hpos, Int.emod_eq_of_lt (by omega) (by omega), sub_add_cancel]
      simp only [if_neg hfar]
      split_ifs <;> omega

/-! ## Vectors -/

section

variable {w : ℤ} {n offset : IVector3} {i : Fin 3}

theorem coord_addOffset (hn : n.coord i ≠ 0) (offset : IVector3) :
    (IVector3.addOffset n offset).coord i = ofIndex (index (n.coord i) + offset.coord i) := by
  simp only [IVector3.addOffset, FVector3.addOffset, Vector3.toInt, Vector3.toUnit,
    Vector3.coord_map, Vector3.coord_zipWith, worldOffset_cast hn, Vector3.truncate_intCast]

theorem coord_makeChunk (hw : 0 < w) (hn : n.coord i ≠ 0) :
    (makeChunk n w).coord i = place w (n.coord i) := by
  rw [makeChunk, Vector3.coord_map, makeChunkAxis_eq hw hn]

theorem coord_regionOfChunk (hw : 0 < w) (hn : n.coord i ≠ 0) :
    (regionOfChunk n w).coord i = block w (n.coord i) := by
  rw [regionOfChunk, Vector3.tdiv, Vector3.coord_zipWith, Vector3.singular, Vector3.coord_zipWith,
    Vector3.coord_splat, Vector3.coord_splat]
  exact tdiv_eq_block hw hn

/-- A chunk coordinate is its region and its place there. -/
theorem index_eq_region_chunk (hw : 1 ≤ w) (hn : n.coord i ≠ 0) :
    index (n.coord i) =
      w * index ((regionOfChunk n w).coord i) + ((makeChunk n w).coord i - 1) := by
  rw [coord_makeChunk hw hn, coord_regionOfChunk hw hn]
  exact index_eq_block_place w _

/-- The coordinate of a chunk in a region. -/
def composeChunk (w : ℤ) (region chunk : IVector3) : IVector3 :=
  Vector3.zipWith (fun r c => ofIndex (w * index r + (c - 1))) region chunk

theorem composeChunk_ne_zero (w : ℤ) (region chunk : IVector3) (i : Fin 3) :
    (composeChunk w region chunk).coord i ≠ 0 := by
  rw [composeChunk, Vector3.coord_zipWith]
  exact ofIndex_ne_zero _

theorem regionOfChunk_composeChunk {region chunk : IVector3} (hregion : region.hasZero = false)
    (hchunk : ∀ i, 1 ≤ chunk.coord i ∧ chunk.coord i ≤ w) :
    regionOfChunk (composeChunk w region chunk) w = region := by
  ext i
  obtain ⟨hle, hlew⟩ := hchunk i
  rw [coord_regionOfChunk (by omega) (composeChunk_ne_zero w region chunk i), composeChunk,
    Vector3.coord_zipWith]
  exact (block_ofIndex_of_eq (Vector3.hasZero_eq_false.mp hregion i) hle hlew).1

theorem makeChunk_composeChunk {region chunk : IVector3} (hregion : region.hasZero = false)
    (hchunk : ∀ i, 1 ≤ chunk.coord i ∧ chunk.coord i ≤ w) :
    makeChunk (composeChunk w region chunk) w = chunk := by
  ext i
  obtain ⟨hle, hlew⟩ := hchunk i
  rw [coord_makeChunk (by omega) (composeChunk_ne_zero w region chunk i), composeChunk,
    Vector3.coord_zipWith]
  exact (block_ofIndex_of_eq (Vector3.hasZero_eq_false.mp hregion i) hle hlew).2

end

/-- Chunk coordinates on an axis are exactly the places in regions. -/
theorem chunk_decomposition {w : ℤ} (hw : 1 ≤ w) :
    (∀ (n : IVector3) (i : Fin 3), n.coord i ≠ 0 →
      1 ≤ (makeChunk n w).coord i ∧ (makeChunk n w).coord i ≤ w ∧
        (regionOfChunk n w).coord i ≠ 0 ∧
        index (n.coord i) =
          w * index ((regionOfChunk n w).coord i) + ((makeChunk n w).coord i - 1)) ∧
      (∀ (m n : IVector3) (i : Fin 3), m.coord i ≠ 0 → n.coord i ≠ 0 →
        ((regionOfChunk m w).coord i = (regionOfChunk n w).coord i ∧
          (makeChunk m w).coord i = (makeChunk n w).coord i ↔ m.coord i = n.coord i)) ∧
      ∀ region chunk : IVector3, region.hasZero = false →
        (∀ i, 1 ≤ chunk.coord i ∧ chunk.coord i ≤ w) →
        ∃! n : IVector3, n.hasZero = false ∧ regionOfChunk n w = region ∧
          makeChunk n w = chunk := by
  have hinj (m n : IVector3) (i : Fin 3) (hm : m.coord i ≠ 0) (hn : n.coord i ≠ 0)
      (hregion : (regionOfChunk m w).coord i = (regionOfChunk n w).coord i)
      (hchunk : (makeChunk m w).coord i = (makeChunk n w).coord i) : m.coord i = n.coord i := by
    rw [← ofIndex_index hm, index_eq_region_chunk hw hm, hregion, hchunk,
      ← index_eq_region_chunk hw hn, ofIndex_index hn]
  refine ⟨fun n i hn => ?_, fun m n i hm hn => ⟨fun h => hinj m n i hm hn h.1 h.2, fun h => ?_⟩,
    fun region chunk hregion hchunk => ?_⟩
  · refine ⟨?_, ?_, ?_, index_eq_region_chunk hw hn⟩
    · rw [coord_makeChunk hw hn]
      exact place_pos hw
    · rw [coord_makeChunk hw hn]
      exact place_le hw
    · rw [coord_regionOfChunk hw hn]
      exact ofIndex_ne_zero _
  · rw [coord_regionOfChunk hw hm, coord_regionOfChunk hw hn, coord_makeChunk hw hm,
      coord_makeChunk hw hn, h]
    exact ⟨rfl, rfl⟩
  · have hmade := composeChunk_ne_zero w region chunk
    refine ⟨composeChunk w region chunk, ⟨Vector3.hasZero_eq_false.mpr hmade,
      regionOfChunk_composeChunk hregion hchunk, makeChunk_composeChunk hregion hchunk⟩, ?_⟩
    rintro n ⟨hn, hnregion, hnchunk⟩
    ext i
    refine hinj n _ i (Vector3.hasZero_eq_false.mp hn i) (hmade i) ?_ ?_
    · rw [hnregion, regionOfChunk_composeChunk hregion hchunk]
    · rw [hnchunk, makeChunk_composeChunk hregion hchunk]

theorem chunk_decomposition_sample :
    regionOfChunk ⟨-5, -4, 9⟩ 4 = ⟨-2, -1, 3⟩ ∧ makeChunk ⟨-5, -4, 9⟩ 4 = ⟨4, 1, 1⟩ ∧
      index (-5) = 4 * index (-2) + (4 - 1) :=
  ⟨by decide, by decide,
    ((chunk_decomposition (w := 4) (by decide)).1 ⟨-5, -4, 9⟩ 0 (by decide)).2.2.2⟩

end SRCommon
