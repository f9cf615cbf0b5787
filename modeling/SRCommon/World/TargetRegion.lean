import SRCommon.World.ContainerKey

/-!
# The region of the target

The observer is up to date when region and chunk are those of the target's
position under the current offset. A shift of the origin keeps them when the
target moves with it and no boundary of a cell changes sides.
-/

namespace SRCommon

/-!
## Shifts of the origin

`SetWorldOffset` moves the root objects by a whole number of chunks and keeps
the offset in a normal form with the same total. An object stays in its chunk
unless it lies on a cell boundary that changes sides: cells are closed at their
lower end on the positive side of zero and at their upper end elsewhere.
-/

open ZeroFree

namespace SceneCubeChunkLogic

variable {ι : Type} (l : SceneCubeChunkLogic ι)

/-- By how many chunks a call of `SetWorldOffset` moves the objects of the scene. -/
def shift (offset : Offset) (i : Fin 3) : ℤ :=
  (l.observer.regionWidth * offset.region.coord i + offset.chunk.coord i) -
    (l.observer.regionWidth * l.observer.offset.region.coord i + l.observer.offset.chunk.coord i)

/-- The normal form has the same total. -/
theorem total_normalized (offset : Offset) (i : Fin 3) :
    l.observer.regionWidth * (l.normalized offset).region.coord i +
        (l.normalized offset).chunk.coord i =
      l.observer.regionWidth * offset.region.coord i + offset.chunk.coord i := by
  rw [normalized, Vector3.coord_add, Vector3.coord_sub, Vector3.coord_mul, Vector3.coord_splat]
  ring

theorem chunkSize_toUnit : l.chunkSize.toUnit = l.observer.axisSize := rfl

theorem translation_setWorldOffset (offset : Offset) {object : ι}
    (hroot : l.scene.isRoot object = true) (i : Fin 3) :
    ((l.setWorldOffset offset).scene.translation object).coord i =
      (l.scene.translation object).coord i +
        (l.shift offset i : ℤ) * l.observer.axisSize.coord i := by
  have htotal := l.total_normalized offset i
  have hdelta : ((l.normalized offset - l.observer.offset).region.coord i) *
      l.observer.regionWidth + (l.normalized offset - l.observer.offset).chunk.coord i =
        l.shift offset i := by
    have hregion : (l.normalized offset - l.observer.offset).region =
        (l.normalized offset).region - l.observer.offset.region := rfl
    have hchunk : (l.normalized offset - l.observer.offset).chunk =
        (l.normalized offset).chunk - l.observer.offset.chunk := rfl
    rw [hregion, hchunk, Vector3.coord_sub, Vector3.coord_sub, shift, ← htotal]
    ring
  simp only [setWorldOffset, SceneObjects.globalTranslate, hroot, if_true, Vector3.coord_add,
    Vector3.toUnit, Vector3.coord_map, Vector3.coord_mul, Vector3.coord_splat, hdelta]
  rw [Int.cast_mul, ← Vector3.coord_map (Int.cast : ℤ → ℚ), ← Vector3.toUnit, chunkSize_toUnit]

theorem cellIndex_setWorldOffset (hl : l.observer.Sized) (offset : Offset) {object : ι}
    (hroot : l.scene.isRoot object = true) (i : Fin 3) :
    (l.setWorldOffset offset).observer.cellIndex
        ((l.setWorldOffset offset).scene.translation object) i =
      cell ((l.scene.translation object).coord i / l.observer.axisSize.coord i +
        (l.shift offset i : ℤ)) -
        (l.observer.regionWidth * offset.region.coord i + offset.chunk.coord i) := by
  have hs := (hl.axisSize_pos i).ne'
  rw [← l.total_normalized offset i, Observer.cellIndex, translation_setWorldOffset l offset hroot]
  have hsize : (l.setWorldOffset offset).observer.axisSize = l.observer.axisSize := rfl
  rw [hsize, add_div, mul_div_cancel_right₀ _ hs, add_comm (l.observer.regionWidth * _)]
  rfl

end SceneCubeChunkLogic

open ZeroFree

namespace SceneCubeChunkLogic

variable {ι : Type} (l : SceneCubeChunkLogic ι)

/-- The position that `Update` takes the target to have. -/
def trackedPosition : FVector3 :=
  match l.observer.target.bind l.scene.root with
  | some pGameObject => (l.scene.translation pGameObject).singular l.chunkSize.toUnit
  | none => l.observer.targetPosition

/-- The region that `Update` computes from the current chunk. -/
def regionAt (pos : FVector3) : IVector3 :=
  IVector3.addOffset (regionOfChunk (l.currentChunkAt pos) l.observer.regionWidth)
    (-l.observer.offset.region)

/-- The observer stands in the region and the chunk of its target. -/
structure UpToDate : Prop where
  last : l.observer.region = l.observer.lastRegion
  nonzero : l.observer.region.hasZero = false
  region : l.observer.region = l.regionAt l.trackedPosition
  chunk : l.observer.chunk =
    makeChunk (l.currentChunkAt l.trackedPosition) l.observer.regionWidth

/-! ## Cells of the target -/

/-- The number of the cell in which `GetRegionAndChunk` sees a position. -/
def seenCell (pos : FVector3) (i : Fin 3) : ℤ :=
  let n := Vector3.truncate (pos.coord i / l.observer.axisSize.coord i)
  index (if n = 0 then -1 else n)

/-- The number of the target's cell, counted from the origin of the world. -/
def targetIndex (i : Fin 3) : ℤ :=
  l.seenCell l.trackedPosition i -
    (l.observer.offset.chunk.coord i + l.observer.regionWidth * l.observer.offset.region.coord i)

theorem seenCell_singular (hl : l.observer.Sized) (p : FVector3) (i : Fin 3) :
    l.seenCell (p.singular l.chunkSize.toUnit) i =
      cell (p.coord i / l.observer.axisSize.coord i) := by
  rw [seenCell, Vector3.singular, Vector3.coord_zipWith, chunkSize_toUnit,
    truncate_singular (hl.axisSize_pos i)]
  simp only [if_neg (ofIndex_ne_zero _), index_ofIndex]

theorem coord_currentChunkAt (pos : FVector3) (i : Fin 3) :
    (l.currentChunkAt pos).coord i =
      ofIndex (l.seenCell pos i - l.observer.offset.chunk.coord i) := by
  have hne : (if Vector3.truncate (pos.coord i / l.observer.axisSize.coord i) = 0 then -1
      else Vector3.truncate (pos.coord i / l.observer.axisSize.coord i)) ≠ 0 := by
    split <;> omega
  have hcoord : ((pos.div l.chunkSize.toUnit).toInt.map fun n => if n = 0 then -1 else n).coord i =
      if Vector3.truncate (pos.coord i / l.observer.axisSize.coord i) = 0 then -1
        else Vector3.truncate (pos.coord i / l.observer.axisSize.coord i) := by
    rw [Vector3.coord_map, Vector3.toInt, Vector3.coord_map, Vector3.div, Vector3.coord_zipWith,
      chunkSize_toUnit]
  rw [currentChunkAt, coord_addOffset (by rw [hcoord]; exact hne), hcoord, Vector3.coord_neg,
    ← sub_eq_add_neg, seenCell]

theorem currentChunkAt_ne_zero (pos : FVector3) (i : Fin 3) :
    (l.currentChunkAt pos).coord i ≠ 0 := by
  rw [coord_currentChunkAt]
  exact ofIndex_ne_zero _

theorem coord_regionAt (hl : l.observer.Sized) (i : Fin 3) :
    (l.regionAt l.trackedPosition).coord i =
      block l.observer.regionWidth (ofIndex (l.targetIndex i)) := by
  have hw : 0 < l.observer.regionWidth := hl.width
  have hregion := coord_regionOfChunk hw (l.currentChunkAt_ne_zero l.trackedPosition i)
  have hsum : l.seenCell l.trackedPosition i - l.observer.offset.chunk.coord i =
      l.targetIndex i + l.observer.regionWidth * l.observer.offset.region.coord i := by
    rw [targetIndex]
    ring
  rw [regionAt, coord_addOffset (by rw [hregion]; exact ofIndex_ne_zero _), hregion,
    coord_currentChunkAt, hsum, block, block, index_ofIndex, index_ofIndex, index_ofIndex,
    Int.add_mul_ediv_left _ _ hw.ne', Vector3.coord_neg, add_neg_cancel_right]

theorem coord_makeChunk_currentChunkAt (hl : l.observer.Sized) (i : Fin 3) :
    (makeChunk (l.currentChunkAt l.trackedPosition) l.observer.regionWidth).coord i =
      place l.observer.regionWidth (ofIndex (l.targetIndex i)) := by
  have hsum : l.seenCell l.trackedPosition i - l.observer.offset.chunk.coord i =
      l.targetIndex i + l.observer.regionWidth * l.observer.offset.region.coord i := by
    rw [targetIndex]
    ring
  rw [coord_makeChunk hl.width (l.currentChunkAt_ne_zero l.trackedPosition i),
    coord_currentChunkAt, hsum, place, place, index_ofIndex, index_ofIndex,
    Int.add_mul_emod_self_left]

theorem regionAt_hasZero (hl : l.observer.Sized) :
    (l.regionAt l.trackedPosition).hasZero = false := by
  refine Vector3.hasZero_eq_false.mpr fun i => ?_
  rw [l.coord_regionAt hl]
  exact ofIndex_ne_zero _

/-! ## Shifts -/

/-- The second state is the first after its origin was moved by a number of chunks per axis. -/
structure ShiftedBy (k : Fin 3 → ℤ) (l' : SceneCubeChunkLogic ι) : Prop where
  observer : l'.observer = { l.observer with offset := l'.observer.offset }
  root : l'.scene.root = l.scene.root
  isRoot : l'.scene.isRoot = l.scene.isRoot
  total : ∀ i, l.observer.regionWidth * l'.observer.offset.region.coord i +
      l'.observer.offset.chunk.coord i =
    l.observer.regionWidth * l.observer.offset.region.coord i +
      l.observer.offset.chunk.coord i + k i
  translation : ∀ g i, (l'.scene.translation g).coord i =
    (l.scene.translation g).coord i +
      if l.scene.isRoot g then (k i : ℤ) * l.observer.axisSize.coord i else 0

variable {l} {l' l'' : SceneCubeChunkLogic ι} {k k' : Fin 3 → ℤ}

theorem ShiftedBy.refl (l : SceneCubeChunkLogic ι) : l.ShiftedBy 0 l where
  observer := rfl
  root := rfl
  isRoot := rfl
  total i := by rw [Pi.zero_apply, add_zero]
  translation g i := by
    rw [Pi.zero_apply, Int.cast_zero, zero_mul, ite_self, add_zero]

theorem ShiftedBy.trans (h : l.ShiftedBy k l') (h' : l'.ShiftedBy k' l'') :
    l.ShiftedBy (k + k') l'' where
  observer := by rw [h'.observer, h.observer]
  root := h'.root.trans h.root
  isRoot := h'.isRoot.trans h.isRoot
  total i := by
    have hwidth : l'.observer.regionWidth = l.observer.regionWidth := by rw [h.observer]
    have htotal := h'.total i
    rw [hwidth, h.total i] at htotal
    rw [htotal, Pi.add_apply]
    ring
  translation g i := by
    have hsize : l'.observer.axisSize = l.observer.axisSize := by rw [h.observer]; rfl
    rw [h'.translation, h.translation, hsize, h.isRoot, Pi.add_apply]
    split
    · push_cast
      ring
    · ring

theorem shiftedBy_setWorldOffset (l : SceneCubeChunkLogic ι) (offset : Offset) :
    l.ShiftedBy (l.shift offset) (l.setWorldOffset offset) where
  observer := rfl
  root := rfl
  isRoot := rfl
  total i := by
    have htotal := l.total_normalized offset i
    rw [shift, add_sub_cancel]
    exact htotal
  translation g i := by
    split
    · rename_i hroot
      exact translation_setWorldOffset l offset hroot i
    · rename_i hroot
      simp only [setWorldOffset, SceneObjects.globalTranslate, if_neg hroot, add_zero]

/-- The target moves with every axis that is shifted and no cell boundary passes zero. -/
def Moves (l : SceneCubeChunkLogic ι) (k : Fin 3 → ℤ) : Prop :=
  ∀ i, k i ≠ 0 → ∃ g, l.observer.target.bind l.scene.root = some g ∧ l.scene.isRoot g = true ∧
    ((∃ m : ℤ, (l.scene.translation g).coord i = m * l.observer.axisSize.coord i) →
      (0 < (l.scene.translation g).coord i ↔
        0 < (l.scene.translation g).coord i + (k i : ℤ) * l.observer.axisSize.coord i))

theorem ShiftedBy.targetIndex (hl : l.observer.Sized) (h : l.ShiftedBy k l') (hmoves : l.Moves k)
    (i : Fin 3) : l'.targetIndex i = l.targetIndex i := by
  have hs := hl.axisSize_pos i
  have hl' : l'.observer.Sized := by
    rw [h.observer]
    exact ⟨hl.size, hl.height, hl.width⟩
  have hsize : l'.observer.axisSize = l.observer.axisSize := by rw [h.observer]; rfl
  have hwidth : l'.observer.regionWidth = l.observer.regionWidth := by rw [h.observer]
  have htarget : l'.observer.target.bind l'.scene.root = l.observer.target.bind l.scene.root := by
    rw [h.observer, h.root]
  have htotal := h.total i
  have hseen : l'.seenCell l'.trackedPosition i = l.seenCell l.trackedPosition i + k i := by
    rw [trackedPosition, trackedPosition, htarget]
    cases hroot : l.observer.target.bind l.scene.root with
    | none =>
        have hk : k i = 0 := by
          by_contra hne
          obtain ⟨g, hg, -⟩ := hmoves i hne
          rw [hroot] at hg
          cases hg
        have hpos : l'.observer.targetPosition = l.observer.targetPosition := by rw [h.observer]
        simp only [hpos, hk, add_zero, seenCell, hsize]
    | some g =>
        simp only [l'.seenCell_singular hl', l.seenCell_singular hl, hsize, h.translation]
        by_cases hk : k i = 0
        · rw [hk, Int.cast_zero, zero_mul, ite_self, add_zero, add_zero]
        · obtain ⟨g', hg', hisRoot, hside⟩ := hmoves i hk
          rw [hroot] at hg'
          cases hg'
          rw [if_pos hisRoot]
          exact (cell_shift_iff hs _).mpr hside
  rw [SceneCubeChunkLogic.targetIndex, SceneCubeChunkLogic.targetIndex, hseen, hwidth]
  linarith

/-- A shift that the target takes part in keeps the observer up to date. -/
theorem ShiftedBy.upToDate (hl : l.observer.Sized) (h : l.ShiftedBy k l') (hmoves : l.Moves k)
    (hdate : l.UpToDate) : l'.UpToDate := by
  have hl' : l'.observer.Sized := by
    rw [h.observer]
    exact ⟨hl.size, hl.height, hl.width⟩
  have hregion : l'.observer.region = l.observer.region := by rw [h.observer]
  have hlast : l'.observer.lastRegion = l.observer.lastRegion := by rw [h.observer]
  have hchunk : l'.observer.chunk = l.observer.chunk := by rw [h.observer]
  have hwidth : l'.observer.regionWidth = l.observer.regionWidth := by rw [h.observer]
  refine ⟨?_, ?_, ?_, ?_⟩
  · rw [hregion, hlast, hdate.last]
  · rw [hregion, hdate.nonzero]
  · ext i
    rw [hregion, hdate.region, l.coord_regionAt hl, l'.coord_regionAt hl', hwidth,
      h.targetIndex hl hmoves]
  · ext i
    rw [hchunk, hdate.chunk, l.coord_makeChunk_currentChunkAt hl,
      l'.coord_makeChunk_currentChunkAt hl', hwidth, h.targetIndex hl hmoves]

end SceneCubeChunkLogic

end SRCommon
