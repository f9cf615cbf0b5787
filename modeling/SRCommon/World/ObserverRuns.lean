import SRCommon.Lib.PartialRun
import SRCommon.World.TargetRegion

/-!
# Runs of the scene logic

`Update` computes the region only when the chunk coordinate has changed, and
moves the observer by the difference to the last one. Beside the state, a run
records the region offset under which that was last done.
-/

namespace SRCommon

open ZeroFree

variable {ι : Type}

namespace Observer

theorem moveRegionAxis_of_ne {region value : ℤ} (h : region + value ≠ 0) :
    moveRegionAxis region value = some (region + value) := if_neg h

theorem moveRegion_eq_some {o : Observer ι} {value : IVector3}
    (h : (o.region + value).hasZero = false) :
    o.moveRegion value = some { o with region := o.region + value } := by
  have hne := Vector3.hasZero_eq_false.mp h
  have hx : o.region.x + value.x ≠ 0 := hne 0
  have hy : o.region.y + value.y ≠ 0 := hne 1
  have hz : o.region.z + value.z ≠ 0 := hne 2
  rw [moveRegion, moveRegionAxis_of_ne hx, moveRegionAxis_of_ne hy,
    moveRegionAxis_of_ne hz]
  rfl

/-- What the observer knows of the last chunk and of the offset it was reached under. -/
structure Remembers (o : Observer ι) (refreshed : IVector3) : Prop where
  sized : o.Sized
  last : o.region = o.lastRegion
  visited : o.lastChunk = 0 ∨
    o.lastRegion = IVector3.addOffset (regionOfChunk o.lastChunk o.regionWidth) (-refreshed) ∧
      o.chunk = makeChunk o.lastChunk o.regionWidth

end Observer

namespace SceneCubeChunkLogic

/-- By how many chunks `CheckShift` moves an axis. -/
def checkedShift (l : SceneCubeChunkLogic ι) (chunk : IVector3) (i : Fin 3) : ℤ :=
  let shift := l.observer.shiftDistance
  if chunk.coord i > shift then -|chunk.coord i|
  else if chunk.coord i < -shift then |chunk.coord i|
  else 0

section

variable {l : SceneCubeChunkLogic ι} {offset : IVector3}

/-- The vector that `CheckShift` works on is the total offset in chunks. -/
def IsTotal (l : SceneCubeChunkLogic ι) (offset : IVector3) : Prop :=
  ∀ i, offset.coord i =
    l.observer.regionWidth * l.observer.offset.region.coord i + l.observer.offset.chunk.coord i

theorem shiftedBy_setTotal {k : Fin 3 → ℤ} (h : l.IsTotal offset) {offset' : IVector3}
    (hk : ∀ i, offset'.coord i = offset.coord i + k i) :
    l.ShiftedBy k (l.setWorldOffset ⟨0, offset'⟩) ∧
      (l.setWorldOffset ⟨0, offset'⟩).IsTotal offset' := by
  have hshift : l.shift ⟨0, offset'⟩ = k := by
    funext i
    rw [shift, Vector3.coord_zero, hk, h i]
    ring
  have hshifted := l.shiftedBy_setWorldOffset ⟨0, offset'⟩
  rw [hshift] at hshifted
  refine ⟨hshifted, fun i => ?_⟩
  have htotal := hshifted.total i
  rw [← h i, ← hk i] at htotal
  exact htotal.symm

theorem shiftedBy_checkShiftAxis (chunk : IVector3) (h : l.IsTotal offset) (axis : Fin 3) :
    l.ShiftedBy (fun i => if i = axis then l.checkedShift chunk i else 0)
        (checkShiftAxis chunk (l, offset) axis).1 ∧
      (checkShiftAxis chunk (l, offset) axis).1.IsTotal
        (checkShiftAxis chunk (l, offset) axis).2 := by
  by_cases habove : chunk.coord axis > l.observer.shiftDistance
  · simp only [checkShiftAxis, if_pos habove]
    refine shiftedBy_setTotal h fun i => ?_
    rw [Vector3.coord_modify]
    split
    · rename_i hi
      rw [hi, checkedShift, if_pos habove, sub_eq_add_neg]
    · rw [add_zero]
  · by_cases hbelow : chunk.coord axis < -l.observer.shiftDistance
    · simp only [checkShiftAxis, if_neg habove, if_pos hbelow]
      refine shiftedBy_setTotal h fun i => ?_
      rw [Vector3.coord_modify]
      split
      · rename_i hi
        rw [hi, checkedShift, if_neg habove, if_pos hbelow]
      · rw [add_zero]
    · simp only [checkShiftAxis, if_neg habove, if_neg hbelow]
      refine ⟨?_, h⟩
      have hzero : (fun i => if i = axis then l.checkedShift chunk i else 0) = 0 := by
        funext i
        split
        · rename_i hi
          rw [hi, checkedShift, if_neg habove, if_neg hbelow, Pi.zero_apply]
        · rfl
      rw [hzero]
      exact .refl l

theorem ShiftedBy.checkedShift {k : Fin 3 → ℤ} {l' : SceneCubeChunkLogic ι}
    (h : l.ShiftedBy k l') (chunk : IVector3) : l'.checkedShift chunk = l.checkedShift chunk := by
  funext i
  rw [SceneCubeChunkLogic.checkedShift, SceneCubeChunkLogic.checkedShift, h.observer]

/-- `CheckShift` moves every axis once. -/
theorem shiftedBy_checkShift (l : SceneCubeChunkLogic ι) (chunk : IVector3) :
    l.ShiftedBy (l.checkedShift chunk) (l.checkShift chunk) := by
  have hstart : l.IsTotal
      (l.observer.offset.chunk + l.observer.offset.region * .splat l.observer.regionWidth) := by
    intro i
    rw [Vector3.coord_add, Vector3.coord_mul, Vector3.coord_splat]
    ring
  obtain ⟨hx, htx⟩ := shiftedBy_checkShiftAxis chunk hstart 0
  obtain ⟨hy, hty⟩ := shiftedBy_checkShiftAxis chunk htx 1
  obtain ⟨hz, -⟩ := shiftedBy_checkShiftAxis chunk hty 2
  rw [(hx.trans hy).checkedShift chunk] at hz
  rw [hx.checkedShift chunk] at hy
  have hsum := (hx.trans hy).trans hz
  have hk : ((fun i => if i = 0 then l.checkedShift chunk i else 0) +
      fun i => if i = 1 then l.checkedShift chunk i else 0) +
        (fun i => if i = 2 then l.checkedShift chunk i else 0) = l.checkedShift chunk := by
    funext i
    match i with
    | 0 | 1 | 2 => simp
  rw [hk] at hsum
  exact hsum

/-- The total offset in chunks. -/
def totalOffset (l : SceneCubeChunkLogic ι) (i : Fin 3) : ℤ :=
  l.observer.regionWidth * l.observer.offset.region.coord i + l.observer.offset.chunk.coord i

/-- The shift of an axis by the distance and the chunk. A distance below zero may lie below a
chunk that is below zero. -/
def recentring (shift chunk : ℤ) : ℤ :=
  if shift < |chunk| then if shift < chunk ∧ chunk < 0 then chunk else -chunk else 0

theorem checkedShift_eq_recentring (l : SceneCubeChunkLogic ι) (chunk : IVector3) (i : Fin 3) :
    l.checkedShift chunk i = recentring l.observer.shiftDistance (chunk.coord i) := by
  rw [checkedShift, recentring]
  obtain ⟨habs, hsign⟩ | ⟨habs, hsign⟩ := abs_cases (chunk.coord i) <;> rw [habs] <;>
    split_ifs <;> omega

/-- The chunk of the offset is less than a region away from zero. -/
def Renormalized (l : SceneCubeChunkLogic ι) : Prop :=
  ∀ i, -l.observer.regionWidth < l.observer.offset.chunk.coord i ∧
    l.observer.offset.chunk.coord i < l.observer.regionWidth

theorem renormalized_setWorldOffset (hwidth : 1 ≤ l.observer.regionWidth) (offset : Offset) :
    (l.setWorldOffset offset).Renormalized := by
  intro i
  have hchunk : (l.setWorldOffset offset).observer.offset.chunk.coord i =
      (offset.chunk.coord i).tmod l.observer.regionWidth := by
    change (offset.chunk - offset.chunk.tdiv (.splat l.observer.regionWidth) *
      .splat l.observer.regionWidth).coord i = _
    rw [Vector3.coord_sub, Vector3.coord_mul, Vector3.coord_splat, Vector3.tdiv,
      Vector3.coord_zipWith, Vector3.coord_splat, Int.tmod_def, Int.mul_comm]
  rw [hchunk]
  exact ⟨Int.lt_tmod_of_pos _ hwidth, Int.tmod_lt_of_pos _ hwidth⟩

theorem renormalized_checkShiftAxis (hwidth : 1 ≤ l.observer.regionWidth) (chunk : IVector3)
    (offset : IVector3) (axis : Fin 3)
    (h : l.observer.shiftDistance < |chunk.coord axis| ∨ l.Renormalized) :
    (checkShiftAxis chunk (l, offset) axis).1.Renormalized := by
  by_cases habove : chunk.coord axis > l.observer.shiftDistance
  · simp only [checkShiftAxis, if_pos habove]
    exact renormalized_setWorldOffset hwidth _
  by_cases hbelow : chunk.coord axis < -l.observer.shiftDistance
  · simp only [checkShiftAxis, if_neg habove, if_pos hbelow]
    exact renormalized_setWorldOffset hwidth _
  · simp only [checkShiftAxis, if_neg habove, if_neg hbelow]
    refine h.resolve_left fun hlt => ?_
    obtain ⟨habs, -⟩ | ⟨habs, -⟩ := abs_cases (chunk.coord axis) <;> omega

theorem checkShiftAxis_observer (chunk offset : IVector3) (axis : Fin 3) :
    (checkShiftAxis chunk (l, offset) axis).1.observer =
      { l.observer with offset := (checkShiftAxis chunk (l, offset) axis).1.observer.offset } := by
  simp only [checkShiftAxis]
  split_ifs <;> rfl

/-- The offset is in its normal form once an axis was shifted, whatever axes come after it. -/
theorem renormalized_foldl (chunk : IVector3) (axes : List (Fin 3))
    (s : SceneCubeChunkLogic ι × IVector3) (hwidth : 1 ≤ s.1.observer.regionWidth)
    (h : (∃ i ∈ axes, s.1.observer.shiftDistance < |chunk.coord i|) ∨ s.1.Renormalized) :
    (axes.foldl (checkShiftAxis chunk) s).1.Renormalized := by
  induction axes generalizing s with
  | nil => simpa using h
  | cons axis axes ih =>
      obtain ⟨l, offset⟩ := s
      have hobserver := checkShiftAxis_observer (l := l) chunk offset axis
      rw [List.foldl_cons]
      refine ih _ (by rw [hobserver]; exact hwidth) ?_
      obtain ⟨i, hi, hfar⟩ | hnormal := h
      · obtain rfl | hi := List.mem_cons.mp hi
        · exact Or.inr (renormalized_checkShiftAxis hwidth chunk offset i (Or.inl hfar))
        · exact Or.inl ⟨i, hi, by rw [hobserver]; exact hfar⟩
      · exact Or.inr (renormalized_checkShiftAxis hwidth chunk offset axis (Or.inr hnormal))

/-- `CheckShift` moves the total offset of each axis back by the chunk that is too far, and the root
objects by as many chunks. -/
theorem checkShift_recentres (l : SceneCubeChunkLogic ι) (hwidth : 1 ≤ l.observer.regionWidth)
    (chunk : IVector3) :
    (∀ i, (l.checkShift chunk).totalOffset i =
        l.totalOffset i + recentring l.observer.shiftDistance (chunk.coord i)) ∧
      (∀ g, l.scene.isRoot g = true → ∀ i,
        ((l.checkShift chunk).scene.translation g).coord i = (l.scene.translation g).coord i +
          recentring l.observer.shiftDistance (chunk.coord i) * l.observer.axisSize.coord i) ∧
      ((∃ i, l.observer.shiftDistance < |chunk.coord i|) → (l.checkShift chunk).Renormalized) := by
  have hshifted := l.shiftedBy_checkShift chunk
  refine ⟨fun i => ?_, fun g hg i => ?_, ?_⟩
  · have hregion : (l.checkShift chunk).observer.regionWidth = l.observer.regionWidth := by
      rw [hshifted.observer]
    rw [totalOffset, hregion, hshifted.total i, checkedShift_eq_recentring, totalOffset]
  · rw [hshifted.translation g i, if_pos hg, checkedShift_eq_recentring]
  · rintro ⟨i, hfar⟩
    refine renormalized_foldl chunk _ _ hwidth (Or.inl ⟨i, ?_, hfar⟩)
    match i with
    | 0 | 1 | 2 => simp

/-- A distance below zero moves the origin away from a chunk between it and zero. -/
theorem not_checkShift_recentres :
    ¬ ∀ (l : SceneCubeChunkLogic Unit) (chunk : IVector3), 1 ≤ l.observer.regionWidth →
      ∀ i, (l.checkShift chunk).totalOffset i =
        l.totalOffset i + if l.observer.shiftDistance < |chunk.coord i| then -chunk.coord i else 0 := by
  intro h
  have haxis := h
    { observer := { chunkSize := (10, 10), regionWidth := 4, shiftDistance := -5 }
      scene := { root := some, isRoot := fun _ => true, translation := fun _ => 0 }
      shiftEnabled := true
      scopeEnabled := true } ⟨-3, 0, 0⟩ (by decide) 0
  exact absurd haxis (by decide +kernel)

theorem checkShift_recentres_sample :
    let l : SceneCubeChunkLogic Unit :=
      { observer :=
          { chunkSize := (10, 10), regionWidth := 4, shiftDistance := 3, offset := ⟨⟨1, 0, -2⟩, 0⟩ }
        scene := { root := some, isRoot := fun _ => true, translation := fun _ => 0 }
        shiftEnabled := true
        scopeEnabled := true }
    (l.checkShift ⟨9, 3, -4⟩).totalOffset 0 = l.totalOffset 0 + recentring 3 9 ∧
      (l.checkShift ⟨9, 3, -4⟩).Renormalized :=
  ⟨(checkShift_recentres _ (by decide) ⟨9, 3, -4⟩).1 0,
    (checkShift_recentres _ (by decide) ⟨9, 3, -4⟩).2.2 ⟨0, by decide⟩⟩

end

/-! ## One update -/

section

variable {l : SceneCubeChunkLogic ι}

theorem trackTarget_eq (l : SceneCubeChunkLogic ι) :
    l.trackTarget = { l with observer := { l.observer with targetPosition := l.trackedPosition } } := by
  cases h : l.observer.target.bind l.scene.root <;>
    simp only [trackTarget, trackedPosition, h]

theorem trackedPosition_trackTarget (l : SceneCubeChunkLogic ι) :
    l.trackTarget.trackedPosition = l.trackedPosition := by
  cases h : l.observer.target.bind l.scene.root with
  | none => simp only [trackTarget, h]
  | some g =>
      simp only [trackTarget, trackedPosition, h]
      rfl

theorem calculateCurrentChunk_trackTarget (l : SceneCubeChunkLogic ι) :
    l.trackTarget.calculateCurrentChunk = l.currentChunkAt l.trackedPosition := by
  rw [calculateCurrentChunk, trackTarget_eq]
  rfl

theorem currentChunkAt_trackTarget (l : SceneCubeChunkLogic ι) :
    l.trackTarget.currentChunkAt l.trackTarget.trackedPosition =
      l.currentChunkAt l.trackedPosition := by
  rw [trackedPosition_trackTarget, trackTarget_eq]
  rfl

/-- The state after a change of chunk. -/
def entered (l : SceneCubeChunkLogic ι) : SceneCubeChunkLogic ι :=
  { l with
    observer := { l.observer with
      region := l.regionAt l.trackedPosition
      lastRegion := l.regionAt l.trackedPosition
      chunk := makeChunk (l.currentChunkAt l.trackedPosition) l.observer.regionWidth
      lastChunk := l.currentChunkAt l.trackedPosition } }

theorem enterChunk_eq (hl : l.observer.Sized) (hlast : l.observer.region = l.observer.lastRegion) :
    l.enterChunk (l.currentChunkAt l.trackedPosition) = some l.entered := by
  have hsum : l.observer.region + (l.regionAt l.trackedPosition - l.observer.lastRegion) =
      l.regionAt l.trackedPosition := by
    ext i
    rw [Vector3.coord_add, Vector3.coord_sub, ← hlast, add_sub_cancel]
  by_cases hdelta : l.regionAt l.trackedPosition - l.observer.lastRegion ≠ 0
  · have hmoved : (l.observer.setChunk (l.currentChunkAt l.trackedPosition)).moveRegion
        (l.regionAt l.trackedPosition - l.observer.lastRegion) =
          some { l.observer.setChunk (l.currentChunkAt l.trackedPosition) with
            region := l.regionAt l.trackedPosition } := by
      rw [Observer.moveRegion_eq_some]
      · exact congrArg (fun region => some { l.observer.setChunk
          (l.currentChunkAt l.trackedPosition) with region := region }) hsum
      · have hnonzero := l.regionAt_hasZero hl
        rw [← hsum] at hnonzero
        exact hnonzero
    exact (if_pos hdelta).trans ((congrArg (Option.bind · _) hmoved).trans rfl)
  · have hsame : l.observer.region = l.regionAt l.trackedPosition := by
      rw [← hsum, not_not.mp hdelta]
      ext i
      rw [Vector3.coord_add, Vector3.coord_zero, add_zero]
    refine (if_neg hdelta).trans ?_
    change some { l.entered with
      observer := { l.entered.observer with region := l.observer.region } } = some l.entered
    rw [hsame]
    rfl

/-- The state before `Update` looks at its options. -/
def settled (l : SceneCubeChunkLogic ι) : SceneCubeChunkLogic ι :=
  if l.observer.lastChunk ≠ l.currentChunkAt l.trackedPosition then l.trackTarget.entered
  else l.trackTarget

theorem entered_upToDate (hl : l.observer.Sized) : l.entered.UpToDate :=
  ⟨rfl, l.regionAt_hasZero hl, rfl, rfl⟩

end

/-! ## Watched runs -/

/-- The logic, and the region part of the offset when the region was last computed. -/
structure Watched (ι : Type) where
  logic : SceneCubeChunkLogic ι
  refreshed : IVector3

inductive LogicCall (ι : Type) where
  | update
  | setObserver (target : Option ι)
  | setWorldOffset (offset : Offset)
  /-- Whatever happens to the objects of the scene between two calls. -/
  | setScene (scene : SceneObjects ι)

section

variable {l : SceneCubeChunkLogic ι} {refreshed : IVector3}

theorem trackTarget_remembers (h : l.observer.Remembers refreshed) :
    l.trackTarget.observer.Remembers refreshed := by
  rw [trackTarget_eq]
  exact ⟨⟨h.sized.size, h.sized.height, h.sized.width⟩, h.last, h.visited⟩

theorem shiftedBy_remembers {k : Fin 3 → ℤ} {l' : SceneCubeChunkLogic ι} (hk : l.ShiftedBy k l')
    (h : l.observer.Remembers refreshed) : l'.observer.Remembers refreshed := by
  rw [hk.observer]
  exact ⟨⟨h.sized.size, h.sized.height, h.sized.width⟩, h.last, h.visited⟩

theorem entered_remembers (h : l.observer.Remembers refreshed) :
    l.entered.observer.Remembers l.observer.offset.region :=
  ⟨⟨h.sized.size, h.sized.height, h.sized.width⟩, rfl, Or.inr ⟨rfl, rfl⟩⟩

/-- In the last chunk the observer knows its region, up to the offset. -/
theorem remembered (h : l.observer.Remembers refreshed)
    (hsame : l.observer.lastChunk = l.currentChunkAt l.trackedPosition) :
    l.observer.region = IVector3.addOffset
        (regionOfChunk (l.currentChunkAt l.trackedPosition) l.observer.regionWidth) (-refreshed) ∧
      l.observer.chunk =
        makeChunk (l.currentChunkAt l.trackedPosition) l.observer.regionWidth := by
  have hne : l.observer.lastChunk ≠ 0 := by
    intro hzero
    have hcoord := l.currentChunkAt_ne_zero l.trackedPosition 0
    rw [← hsame, hzero] at hcoord
    exact hcoord rfl
  obtain ⟨hregion, hchunk⟩ := h.visited.resolve_left hne
  rw [hsame] at hregion hchunk
  exact ⟨h.last.trans hregion, hchunk⟩

/-- Once the region has no zero, only `CheckShift` is left to do. -/
theorem updateScope_eq (hzero : l.observer.region.hasZero = false) : l.updateScope = some l := by
  rw [updateScope, hzero]
  rfl

theorem settled_hasZero (h : l.observer.Remembers refreshed) :
    l.settled.observer.region.hasZero = false := by
  have htrack := trackTarget_remembers h
  rw [settled]
  split
  · exact (entered_upToDate htrack.sized).nonzero
  · rename_i hsame
    have hlast : l.trackTarget.observer.lastChunk =
        l.trackTarget.currentChunkAt l.trackTarget.trackedPosition := by
      rw [currentChunkAt_trackTarget, trackTarget_eq]
      exact not_not.mp hsame
    refine Vector3.hasZero_eq_false.mpr fun i => ?_
    have hregion := coord_regionOfChunk (w := l.trackTarget.observer.regionWidth)
      htrack.sized.width (l.trackTarget.currentChunkAt_ne_zero l.trackTarget.trackedPosition i)
    rw [(remembered htrack hlast).1, coord_addOffset (by rw [hregion]; exact ofIndex_ne_zero _)]
    exact ofIndex_ne_zero _

theorem settled_eq (h : l.observer.Remembers refreshed) :
    (if l.trackTarget.observer.lastChunk ≠ l.trackTarget.calculateCurrentChunk then
      l.trackTarget.enterChunk l.trackTarget.calculateCurrentChunk
    else some l.trackTarget) = some l.settled := by
  have htrack := trackTarget_remembers h
  have henter := enterChunk_eq htrack.sized htrack.last
  rw [currentChunkAt_trackTarget] at henter
  have hlast : l.trackTarget.observer.lastChunk = l.observer.lastChunk := by rw [trackTarget_eq]
  rw [calculateCurrentChunk_trackTarget, hlast, settled]
  split
  · exact henter
  · rfl

theorem settled_observer (l : SceneCubeChunkLogic ι) :
    l.settled.observer.targetPosition = l.trackedPosition ∧ l.settled.chunkSize = l.chunkSize ∧
      l.settled.shiftEnabled = l.shiftEnabled := by
  rw [settled]
  split
  · rw [entered, trackTarget_eq]
    exact ⟨rfl, rfl, rfl⟩
  · rw [trackTarget_eq]
    exact ⟨rfl, rfl, rfl⟩

theorem update_eq (h : l.observer.Remembers refreshed) :
    l.update = some (if l.shiftEnabled then
      l.settled.checkShift (l.trackedPosition.toInt.tdiv l.chunkSize) else l.settled) := by
  obtain ⟨hpos, hsize, hshift⟩ := settled_observer l
  have hunfold : l.update =
      (if l.trackTarget.observer.lastChunk ≠ l.trackTarget.calculateCurrentChunk then
        l.trackTarget.enterChunk l.trackTarget.calculateCurrentChunk
      else some l.trackTarget).bind fun l =>
        (if l.scopeEnabled then l.updateScope else some l).bind fun l =>
          if l.shiftEnabled then
            some (l.checkShift (l.observer.targetPosition.toInt.tdiv l.chunkSize))
          else some l := by
    have hscope (m : SceneCubeChunkLogic ι)
        (f : SceneCubeChunkLogic ι → Option (SceneCubeChunkLogic ι)) :
        (if m.scopeEnabled = true then m.updateScope.bind f else (some m).bind f) =
          (if m.scopeEnabled = true then m.updateScope else some m).bind f := by
      split <;> rfl
    rw [update]
    split
    · exact congrArg (Option.bind _) (funext fun m => hscope m _)
    · exact congrArg (Option.bind _) (funext fun m => hscope m _)
  rw [hunfold, settled_eq h, Option.bind_some, updateScope_eq (settled_hasZero h), ite_self,
    Option.bind_some, hpos, hsize, hshift]
  split <;> rfl

/-- The region offset that belongs to the region after an update. -/
theorem settled_remembers (h : l.observer.Remembers refreshed) :
    l.settled.observer.Remembers
      (if l.observer.lastChunk ≠ l.currentChunkAt l.trackedPosition then
        l.observer.offset.region else refreshed) := by
  have htrack := trackTarget_remembers h
  rw [settled]
  split
  · have hoffset : l.trackTarget.observer.offset = l.observer.offset := by rw [trackTarget_eq]
    rw [← hoffset]
    exact entered_remembers htrack
  · exact htrack

theorem settled_upToDate (h : l.observer.Remembers refreshed)
    (hoffset : l.observer.lastChunk = l.currentChunkAt l.trackedPosition →
      l.observer.offset.region = refreshed) : l.settled.UpToDate := by
  have htrack := trackTarget_remembers h
  have hnonzero := settled_hasZero h
  rw [settled] at hnonzero ⊢
  split
  · exact entered_upToDate htrack.sized
  · rename_i hsame
    rw [if_neg hsame] at hnonzero
    have hlast : l.trackTarget.observer.lastChunk =
        l.trackTarget.currentChunkAt l.trackTarget.trackedPosition := by
      rw [currentChunkAt_trackTarget, trackTarget_eq]
      exact not_not.mp hsame
    obtain ⟨hregion, hchunk⟩ := remembered htrack hlast
    refine ⟨htrack.last, hnonzero, ?_, hchunk⟩
    rw [hregion, ← hoffset (not_not.mp hsame), regionAt]
    simp only [trackTarget_eq]

end

namespace Watched

variable [DecidableEq ι]

def step (s : Watched ι) : LogicCall ι → Option (Watched ι × Unit)
  | .update =>
      let refreshed :=
        if s.logic.observer.lastChunk ≠ s.logic.currentChunkAt s.logic.trackedPosition then
          s.logic.observer.offset.region
        else s.refreshed
      s.logic.update.map fun l => (⟨l, refreshed⟩, ())
  | .setObserver target => some ({ s with logic := s.logic.setObserver target }, ())
  | .setWorldOffset offset => some ({ s with logic := s.logic.setWorldOffset offset }, ())
  | .setScene scene => some ({ s with logic := { s.logic with scene := scene } }, ())

/-- An update finds either a new chunk or the offset under which it knows the old one, and a shift
of the origin moves the target without carrying a boundary across zero. -/
def Follows (s : Watched ι) : LogicCall ι → Prop
  | .update => s.logic.observer.target.isSome →
      (s.logic.observer.lastChunk = s.logic.currentChunkAt s.logic.trackedPosition →
        s.logic.observer.offset.region = s.refreshed) ∧
      (s.logic.shiftEnabled = true →
        s.logic.Moves
          (s.logic.checkedShift (s.logic.trackedPosition.toInt.tdiv s.logic.chunkSize)))
  | _ => True

/-- No call of a run fails, and an update that follows its target leaves the observer up to date. -/
theorem step_of_remembers {s : Watched ι} (h : s.logic.observer.Remembers s.refreshed)
    (call : LogicCall ι) :
    ∃ r, s.step call = some r ∧ r.1.logic.observer.Remembers r.1.refreshed ∧
      (s.Follows call → call = .update → s.logic.observer.target.isSome →
        r.1.logic.UpToDate) := by
  cases call with
  | update =>
      refine ⟨_, by rw [step, update_eq h]; rfl, ?_, fun hfollows _ htarget => ?_⟩
      · have hsettled := settled_remembers h
        dsimp only
        split
        · exact shiftedBy_remembers (shiftedBy_checkShift _ _) hsettled
        · exact hsettled
      · obtain ⟨hoffset, hmoves⟩ := hfollows htarget
        have hsettled := settled_upToDate h hoffset
        dsimp only
        split
        · rename_i hshift
          refine (shiftedBy_checkShift _ _).upToDate (settled_remembers h).sized ?_ hsettled
          have hsame : s.logic.settled.Moves
                (s.logic.settled.checkedShift
                  (s.logic.trackedPosition.toInt.tdiv s.logic.chunkSize)) ↔
              s.logic.Moves
                (s.logic.checkedShift
                  (s.logic.trackedPosition.toInt.tdiv s.logic.chunkSize)) := by
            rw [settled, trackTarget_eq]
            split <;> rfl
          exact hsame.mpr (hmoves hshift)
        · exact hsettled
  | setObserver target =>
      refine ⟨_, rfl, ?_, fun _ heq => by cases heq⟩
      simp only [setObserver]
      split
      · exact ⟨⟨h.sized.size, h.sized.height, h.sized.width⟩, h.last, h.visited⟩
      · exact h
  | setWorldOffset offset =>
      exact ⟨_, rfl, shiftedBy_remembers (shiftedBy_setWorldOffset _ offset) h,
        fun _ heq => by cases heq⟩
  | setScene scene =>
      exact ⟨_, rfl, h, fun _ heq => by cases heq⟩

end Watched

section

variable [DecidableEq ι]

/-- A logic whose observer has not moved yet. -/
def fresh (chunkSize : ℤ × ℤ) (regionWidth shiftDistance : ℤ) (scene : SceneObjects ι)
    (shiftEnabled scopeEnabled : Bool) : Watched ι where
  logic :=
    { observer :=
        { chunkSize := chunkSize, regionWidth := regionWidth, shiftDistance := shiftDistance }
      scene := scene
      shiftEnabled := shiftEnabled
      scopeEnabled := scopeEnabled }
  refreshed := 0

end

end SceneCubeChunkLogic

end SRCommon
