import SRCommon.World.ContainerKey
import SRCommon.World.Region

/-!
# Lookup of chunks by position

`Region::GetChunk` finds the chunk of a position through
`Observer::WorldPosToChunkPos`, which adds the world offset that the container
keys subtract.
-/

namespace SRCommon

open ZeroFree

/-- The cast to `int` comes before the division of integers. -/
def Observer.worldPosToChunkPos {ι : Type} (o : Observer ι) (position : FVector3) : IVector3 :=
  let chunkSize : IVector3 := .ofChunkSize o.chunkSize
  IVector3.addOffset ((position.singular chunkSize.toUnit).toInt.tdiv chunkSize) o.offset.chunk

/-- `GetChunk(const FVector3&)`. -/
def Region.getChunkAt {γ ι : Type} (m : DataModel)
    (loadObject : Marshal → Option (Option γ × Marshal)) (o : Observer ι) (r : Region γ)
    (position : FVector3) : Option (Option (Chunk γ) × Region γ) :=
  r.getChunk m loadObject (makeChunk (o.worldPosToChunkPos position) r.width)

namespace Vector3

theorem truncate_neg (q : ℚ) : truncate (-q) = -truncate q := by
  rw [truncate, truncate, Rat.num_neg_eq_neg_num, Rat.den_neg_eq_den, Int.neg_tdiv]

theorem truncate_tdiv_of_nonneg {q : ℚ} {s : ℤ} (hq : 0 ≤ q) (hs : 0 < s) :
    (truncate q).tdiv s = truncate (q / s) := by
  have hs' : (0 : ℚ) < s := Int.cast_pos.mpr hs
  have hmul : q / s * s = q := div_mul_cancel₀ q hs'.ne'
  have hfloor : ⌊q⌋ / s = ⌊q / s⌋ := by
    rw [← Int.mul_cast_floor_div_cancel_of_pos hs (q / s), hmul]
  rw [truncate_of_nonneg hq, truncate_of_nonneg (div_nonneg hq hs'.le),
    Int.tdiv_eq_ediv_of_nonneg (Int.floor_nonneg.mpr hq), hfloor]

/-- Truncation before a division of integers changes nothing. -/
theorem truncate_tdiv (q : ℚ) {s : ℤ} (hs : 0 < s) :
    (truncate q).tdiv s = truncate (q / s) := by
  rcases le_total 0 q with hq | hq
  · exact truncate_tdiv_of_nonneg hq hs
  · have hneg := truncate_tdiv_of_nonneg (neg_nonneg.mpr hq) hs
    rw [truncate_neg, Int.neg_tdiv, neg_div, truncate_neg] at hneg
    exact neg_injective hneg

end Vector3

/-- Adding and subtracting a shift give the same place exactly when the width divides twice the
shift. -/
theorem place_add_eq_sub_iff (w a c : ℤ) :
    place w (ofIndex (a + c)) = place w (ofIndex (a - c)) ↔ w ∣ 2 * c := by
  have hdouble : a + c - (a - c) = 2 * c := by ring
  rw [place, place, index_ofIndex, index_ofIndex, add_left_inj,
    Int.emod_eq_emod_iff_emod_sub_eq_zero, hdouble, Int.dvd_iff_emod_eq_zero]

namespace Observer

variable {ι : Type} {o : Observer ι}

theorem coord_worldPosToChunkPos (ho : o.Sized) (p : FVector3) (i : Fin 3) :
    (o.worldPosToChunkPos p).coord i =
      ofIndex (cell (p.coord i / o.axisSize.coord i) + o.offset.chunk.coord i) := by
  have hsize : o.axisSize.coord i = ((Vector3.ofChunkSize o.chunkSize).coord i : ℤ) := by
    rw [axisSize, Vector3.toUnit, Vector3.coord_map]
  have hpos : 0 < (Vector3.ofChunkSize o.chunkSize).coord i := by
    have h := ho.axisSize_pos i
    rw [hsize] at h
    exact Int.cast_pos.mp h
  have hcell : (((p.singular (Vector3.ofChunkSize o.chunkSize).toUnit).toInt.tdiv
      (.ofChunkSize o.chunkSize)).coord i) = ofIndex (cell (p.coord i / o.axisSize.coord i)) := by
    rw [Vector3.tdiv, Vector3.coord_zipWith, Vector3.toInt, Vector3.coord_map,
      Vector3.truncate_tdiv _ hpos, ← hsize, ← axisSize, Vector3.singular, Vector3.coord_zipWith]
    exact truncate_singular (ho.axisSize_pos i)
  rw [worldPosToChunkPos, coord_addOffset (by rw [hcell]; exact ofIndex_ne_zero _), hcell,
    index_ofIndex]

theorem coord_chunk_containerKey (ho : o.Sized) (p : FVector3) (i : Fin 3) :
    (o.containerKey p).chunk.coord i =
      place o.regionWidth
        (ofIndex (cell (p.coord i / o.axisSize.coord i) - o.offset.chunk.coord i)) := by
  rw [(coord_containerKey ho p i).2, cellIndex, place, place, index_ofIndex, index_ofIndex,
    ← sub_sub, Int.sub_mul_emod_self_left]

/-- The lookup finds the chunk that the object is kept in, on one axis. -/
theorem coord_lookup_eq_iff (ho : o.Sized) (p : FVector3) (i : Fin 3) :
    (makeChunk (o.worldPosToChunkPos p) o.regionWidth).coord i = (o.containerKey p).chunk.coord i ↔
      o.regionWidth ∣ 2 * o.offset.chunk.coord i := by
  have hcoord := coord_worldPosToChunkPos ho p i
  rw [coord_makeChunk ho.width (by rw [hcoord]; exact ofIndex_ne_zero _), hcoord,
    coord_chunk_containerKey ho]
  exact place_add_eq_sub_iff o.regionWidth _ _

theorem chunk_lookup_of_dvd (ho : o.Sized) (h : ∀ i, o.regionWidth ∣ 2 * o.offset.chunk.coord i)
    (p : FVector3) :
    makeChunk (o.worldPosToChunkPos p) o.regionWidth = (o.containerKey p).chunk := by
  ext i
  exact (coord_lookup_eq_iff ho p i).mpr (h i)

/-- Lookup and containers agree on a position exactly when the width of a region divides twice
the chunk part of the offset. -/
theorem worldPosToChunkPos_agrees_iff (ho : o.Sized) (p : FVector3) :
    makeChunk (o.worldPosToChunkPos p) o.regionWidth = (o.containerKey p).chunk ↔
      ∀ i, o.regionWidth ∣ 2 * o.offset.chunk.coord i := by
  constructor
  · intro h i
    apply (coord_lookup_eq_iff ho p i).mp
    rw [h]
  · intro h
    exact chunk_lookup_of_dvd ho h p

/-- A region is asked for the chunk of the key then. -/
theorem getChunkAt_eq_of_dvd {γ : Type} (ho : o.Sized)
    (h : ∀ i, o.regionWidth ∣ 2 * o.offset.chunk.coord i) (m : DataModel)
    (loadObject : Marshal → Option (Option γ × Marshal)) {r : Region γ}
    (hr : r.width = o.regionWidth) (p : FVector3) :
    r.getChunkAt m loadObject o p = r.getChunk m loadObject (o.containerKey p).chunk := by
  rw [Region.getChunkAt, hr, chunk_lookup_of_dvd ho h p]

/-- The default metrics, after the target has entered chunk 11 and the origin was shifted. -/
def shifted : Observer ℕ where
  chunkSize := (10, 10)
  regionWidth := 6
  shiftDistance := 10
  offset := ⟨⟨-1, 0, 0⟩, ⟨-5, 0, 0⟩⟩

theorem worldPosToChunkPos_agrees_iff_shifted :
    makeChunk (shifted.worldPosToChunkPos 0) shifted.regionWidth =
        (shifted.containerKey 0).chunk ↔
      ∀ i, shifted.regionWidth ∣ 2 * shifted.offset.chunk.coord i :=
  worldPosToChunkPos_agrees_iff ⟨by decide, by decide, by decide⟩ 0

/-- At the origin, the object is filed under a chunk that the lookup does not give. -/
theorem worldPosToChunkPos_disagrees :
    ¬∀ (o : Observer ℕ) (p : FVector3), o.Sized →
      makeChunk (o.worldPosToChunkPos p) o.regionWidth = (o.containerKey p).chunk := by
  intro h
  have hshifted := h shifted 0 ⟨by decide, by decide, by decide⟩
  revert hshifted
  decide +kernel

end Observer

end SRCommon
