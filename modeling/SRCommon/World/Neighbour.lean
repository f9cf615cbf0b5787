import SRCommon.World.ChunkCoordinates

/-!
# Neighbours of the observer

`MathNeighbour` finds the new region by two quotients and the new chunk by
`MakeChunk`. Both come from one translated index.
-/

namespace SRCommon

open ZeroFree

/-- Both formulas of `SR_WORLD_REGION_NEIGHBOUR` count the regions that are crossed. -/
theorem regionNeighbour_tdiv {w c : ℤ} (hc : 1 ≤ c) (hcw : c ≤ w) (offset : ℤ) :
    (regionNeighbour w c offset).tdiv w = (c - 1 + offset) / w := by
  have hw : 0 < w := by omega
  rw [regionNeighbour]
  split
  · exact Int.tdiv_eq_ediv_of_nonneg (by omega)
  · rename_i hneg
    have hsum := Int.mul_ediv_add_emod (c - 1 + offset) w
    have hr := Int.emod_nonneg (c - 1 + offset) hw.ne'
    have hrw := Int.emod_lt_of_pos (c - 1 + offset) hw
    have hq : (c - 1 + offset) / w < 1 := by
      apply Int.ediv_lt_of_lt_mul hw
      omega
    have hn : c - w + offset =
        w * ((c - 1 + offset) / w) - (w - 1 - (c - 1 + offset) % w) := by
      linarith
    rw [hn, tdiv_sub (by omega) (by omega) (by omega)]

namespace Observer

variable {ι : Type} {o : Observer ι}

/-- The index of the observer's chunk among all chunks of an axis. -/
def chunkIndex (o : Observer ι) (i : Fin 3) : ℤ :=
  o.regionWidth * index (o.region.coord i) + (o.chunk.coord i - 1)

theorem coord_mathNeighbour (hregion : o.region.hasZero = false)
    (hchunk : ∀ i, 1 ≤ o.chunk.coord i ∧ o.chunk.coord i ≤ o.regionWidth) (offset : IVector3)
    (i : Fin 3) :
    (o.mathNeighbour offset).region.coord i =
        block o.regionWidth (ofIndex (o.chunkIndex i + offset.coord i)) ∧
      (o.mathNeighbour offset).chunk.coord i =
        place o.regionWidth (ofIndex (o.chunkIndex i + offset.coord i)) := by
  obtain ⟨hle, hlew⟩ := hchunk i
  have hw : 0 < o.regionWidth := by omega
  have hne : o.chunk.coord i ≠ 0 := by omega
  have htotal : o.chunkIndex i + offset.coord i =
      (o.chunk.coord i - 1 + offset.coord i) + o.regionWidth * index (o.region.coord i) := by
    rw [chunkIndex]
    ring
  constructor
  · rw [mathNeighbour, coord_addOffset (Vector3.hasZero_eq_false.mp hregion i), Vector3.tdiv,
      Vector3.coord_zipWith, Vector3.coord_zipWith, Vector3.coord_splat,
      regionNeighbour_tdiv hle hlew, block, index_ofIndex, htotal,
      Int.add_mul_ediv_left _ _ hw.ne', add_comm]
  · have hchunkIndex : index (o.chunk.coord i) = o.chunk.coord i - 1 := if_pos (by omega)
    have hmoved := coord_addOffset hne offset
    rw [mathNeighbour, coord_makeChunk hw (by rw [hmoved]; exact ofIndex_ne_zero _), hmoved,
      hchunkIndex, place, place, index_ofIndex, index_ofIndex, htotal, Int.add_mul_emod_self_left]

theorem mathNeighbour_translates (hregion : o.region.hasZero = false)
    (hchunk : ∀ i, 1 ≤ o.chunk.coord i ∧ o.chunk.coord i ≤ o.regionWidth) (offset : IVector3) :
    (∀ i, 1 ≤ (o.mathNeighbour offset).chunk.coord i ∧
        (o.mathNeighbour offset).chunk.coord i ≤ o.regionWidth ∧
        (o.mathNeighbour offset).region.coord i ≠ 0 ∧
        o.regionWidth * index ((o.mathNeighbour offset).region.coord i) +
            ((o.mathNeighbour offset).chunk.coord i - 1) =
          o.regionWidth * index (o.region.coord i) + (o.chunk.coord i - 1) +
            offset.coord i) ∧
      ∀ offset' : IVector3,
        { o with
          region := (o.mathNeighbour offset).region
          chunk := (o.mathNeighbour offset).chunk }.mathNeighbour offset' =
        o.mathNeighbour (offset + offset') := by
  have hmoved (i : Fin 3) : 1 ≤ (o.mathNeighbour offset).chunk.coord i ∧
      (o.mathNeighbour offset).chunk.coord i ≤ o.regionWidth ∧
      (o.mathNeighbour offset).region.coord i ≠ 0 ∧
      o.regionWidth * index ((o.mathNeighbour offset).region.coord i) +
          ((o.mathNeighbour offset).chunk.coord i - 1) =
        o.chunkIndex i + offset.coord i := by
    obtain ⟨hregion', hchunk'⟩ := coord_mathNeighbour hregion hchunk offset i
    have hw : 0 < o.regionWidth := by
      obtain ⟨hle, hlew⟩ := hchunk i
      omega
    rw [hregion', hchunk', ← index_eq_block_place, index_ofIndex]
    exact ⟨place_pos hw, place_le hw, ofIndex_ne_zero _, rfl⟩
  refine ⟨hmoved, fun offset' => ?_⟩
  have hboth (i : Fin 3) := coord_mathNeighbour hregion hchunk (offset + offset') i
  have hthen (i : Fin 3) := coord_mathNeighbour (o := { o with
      region := (o.mathNeighbour offset).region
      chunk := (o.mathNeighbour offset).chunk })
    (Vector3.hasZero_eq_false.mpr fun i => (hmoved i).2.2.1)
    (fun i => ⟨(hmoved i).1, (hmoved i).2.1⟩) offset' i
  simp only [chunkIndex, (hmoved _).2.2.2] at hthen
  simp only [Vector3.coord_add, ← add_assoc] at hboth
  apply Offset.ext
  · ext i
    rw [(hthen i).1, (hboth i).1, chunkIndex]
  · ext i
    rw [(hthen i).2, (hboth i).2, chunkIndex]

theorem mathNeighbour_translates_sample :
    let o : Observer Unit :=
      { chunkSize := (10, 10), regionWidth := 4, shiftDistance := 0,
        region := ⟨-1, 1, 2⟩, chunk := ⟨4, 1, 2⟩ }
    (o.mathNeighbour ⟨1, -1, -7⟩).region = ⟨1, -1, -1⟩ ∧
      ({ o with
        region := (o.mathNeighbour ⟨1, -1, -7⟩).region
        chunk := (o.mathNeighbour ⟨1, -1, -7⟩).chunk }.mathNeighbour ⟨-1, 1, 7⟩) =
        o.mathNeighbour 0 :=
  ⟨by decide +kernel, (mathNeighbour_translates (o :=
      { chunkSize := (10, 10), regionWidth := 4, shiftDistance := 0,
        region := ⟨-1, 1, 2⟩, chunk := ⟨4, 1, 2⟩ })
    (by decide) (by decide) ⟨1, -1, -7⟩).2 ⟨-1, 1, 7⟩⟩

end Observer

end SRCommon
