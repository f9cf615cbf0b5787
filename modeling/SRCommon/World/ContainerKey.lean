import SRCommon.World.ChunkCoordinates
import SRCommon.World.Observer

/-!
# Container keys

The key of a position is one cell number on each axis, shifted by the world
offset. The centre of a chunk has that chunk's number, and a shift of the origin
keeps the number of every position that does not carry a cell boundary across
zero.
-/

namespace SRCommon

open ZeroFree

theorem truncate_singular {p s : ℚ} (hs : 0 < s) :
    Vector3.truncate ((if p > 0 then p + s else p - s) / s) = ofIndex (cell (p / s)) := by
  have hsign : 0 < p ↔ 0 < p / s := ⟨fun h => div_pos h hs, fun h => (div_pos_iff_of_pos_right hs).mp h⟩
  rw [cell, ofIndex]
  split
  · rename_i hp
    have hq : 0 < p / s := hsign.mp hp
    rw [add_div, div_self hs.ne', if_pos hq, if_pos (Int.floor_nonneg.mpr hq.le),
      Vector3.truncate_of_nonneg (by linarith), Int.floor_add_one]
  · rename_i hp
    have hq : ¬0 < p / s := mt hsign.mpr hp
    have hceil : ⌈p / s⌉ ≤ 0 := Int.ceil_le.mpr (by push_cast; linarith)
    rw [sub_div, div_self hs.ne', if_neg hq, if_neg (by omega),
      Vector3.truncate_of_nonpos (by linarith), Int.ceil_sub_one]

namespace Observer

variable {ι : Type} (o : Observer ι)

/-- The size of a chunk on each axis. -/
def axisSize : FVector3 := (Vector3.ofChunkSize o.chunkSize).toUnit

/-- The number of the cell of a position, counted from the origin of the world. -/
def cellIndex (p : FVector3) (i : Fin 3) : ℤ :=
  cell (p.coord i / o.axisSize.coord i) -
    (o.offset.chunk.coord i + o.regionWidth * o.offset.region.coord i)

/-- Chunks and regions have a positive extent. -/
structure Sized : Prop where
  size : 1 ≤ o.chunkSize.1
  height : 1 ≤ o.chunkSize.2
  width : 1 ≤ o.regionWidth

variable {o}

theorem Sized.axisSize_pos (ho : o.Sized) : ∀ i, 0 < o.axisSize.coord i
  | 0 | 2 => Int.cast_pos.mpr ho.size
  | 1 => Int.cast_pos.mpr ho.height

theorem coord_containerKey (ho : o.Sized) (p : FVector3) (i : Fin 3) :
    (o.containerKey p).region.coord i = block o.regionWidth (ofIndex (o.cellIndex p i)) ∧
      (o.containerKey p).chunk.coord i = place o.regionWidth (ofIndex (o.cellIndex p i)) := by
  have hw : 0 < o.regionWidth := ho.width
  have hcell : (((p.singular o.axisSize).div o.axisSize).toInt).coord i =
      ofIndex (cell (p.coord i / o.axisSize.coord i)) := by
    rw [Vector3.toInt, Vector3.coord_map, Vector3.div, Vector3.coord_zipWith, Vector3.singular,
      Vector3.coord_zipWith]
    exact truncate_singular (ho.axisSize_pos i)
  have hchunk : (IVector3.addOffset ((p.singular o.axisSize).div o.axisSize).toInt
      (-o.offset.chunk)).coord i =
        ofIndex (o.cellIndex p i + o.regionWidth * o.offset.region.coord i) := by
    rw [coord_addOffset (by rw [hcell]; exact ofIndex_ne_zero _), hcell, index_ofIndex,
      Vector3.coord_neg, cellIndex]
    congr 1
    ring
  constructor
  · have hregion := coord_regionOfChunk (i := i) hw (by rw [hchunk]; exact ofIndex_ne_zero _)
    rw [containerKey, coord_addOffset (by rw [← axisSize, hregion]; exact ofIndex_ne_zero _),
      ← axisSize, hregion, hchunk, block, block, index_ofIndex, index_ofIndex, index_ofIndex,
      Int.add_mul_ediv_left _ _ hw.ne', Vector3.coord_neg, add_neg_cancel_right]
  · rw [containerKey, ← axisSize, coord_makeChunk hw (by rw [hchunk]; exact ofIndex_ne_zero _),
      hchunk, place, place, index_ofIndex, index_ofIndex, Int.add_mul_emod_self_left]

/-- Keys are cell numbers. -/
theorem containerKey_eq_iff {o' : Observer ι} (ho : o.Sized) (ho' : o'.Sized)
    (hwidth : o'.regionWidth = o.regionWidth) (p p' : FVector3) :
    o'.containerKey p' = o.containerKey p ↔ ∀ i, o'.cellIndex p' i = o.cellIndex p i := by
  constructor
  · intro h i
    obtain ⟨hregion, hchunk⟩ := coord_containerKey ho p i
    obtain ⟨hregion', hchunk'⟩ := coord_containerKey ho' p' i
    rw [h, hwidth] at hregion' hchunk'
    rw [← index_ofIndex (o'.cellIndex p' i), ← index_ofIndex (o.cellIndex p i),
      index_eq_block_place o.regionWidth, ← hregion', ← hchunk', hregion, hchunk,
      ← index_eq_block_place]
  · intro h
    apply TensorKey.ext
    · ext i
      rw [(coord_containerKey ho p i).1, (coord_containerKey ho' p' i).1, h, hwidth]
    · ext i
      rw [(coord_containerKey ho p i).2, (coord_containerKey ho' p' i).2, h, hwidth]

end Observer

/-!
## Centres of chunks

`GetWorldPosition` counts chunks by the same index as the keys do, so the centre
of a chunk lies in the cell of that chunk.
-/

open ZeroFree

variable {ι : Type} {o : Observer ι}

/-- A region begins with the chunk of its first index. -/
theorem coord_getWorldPosition {r : IVector3} (hw : 1 ≤ o.regionWidth) {i : Fin 3}
    (hr : r.coord i ≠ 0) {c : ℤ} (hc : 1 ≤ c) (hcw : c ≤ o.regionWidth) :
    (Region.getWorldPosition o r).coord i + (c - 1) =
      ofIndex (o.regionWidth * (index (r.coord i) + o.offset.region.coord i) + (c - 1)) := by
  rw [Region.getWorldPosition, Vector3.coord_map, Vector3.coord_mul, coord_addOffset hr,
    Vector3.coord_splat]
  generalize index (r.coord i) + o.offset.region.coord i = q
  have hw0 : 0 < o.regionWidth := hw
  rw [ofIndex]
  split
  · rename_i hq
    have hpos : (q + 1) * o.regionWidth > 0 := mul_pos (by omega) hw0
    have hnonneg : 0 ≤ o.regionWidth * q := mul_nonneg hw0.le hq
    rw [if_pos hpos, ofIndex, if_pos (by omega)]
    ring
  · rename_i hq
    have hneg : q * o.regionWidth < 0 := mul_neg_of_neg_of_pos (by omega) hw0
    have hle : o.regionWidth * (q + 1) ≤ 0 := mul_nonpos_of_nonneg_of_nonpos hw0.le (by omega)
    have hlt : o.regionWidth * q + (c - 1) < 0 := by linarith
    rw [if_neg (by omega), ofIndex, if_neg (by omega), mul_comm]

/-- The centre of a chunk is half a chunk beyond its index. -/
theorem coord_chunkCentre (ho : o.Sized) {region chunk : IVector3} {i : Fin 3}
    (hregion : region.coord i ≠ 0)
    (hchunk : 1 ≤ chunk.coord i ∧ chunk.coord i ≤ o.regionWidth) :
    (Chunk.getWorldPosition o region chunk (.splat true)).coord i =
      ((o.regionWidth * (index (region.coord i) + o.offset.region.coord i) +
        (chunk.coord i - 1) + o.offset.chunk.coord i : ℤ) + 1 / 2) * o.axisSize.coord i := by
  have hs := ho.axisSize_pos i
  have hone : (chunk.toUnit - Vector3.splat 1).toInt.coord i = chunk.coord i - 1 := by
    have hcast : ((chunk.coord i : ℤ) : ℚ) - 1 = ((chunk.coord i - 1 : ℤ) : ℚ) := by push_cast; rfl
    rw [Vector3.toInt, Vector3.coord_map, Vector3.coord_sub, Vector3.toUnit, Vector3.coord_map,
      Vector3.coord_splat, hcast, Vector3.truncate_intCast]
  have hcorner := coord_getWorldPosition ho.width hregion hchunk.1 hchunk.2
  generalize o.regionWidth * (index (region.coord i) + o.offset.region.coord i) +
    (chunk.coord i - 1) = g at hcorner ⊢
  have hplace : (FVector3.addOffset (Region.getWorldPosition o region +
      (chunk.toUnit - .splat 1).toInt).toUnit o.offset.chunk.toUnit).coord i =
        (ofIndex (g + o.offset.chunk.coord i) : ℤ) := by
    simp only [FVector3.addOffset, Vector3.coord_zipWith, Vector3.toUnit, Vector3.coord_map,
      Vector3.coord_add]
    rw [← Vector3.toUnit, hone, hcorner, worldOffset_cast (ofIndex_ne_zero g), index_ofIndex]
  rw [Chunk.getWorldPosition, Vector3.deSingular, Vector3.coord_zipWith, Vector3.coord_add,
    Vector3.coord_mul, Vector3.coord_zipWith, Vector3.coord_splat, hplace, ← Observer.axisSize]
  generalize g + o.offset.chunk.coord i = f
  rw [ofIndex]
  split
  · rename_i hf
    have hf' : (0 : ℚ) ≤ f := by exact_mod_cast hf
    rw [if_pos (by push_cast; rw [if_pos rfl]; positivity), if_pos rfl]
    push_cast
    ring
  · rename_i hf
    have hf' : (f : ℚ) ≤ -1 := by exact_mod_cast (by omega : f ≤ -1)
    rw [if_neg (by rw [if_pos rfl]; nlinarith), if_pos rfl]
    ring

theorem cell_add_half (n : ℤ) : cell ((n : ℚ) + 1 / 2) = n := by
  rw [cell]
  split
  · rw [Int.floor_intCast_add]
    norm_num
  · rw [Int.ceil_intCast_add]
    norm_num

theorem containerKey_chunkCentre (ho : o.Sized) {region chunk : IVector3}
    (hregion : region.hasZero = false)
    (hchunk : ∀ i, 1 ≤ chunk.coord i ∧ chunk.coord i ≤ o.regionWidth) :
    o.containerKey (Chunk.getWorldPosition o region chunk (.splat true)) = ⟨region, chunk⟩ := by
  have hr := Vector3.hasZero_eq_false.mp hregion
  have hcell (i : Fin 3) :
      o.cellIndex (Chunk.getWorldPosition o region chunk (.splat true)) i =
        o.regionWidth * index (region.coord i) + (chunk.coord i - 1) := by
    rw [Observer.cellIndex, coord_chunkCentre ho (hr i) (hchunk i),
      mul_div_cancel_right₀ _ (ho.axisSize_pos i).ne', cell_add_half]
    ring
  apply TensorKey.ext
  · ext i
    rw [(Observer.coord_containerKey ho _ i).1, hcell]
    exact (block_ofIndex_of_eq (hr i) (hchunk i).1 (hchunk i).2).1
  · ext i
    rw [(Observer.coord_containerKey ho _ i).2, hcell]
    exact (block_ofIndex_of_eq (hr i) (hchunk i).1 (hchunk i).2).2

theorem containerKey_chunkCentre_sample :
    let o : Observer Unit :=
      { chunkSize := (10, 6), regionWidth := 4, shiftDistance := 0,
        offset := ⟨⟨1, -1, 0⟩, ⟨3, 0, -2⟩⟩ }
    Chunk.getWorldPosition o ⟨-1, 1, 2⟩ ⟨4, 1, 2⟩ (.splat true) = ⟨65, -21, 35⟩ ∧
      o.containerKey (Chunk.getWorldPosition o ⟨-1, 1, 2⟩ ⟨4, 1, 2⟩ (.splat true)) =
        ⟨⟨-1, 1, 2⟩, ⟨4, 1, 2⟩⟩ :=
  ⟨by decide +kernel, containerKey_chunkCentre ⟨by decide, by decide, by decide⟩
    (by decide) (by decide)⟩

end SRCommon
