import SRCommon.Math.Vector3

/-!
# Observer

Coordinates of regions and chunks have no zero. `AddOffset` steps over it, and
`MakeChunk` brings a chunk coordinate into a region, where chunks count from
one.
-/

namespace SRCommon

/-- `SR_WORLD_OFFSET`. -/
def worldOffset (result offset : ℚ) : ℚ :=
  if offset ≠ 0 then
    if (offset ≥ result ∧ result > 0) ∨ (offset ≤ result ∧ result < 0) then
      result + result / |result|
    else if result = 0 then result + offset / |offset|
    else result
  else result

/-- `AddOffset` of vectors of units; an integer offset is converted component by component. -/
def FVector3.addOffset (chunk offset : FVector3) : FVector3 :=
  Vector3.zipWith (fun c o => worldOffset (c + o) o) chunk offset

/-- `AddOffset` of integer vectors, which goes through units. -/
def IVector3.addOffset (region offset : IVector3) : IVector3 :=
  (FVector3.addOffset region.toUnit offset.toUnit).toInt

/-- `SR_MAKE_CHUNK`. -/
def makeChunkAxis (width raw : ℤ) : ℤ :=
  let chunk := if |raw| > width ∨ raw < -width then raw.tmod width else raw
  if chunk = 0 then if raw > 0 then width else 1
  else if raw > 0 then chunk
  else width - (|chunk| - 1)

def makeChunk (rawChunkPos : IVector3) (width : ℤ) : IVector3 :=
  rawChunkPos.map (makeChunkAxis width)

@[ext]
structure Offset where
  region : IVector3 := 0
  chunk : IVector3 := 0
  deriving DecidableEq

namespace Offset

instance : Sub Offset := ⟨fun a b => ⟨a.region - b.region, a.chunk - b.chunk⟩⟩

end Offset

structure Observer (ι : Type) where
  chunkSize : ℤ × ℤ
  regionWidth : ℤ
  shiftDistance : ℤ
  region : IVector3 := 0
  lastRegion : IVector3 := 0
  chunk : IVector3 := 0
  lastChunk : IVector3 := 0
  offset : Offset := {}
  targetPosition : FVector3 := 0
  target : Option ι := none

/-- `SR_WORLD_REGION_NEIGHBOUR`. -/
def regionNeighbour (width chunk offset : ℤ) : ℤ :=
  if offset ≥ 0 then chunk - 1 + offset else chunk - width + offset

/-- A component of `MoveRegion`; a component that becomes zero without having moved is divided
by zero. -/
def moveRegionAxis (region value : ℤ) : Option ℤ :=
  if region + value = 0 then
    if value = 0 then none else some (-value.tdiv |value|)
  else some (region + value)

namespace Observer

variable {ι : Type}

def setChunk (o : Observer ι) (chunk : IVector3) : Observer ι :=
  { o with chunk := makeChunk chunk o.regionWidth }

def moveRegion (o : Observer ι) (value : IVector3) : Option (Observer ι) := do
  let x ← moveRegionAxis o.region.x value.x
  let y ← moveRegionAxis o.region.y value.y
  let z ← moveRegionAxis o.region.z value.z
  some { o with region := ⟨x, y, z⟩ }

def mathNeighbour (o : Observer ι) (offset : IVector3) : Offset :=
  let region := (Vector3.zipWith (regionNeighbour o.regionWidth) o.chunk offset).tdiv
    (.splat o.regionWidth)
  let chunk := IVector3.addOffset o.chunk offset
  ⟨IVector3.addOffset o.region region, makeChunk chunk o.regionWidth⟩

def setTarget (o : Observer ι) (target : Option ι) : Observer ι :=
  { o with target := target, targetPosition := 0, offset := {} }

end Observer

/-! ## World positions

Where a region and a chunk begin in the world, and where a chunk has its
centre. Both are given the observer's chunk size and region width.
-/

section

variable {ι : Type}

/-- `Region::GetWorldPosition`. -/
def Region.getWorldPosition (observer : Observer ι) (position : IVector3) : IVector3 :=
  let width := observer.regionWidth
  (IVector3.addOffset position observer.offset.region * .splat width).map fun n =>
    if n > 0 then n - (width - 1) else n

/-- `Chunk::GetWorldPosition`, with a flag for each axis on which the centre is asked for. -/
def Chunk.getWorldPosition (observer : Observer ι) (region position : IVector3)
    (center : Vector3 Bool) : FVector3 :=
  let size := (Vector3.ofChunkSize observer.chunkSize).toUnit
  let fPos := FVector3.addOffset
    (Region.getWorldPosition observer region + (position.toUnit - .splat 1).toInt).toUnit
    observer.offset.chunk.toUnit
  let fPos := fPos * size + Vector3.zipWith (fun c s => if c then s / 2 else 0) center size
  fPos.deSingular size

end

end SRCommon
