import Mathlib.Data.List.AList
import Mathlib.Data.Rat.Defs
import SRCommon.Types.Marshal

/-!
# Region

`SR_WORLD_NS::Region`: the chunks that are loaded and the marshals of those that
are not, each by position. What `Chunk::Save` gives is a parameter of the
operations that call it, `none` being a null pointer.
-/

namespace SRCommon

/-!
## Chunk

`SR_WORLD_NS::Chunk` as its region sees it. `GameObject::Load` and the
translation of what it gives are a parameter; lifetimes are rational numbers.
-/

inductive LoadState where
  | preLoaded
  | loaded
  | unload
  | preload
  deriving DecidableEq

structure Chunk (γ : Type) where
  position : IVector3
  loadState : LoadState := .unload
  lifetime : ℚ := 0
  preloaded : List γ := []

namespace Chunk

open MarshalUtils

variable {γ : Type}

def isAlive (c : Chunk γ) : Bool := c.lifetime > 0

def update (dt : ℚ) (c : Chunk γ) : Chunk γ :=
  if c.lifetime > 0 then { c with lifetime := c.lifetime - dt } else c

def access (dt : ℚ) (c : Chunk γ) : Chunk γ := { c with lifetime := dt + 10 }

/-- Reads `count` objects and keeps those that are not null. -/
def loadObjects (loadObject : Marshal → Option (Option γ × Marshal)) :
    ℕ → Marshal → List γ → Option (List γ)
  | 0, _, preloaded => some preloaded
  | count + 1, pMarshal, preloaded => do
      let (ptr, pMarshal) ← loadObject pMarshal
      loadObjects loadObject count pMarshal (preloaded ++ ptr.toList)

variable (m : DataModel)

def preLoad (loadObject : Marshal → Option (Option γ × Marshal)) (c : Chunk γ)
    (pMarshal : Option Marshal) : Option (Chunk γ × Bool) :=
  match pMarshal.filter Marshal.valid with
  | some pMarshal => do
      let (position, pMarshal) ← pMarshal.readIVector3
      if c.position ≠ position then some (c, false)
      else
        let (count, pMarshal) ← loadValue m .unsignedLongLong pMarshal
        let preloaded ← loadObjects loadObject count pMarshal c.preloaded
        some ({ c with preloaded := preloaded, loadState := .preLoaded }.access 0, true)
  | none => some ({ c with loadState := .preLoaded }.access 0, true)

end Chunk

/-- `std::unordered_map`, in the order in which it is iterated. -/
abbrev UnorderedMap (κ β : Type) := AList fun _ : κ => β

/-- `Region::VERSION`. -/
def Region.version : ℕ := 1000

structure Region (γ : Type) where
  position : IVector3
  width : ℤ
  loadedChunks : UnorderedMap IVector3 (Chunk γ) := ∅
  cached : UnorderedMap IVector3 Marshal := ∅

namespace Region

open MarshalUtils

variable {γ : Type}

/-- A marshal that is not valid is deleted. -/
def cacheChunk (cached : UnorderedMap IVector3 Marshal) (position : IVector3)
    (pMarshal : Option Marshal) : UnorderedMap IVector3 Marshal :=
  match pMarshal.filter Marshal.valid with
  | some pMarshal => cached.insert position pMarshal
  | none => cached

/-- A pass of the loop in `Update`. -/
def updateChunk (dt : ℚ) (saveChunk : Chunk γ → Option Marshal) (r : Region γ)
    (position : IVector3) (pChunk : Chunk γ) : Region γ :=
  let pChunk := pChunk.update dt
  if pChunk.isAlive then { r with loadedChunks := r.loadedChunks.insert position pChunk }
  else
    { r with
      cached := cacheChunk r.cached position (saveChunk pChunk)
      loadedChunks := r.loadedChunks.erase position }

def update (dt : ℚ) (saveChunk : Chunk γ → Option Marshal) (r : Region γ) : Region γ :=
  r.loadedChunks.foldl (updateChunk dt saveChunk) r

def unload (force : Bool) (saveChunk : Chunk γ → Option Marshal) (r : Region γ) : Region γ :=
  let r := r.loadedChunks.foldl (fun r position pChunk =>
    if force then r
    else { r with cached := cacheChunk r.cached position (saveChunk pChunk) }) r
  { r with loadedChunks := ∅ }

section

variable (m : DataModel) (loadObject : Marshal → Option (Option γ × Marshal))

/-- `GetChunk(const IVector3&)`, with the default allocator. -/
def getChunk (r : Region γ) (position : IVector3) : Option (Option (Chunk γ) × Region γ) :=
  if (∀ i, position.coord i < 0) ∨ (∀ i, position.coord i > r.width) then some (none, r)
  else
    let pChunk := (r.loadedChunks.lookup position).getD { position := position }
    let r := { r with loadedChunks := r.loadedChunks.insert position pChunk }
    if pChunk.loadState = .unload then
      match r.cached.lookup position with
      | some pCache => do
          let (pChunk, _) ← pChunk.preLoad m loadObject (some pCache.copy)
          some (some pChunk,
            { r with
              loadedChunks := r.loadedChunks.insert position pChunk
              cached := r.cached.erase position })
      | none => do
          let (pChunk, _) ← pChunk.preLoad m loadObject none
          some (some pChunk, { r with loadedChunks := r.loadedChunks.insert position pChunk })
    else some (some pChunk, r)

end

/-! ## Files -/

/-- `uint16_t` and `uint64_t` values. -/
def versionValue (m : DataModel) : CppType.Value m .unsignedShort :=
  ⟨version, by cases m <;> decide⟩

def uint64Value (m : DataModel) (n : UInt64) : CppType.Value m .unsignedLongLong :=
  ⟨n.toNat, by
    have hlt := n.toNat_lt
    cases m <;> exact hlt⟩

section

variable (m : DataModel)

/-- The blobs that `Save` writes: those of the loaded chunks that are valid, and copies of the
cached ones. -/
def available (saveChunk : Chunk γ → Option Marshal) (r : Region γ) : List Marshal :=
  (r.loadedChunks.entries.filterMap fun e => (saveChunk e.2).filter Marshal.valid) ++
    r.cached.entries.map fun e => e.2.copy

def writeChunk (pMarshal pMarshalChunk : Marshal) : Option Marshal := do
  let pMarshal ← saveValue pMarshal (uint64Value m pMarshalChunk.size)
  Marshal.append pMarshal pMarshalChunk

def save (saveChunk : Chunk γ → Option Marshal) (r : Region γ) : Option Marshal :=
  let available := r.available saveChunk
  let chunkCount := UInt64.ofNat available.length
  if chunkCount = 0 then some Stream.empty
  else do
    let pMarshal ← saveValue Stream.empty (versionValue m)
    let pMarshal ← saveValue pMarshal (uint64Value m chunkCount)
    available.foldlM (writeChunk m) pMarshal

/-- The loop of `Load`. A chunk that is null is viewed all the same. -/
def loadChunks : ℕ → Marshal → UnorderedMap IVector3 Marshal →
    Option (Marshal × UnorderedMap IVector3 Marshal)
  | 0, marshal, cached => some (marshal, cached)
  | count + 1, marshal, cached => do
      let (size, marshal) ← loadValue m .unsignedLongLong marshal
      let (pMarshalChunk, marshal) ← Marshal.readBytesPtr marshal (UInt64.ofNat size)
      let pMarshalChunk ← pMarshalChunk
      let position ← pMarshalChunk.viewIVector3 0
      loadChunks count marshal
        (if pMarshalChunk.valid then cached.insert position pMarshalChunk else cached)

/-- `Load` of a file that exists: what it returns, the marshal it has read and the cache. -/
def loadFile (file : List UInt8) (cached : UnorderedMap IVector3 Marshal) :
    Option (Bool × Marshal × UnorderedMap IVector3 Marshal) := do
  let marshal ← Stream.ofString file
  let (version, marshal) ← loadValue m .unsignedShort marshal
  if version ≠ versionValue m then some (false, marshal, cached)
  else
    let (count, marshal) ← loadValue m .unsignedLongLong marshal
    let (marshal, cached) ← loadChunks m count marshal cached
    some (true, marshal, cached)

def load (file : Option (List UInt8)) (r : Region γ) : Option (Bool × Region γ) :=
  match file with
  | some file => (loadFile m file r.cached).map fun l => (l.1, { r with cached := l.2.2 })
  | none => some (true, r)

end

end Region

end SRCommon
