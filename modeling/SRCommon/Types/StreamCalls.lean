import Mathlib.Logic.Function.Basic
import SRCommon.Lib.PartialRun
import SRCommon.Types.Stream

/-!
# Calls on a set of streams

A program holds streams under names. It calls a stream with buffers of its own,
and makes one stream out of another by copying and moving. A call answers with
the buffer that `Read` and `TryRead` were given.
-/

namespace SRCommon

/-- The bytes behind a pointer that is handed over together with their number. -/
structure Buffer where
  bytes : List UInt8
  bounded : bytes.length < 2 ^ 64

namespace Buffer

def count (b : Buffer) : UInt64 := UInt64.ofNat b.bytes.length

def cells (b : Buffer) : List Cell := b.bytes.map some

@[simp] theorem toNat_count (b : Buffer) : b.count.toNat = b.bytes.length :=
  UInt64.toNat_ofNat_of_lt' b.bounded

@[simp] theorem length_cells (b : Buffer) : b.cells.length = b.bytes.length := by simp [cells]

theorem count_le_length (b : Buffer) : b.count.toNat ≤ b.cells.length := by simp

theorem take_cells (b : Buffer) : b.cells.take b.count.toNat = b.cells :=
  List.take_of_length_le (by simp)

end Buffer

inductive StreamRequest where
  | create (pData : Buffer)
  | ofString (str : Buffer)
  | write (pSrc : Buffer)
  | read (pDst : Buffer)
  | tryRead (pDst : Buffer)
  | setData (pData : Buffer)
  | reserve (capacity : UInt64)
  | setPosition (position : UInt64)
  | skip (count : UInt64)

namespace Stream

def answer (s : Stream) : StreamRequest → Option (Stream × List Cell)
  | .create pData => (create pData.cells pData.count).map (·, [])
  | .ofString str => (ofString str.bytes).map (·, [])
  | .write pSrc => (s.write pSrc.cells pSrc.count).map (·, [])
  | .read pDst => (s.read pDst.cells pDst.count).map Prod.swap
  | .tryRead pDst => (s.tryRead pDst.cells pDst.count).map Prod.swap
  | .setData pData => (s.setData pData.cells pData.count).map (·, [])
  | .reserve capacity => some (s.reserve capacity, [])
  | .setPosition position => some (s.setPosition position, [])
  | .skip count => some (s.skip count, [])

end Stream

inductive StreamCall (ν : Type) where
  | request (i : ν) (r : StreamRequest)
  | copy (i j : ν)
  | copyAssign (i j : ν)
  | move (i j : ν)

abbrev Streams (ν : Type) := ν → Stream

namespace Streams

variable {ν : Type} [DecidableEq ν]

/-- All streams start as `Stream() = default`. -/
def start : Streams ν := fun _ => Stream.empty

/-- `Exchange` empties the source of a move before its value is stored, so a move to itself
changes nothing. -/
def step (σ : Streams ν) : StreamCall ν → Option (Streams ν × List Cell)
  | .request i r => ((σ i).answer r).map fun a => (Function.update σ i a.1, a.2)
  | .copy i j => some (Function.update σ i (σ j).copy, [])
  | .copyAssign i j => some (Function.update σ i ((σ i).copyAssign (σ j) (i = j)), [])
  | .move i j => some (Function.update (Function.update σ j Stream.empty) i (σ j), [])

end Streams

/-! ## Arguments inside the size -/

def StreamRequest.Inside (s : Stream) : StreamRequest → Prop
  | .setPosition position => position ≤ s.size
  | .skip count => s.pos.toNat + count.toNat ≤ s.size.toNat
  | _ => True

/-- `SetPosition` and `Skip` stay inside the size, as their assertions ask. -/
def StreamCall.Inside {ν : Type} (σ : Streams ν) : StreamCall ν → Prop
  | .request i r => r.Inside (σ i)
  | _ => True

/-- What the rest of the calls need to keep the counters in order. -/
def StreamRequest.InRange (s : Stream) : StreamRequest → Prop
  | .write pSrc => s.HasRoom pSrc.bytes.length
  | .read pDst | .tryRead pDst => s.pos.toNat + pDst.bytes.length < 2 ^ 64
  | .setData pData => s.pos ≤ pData.count
  | _ => True

def StreamCall.InRange {ν : Type} (σ : Streams ν) : StreamCall ν → Prop
  | .request i r => r.InRange (σ i)
  | _ => True

end SRCommon
