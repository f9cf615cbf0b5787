import Mathlib.Algebra.Group.Nat.Defs
import Mathlib.Logic.Function.Basic

/-!
# SharedPtr

Handles refer to an object and to a block that counts them. A class may derive
from `SharedPtr`; an object of it has its block from the beginning. Objects and
blocks never get the address of another one, and what touches a block or an
object that is gone has no meaning.
-/

namespace SRCommon

inductive SharedPtrPolicy where
  | automatic
  | manually
  deriving DecidableEq

structure SharedPtrDynamicData where
  strongCount : UInt16
  weakCount : UInt16 := 0
  valid : Bool
  deallocated : Bool := false
  policy : SharedPtrPolicy
  deriving DecidableEq

structure SharedPtr (ω : Type) where
  data : Option ℕ := none
  ptr : Option ω := none
  deriving DecidableEq

inductive PointedObject where
  | absent
  /-- With the `m_data` of an object whose class derives from `SharedPtr`. -/
  | alive (data : Option ℕ)
  | deleted
  /-- Deleted by `AutoFree`. -/
  | released
  deriving DecidableEq

@[ext]
structure SharedPtrs (η ω : Type) where
  handle : η → Option (SharedPtr ω) := fun _ => none
  block : ℕ → Option SharedPtrDynamicData := fun _ => none
  nextBlock : ℕ := 0
  object : ω → PointedObject := fun _ => .absent

inductive SharedPtrCall (η ω : Type) where
  /-- `new T`, which constructs the object's own `SharedPtr` with the policy. -/
  | create (o : ω) (policy : SharedPtrPolicy)
  | construct (h : η) (ptr : Option ω)
  | copy (h g : η)
  | move (h g : η)
  | copyAssign (h g : η)
  | moveAssign (h g : η)
  | assign (h : η) (ptr : Option ω)
  | reset (h : η)
  | autoFree (h : η)
  /-- `AutoFree` of the object's own `SharedPtr`. -/
  | autoFreeThis (o : ω)
  | destroy (h : η)

namespace SharedPtrs

variable {η ω : Type} [DecidableEq η] [DecidableEq ω] (s : SharedPtrs η ω)

def setHandle (h : η) (p : Option (SharedPtr ω)) : SharedPtrs η ω :=
  { s with handle := Function.update s.handle h p }

def setBlock (b : ℕ) (d : Option SharedPtrDynamicData) : SharedPtrs η ω :=
  { s with block := Function.update s.block b d }

def setObject (o : ω) (object : PointedObject) : SharedPtrs η ω :=
  { s with object := Function.update s.object o object }

/-- `none` where the block is gone. -/
def valid (p : SharedPtr ω) : Option Bool :=
  match p.data with
  | none => some false
  | some b => (s.block b).map (·.valid)

/-- `delete`, which does nothing to a null pointer and must not meet an object twice. -/
def delete (ptr : Option ω) (object : PointedObject) : Option (SharedPtrs η ω) :=
  match ptr with
  | none => some s
  | some o =>
      match s.object o with
      | .alive _ => some (s.setObject o object)
      | _ => none

/-- `Reset` of the last handle. -/
def resetLast (ptr : Option ω) (b : ℕ) (d : SharedPtrDynamicData) : Option (SharedPtrs η ω) :=
  (if d.policy = .automatic ∧ d.valid = true then
    (s.setBlock b (some { d with valid := false })).delete ptr .deleted
  else some s).map fun s => if d.weakCount = 0 then s.setBlock b none else s

def reset (h : η) : Option (SharedPtrs η ω) :=
  (s.handle h).bind fun p =>
    match p.data with
    | none => some (s.setHandle h (some {}))
    | some b =>
        (s.block b).bind fun d =>
          if d.strongCount = 1 then (s.setHandle h (some {})).resetLast p.ptr b d
          else some ((s.setHandle h (some {})).setBlock b
            (some { d with strongCount := d.strongCount - 1 }))

/-- A handle takes what another one has, `none` where the block is gone. -/
def share (h : η) (p : SharedPtr ω) (f : SharedPtrDynamicData → SharedPtrDynamicData) :
    Option (SharedPtrs η ω) :=
  match p.data with
  | none => some (s.setHandle h (some p))
  | some b =>
      (s.block b).map fun d =>
        (s.setBlock b (some { f d with strongCount := (f d).strongCount + 1 })).setHandle h (some p)

/-- A new block for an object whose class does not derive from `SharedPtr`. -/
def allocate (h : η) (o : ω) : SharedPtrs η ω where
  handle := Function.update s.handle h (some ⟨some s.nextBlock, some o⟩)
  block := Function.update s.block s.nextBlock
    (some { strongCount := 1, valid := true, policy := .automatic })
  nextBlock := s.nextBlock + 1
  object := s.object

/-- A null handle is given a pointer. -/
def take (derived : Bool) (h : η) (o : ω) : Option (SharedPtrs η ω) :=
  if derived = true then
    match s.object o with
    | .alive (some b) => s.share h ⟨some b, some o⟩ id
    | .alive none => some s
    | _ => none
  else some (s.allocate h o)

def create (derived : Bool) (o : ω) (policy : SharedPtrPolicy) : SharedPtrs η ω :=
  if derived = true then
    { s with
      block := Function.update s.block s.nextBlock
        (some { strongCount := 0, valid := true, policy := policy })
      nextBlock := s.nextBlock + 1
      object := Function.update s.object o (.alive (some s.nextBlock)) }
  else s.setObject o (.alive none)

def construct (derived : Bool) (h : η) (ptr : Option ω) : Option (SharedPtrs η ω) :=
  match ptr with
  | none => some (s.setHandle h (some {}))
  | some o => (s.setHandle h (some {})).take derived h o

def moveFrom (h g : η) : Option (SharedPtrs η ω) :=
  (s.handle g).map fun p => (s.setHandle g (some {})).setHandle h (some p)

def copyAssign (h g : η) : Option (SharedPtrs η ω) :=
  if h = g then (s.handle h).map fun _ => s
  else (s.reset h).bind fun s =>
    (s.handle g).bind fun p => s.share h p fun d => { d with valid := p.ptr.isSome }

def assign (derived : Bool) (h : η) (ptr : Option ω) : Option (SharedPtrs η ω) :=
  match ptr with
  | none => s.reset h
  | some o =>
      (s.handle h).bind fun p =>
        if p.ptr = some o then some s else (s.reset h).bind fun s => s.take derived h o

/-- `AutoFree()` and whether it has released the object. -/
def autoFree (p : SharedPtr ω) : Option (SharedPtrs η ω × Bool) :=
  match p.data with
  | none => some (s, false)
  | some b =>
      (s.block b).bind fun d =>
        if d.valid = true then
          ((s.setBlock b (some { d with deallocated := true })).delete p.ptr .released).map fun s =>
            (s.setBlock b (some { d with deallocated := true, valid := false }), true)
        else some (s, false)

def destroy (h : η) : Option (SharedPtrs η ω) :=
  (s.handle h).bind fun p =>
    (if p.data = none then some s else s.reset h).map fun s => s.setHandle h none

/-- With the answer of `AutoFree`, and `false` otherwise. -/
def step (derived : Bool) : SharedPtrCall η ω → Option (SharedPtrs η ω × Bool)
  | .create o policy =>
      if s.object o = .absent then some (s.create derived o policy, false) else none
  | .construct h ptr =>
      if s.handle h = none then (s.construct derived h ptr).map (·, false) else none
  | .copy h g =>
      if s.handle h = none then
        ((s.handle g).bind fun p => s.share h p id).map (·, false)
      else none
  | .move h g => if s.handle h = none then (s.moveFrom h g).map (·, false) else none
  | .copyAssign h g => (s.copyAssign h g).map (·, false)
  | .moveAssign h g => ((s.reset h).bind fun s => s.moveFrom h g).map (·, false)
  | .assign h ptr => (s.assign derived h ptr).map (·, false)
  | .reset h => (s.reset h).map (·, false)
  | .autoFree h => (s.handle h).bind s.autoFree
  | .autoFreeThis o =>
      if derived = true then
        match s.object o with
        | .alive data => s.autoFree ⟨data, some o⟩
        | _ => none
      else none
  | .destroy h => (s.destroy h).map (·, false)

end SharedPtrs

end SRCommon
