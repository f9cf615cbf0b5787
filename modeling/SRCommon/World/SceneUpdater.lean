import Mathlib.Algebra.Group.Int.Defs
import Mathlib.Algebra.Group.Nat.Defs
import Mathlib.Logic.Function.Basic

/-!
# The component pool of the scene updater

`SceneUpdater` keeps the components to update in a vector, and a component
keeps its index in an `int32_t`. The size of the pool and the free indices are
`uint32_t`. An access outside the vector has no meaning.
-/

namespace SRCommon

structure SceneUpdater (κ : Type) where
  dirty : Bool := false
  componentsPoolSize : ℕ := 0
  updatableComponents : List (Option κ) := []
  freeComponentIds : List ℕ := []
  /-- `m_indexInSceneUpdater` of each component. -/
  indexInSceneUpdater : κ → ℤ := fun _ => -1

namespace SceneUpdater

/-- `SR_ID_INVALID`. -/
abbrev idInvalid : ℤ := -1

/-- The conversion of a `uint32_t` to `int32_t`. -/
def toInt32 (n : ℕ) : ℤ := if n < 2 ^ 31 then n else n - 2 ^ 32

/-- The conversion of an `int32_t` to `uint32_t`. -/
def toUInt32 (z : ℤ) : ℕ := (z % 2 ^ 32).toNat

section

variable {κ : Type} [DecidableEq κ]

/-- The assignment `m_updatableComponents[index] = pComponent`. -/
def assign (s : SceneUpdater κ) (index : ℤ) (pComponent : Option κ) : Option (SceneUpdater κ) :=
  if 0 ≤ index ∧ index < s.updatableComponents.length then
    some { s with updatableComponents := s.updatableComponents.set index.toNat pComponent }
  else none

def setIndexIdSceneUpdater (s : SceneUpdater κ) (pComponent : κ) (index : ℤ) : SceneUpdater κ :=
  { s with indexInSceneUpdater := Function.update s.indexInSceneUpdater pComponent index }

def registerComponent (s : SceneUpdater κ) (pComponent : κ) : Option (SceneUpdater κ) :=
  let s := { s with dirty := true }
  match s.freeComponentIds with
  | [] =>
      let s := s.setIndexIdSceneUpdater pComponent (toInt32 s.componentsPoolSize)
      some { s with
        componentsPoolSize := (s.componentsPoolSize + 1) % 2 ^ 32
        updatableComponents := s.updatableComponents ++ [some pComponent] }
  | id :: rest =>
      let s := { s with freeComponentIds := rest }
      (s.setIndexIdSceneUpdater pComponent (toInt32 id)).assign (toInt32 id) (some pComponent)

def unRegisterComponent (s : SceneUpdater κ) (pComponent : κ) : Option (SceneUpdater κ) :=
  let s := { s with dirty := true }
  let index := s.indexInSceneUpdater pComponent
  if toUInt32 index ≥ s.componentsPoolSize then some s
  else
    let s := s.setIndexIdSceneUpdater pComponent idInvalid
    let s := { s with freeComponentIds := s.freeComponentIds ++ [toUInt32 index] }
    s.assign index none

end

section

variable {κ : Type} (executeInEditMode : κ → Bool) (s : SceneUpdater κ)

/-- The components that the loop of a pass calls. -/
def pass (isPaused : Bool) : Option (List κ) :=
  if s.componentsPoolSize ≤ s.updatableComponents.length then
    some (((s.updatableComponents.take s.componentsPoolSize).filterMap id).filter fun pComponent =>
      !(isPaused && !executeInEditMode pComponent))
  else none

def update : Bool → Option (List κ) := pass executeInEditMode s

def fixedUpdate : Bool → Option (List κ) := pass executeInEditMode s

def lateUpdate : Bool → Option (List κ) := pass executeInEditMode s

end

end SceneUpdater

inductive UpdaterCall (κ : Type) where
  | registerComponent (pComponent : κ)
  | unRegisterComponent (pComponent : κ)
  | update (isPaused : Bool)
  | fixedUpdate (isPaused : Bool)
  | lateUpdate (isPaused : Bool)

namespace SceneUpdater

variable {κ : Type} [DecidableEq κ] (executeInEditMode : κ → Bool)

/-- A call with the components that it calls itself. -/
def step (s : SceneUpdater κ) : UpdaterCall κ → Option (SceneUpdater κ × List κ)
  | .registerComponent pComponent => (s.registerComponent pComponent).map fun s => (s, [])
  | .unRegisterComponent pComponent => (s.unRegisterComponent pComponent).map fun s => (s, [])
  | .update isPaused => (s.update executeInEditMode isPaused).map fun visited => (s, visited)
  | .fixedUpdate isPaused =>
      (s.fixedUpdate executeInEditMode isPaused).map fun visited => (s, visited)
  | .lateUpdate isPaused =>
      (s.lateUpdate executeInEditMode isPaused).map fun visited => (s, visited)

end SceneUpdater

end SRCommon
