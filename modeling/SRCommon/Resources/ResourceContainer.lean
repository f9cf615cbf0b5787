import Mathlib.Data.Set.Card
import SRCommon.Lib.PartialRun
import SRCommon.Resources.ResourceManager

/-!
# Dependencies between containers

Both ends of a dependency hold it in a set. A container that is a resource gets
a use point with every `AddDependency`, whether or not it was a dependency
before.
-/

namespace SRCommon

/-- The containers, some of which are resources of the manager. -/
structure Containers (ι : Type) where
  manager : ResourceManager ι
  live : ι → Bool
  dependencies : ι → List ι := fun _ => []
  parents : ι → List ι := fun _ => []

inductive ContainerCall (ι : Type) where
  | addDependency (this pContainer : ι)
  | removeDependency (this pContainer : ι)
  | destruct (this : ι)

namespace Containers

variable {ι : Type} [DecidableEq ι] (s : Containers ι)

/-- Both sets give up a dependency. -/
def unlink (this pContainer : ι) : Containers ι :=
  { s with
    dependencies := Function.update s.dependencies this ((s.dependencies this).erase pContainer)
    parents := Function.update s.parents pContainer ((s.parents pContainer).erase this) }

/-- The loop of `~ResourceContainer`. The container is no `IResource` any more. A parent that does
not have the dependency would stay the first one for ever. -/
def leaveParents (this : ι) : List ι → Containers ι → Option (Containers ι)
  | [], s => some s
  | pParent :: parents, s =>
      if s.live pParent && decide (this ∈ s.dependencies pParent) then
        leaveParents this parents (s.unlink pParent this)
      else none

/-- `~ResourceContainer`, after which the sets are gone. -/
def destructContainer (this : ι) : Option (Containers ι) :=
  (leaveParents this (s.parents this) s).map fun s =>
    { s with
      live := Function.update s.live this false
      dependencies := Function.update s.dependencies this []
      parents := Function.update s.parents this [] }

def addDependency (this pContainer : ι) : Option (Containers ι) :=
  if s.live this && s.live pContainer then
    (if (s.manager.resource pContainer).isSome then IResource.addUsePoint s.manager pContainer
      else some s.manager).map fun manager =>
        { s with
          manager
          dependencies := Function.update s.dependencies this
            ((s.dependencies this).insert pContainer)
          parents := Function.update s.parents pContainer ((s.parents pContainer).insert this) }
  else none

/-- `RemoveUsePoint` may delete the container. -/
def removeDependency (this pContainer : ι) : Option (Containers ι) :=
  if s.live this && s.live pContainer then
    if pContainer ∉ s.dependencies this ∨ this ∉ s.parents pContainer then some s
    else
      let s := s.unlink this pContainer
      if (s.manager.resource pContainer).isSome then
        (IResource.removeUsePoint s.manager pContainer).bind fun (_, manager) =>
          let s := { s with manager }
          if (manager.resource pContainer).isSome then some s else s.destructContainer pContainer
      else some s
  else none

/-- The destructors of a container, first that of the resource if it is one. -/
def destruct (this : ι) : Option (Containers ι) :=
  if s.live this then
    (if (s.manager.resource this).isSome then IResource.deleteResource s.manager this
      else some s.manager).bind fun manager => { s with manager }.destructContainer this
  else none

def step (s : Containers ι) : ContainerCall ι → Option (Containers ι × Unit)
  | .addDependency this pContainer => (s.addDependency this pContainer).map fun s => (s, ())
  | .removeDependency this pContainer => (s.removeDependency this pContainer).map fun s => (s, ())
  | .destruct this => (s.destruct this).map fun s => (s, ())

end Containers

end SRCommon
