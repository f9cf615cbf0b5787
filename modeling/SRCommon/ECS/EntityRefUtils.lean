import Mathlib.Algebra.Group.Nat.Defs
import SRCommon.Lib.ListSearch
import SRCommon.Lib.ParentForest

/-!
# Entity references

The paths of `EntityRefUtils` in a scene at one moment. A null pointer that is
dereferenced has no meaning, and neither has a signed overflow; the loop that
climbs to the scene runs on fuel.
-/

namespace SRCommon

/-- The objects of a scene and the components attached to them or to the scene itself, which is
`none`. -/
structure SceneTree (ι κ ν : Type) where
  /-- `GetRootSceneObjects`. -/
  roots : List ι
  children : ι → List ι
  parent : ι → Option ι
  name : ι → ν
  components : Option ι → List κ
  owner : κ → Option ι
  componentName : κ → ν
  forest : ParentForest.IsForest parent children
  mem_roots : ∀ i, i ∈ roots ↔ parent i = none
  nodup_roots : roots.Nodup
  mem_components : ∀ c o, c ∈ components o ↔ owner c = o
  nodup_components : ∀ o, (components o).Nodup

inductive Entity (ι κ : Type) where
  | object (i : ι)
  | component (c : κ)
  deriving DecidableEq

inductive Action where
  | parent
  | child
  | component
  deriving DecidableEq

structure PathItem (ν : Type) where
  name : ν
  index : UInt16
  action : Action
  deriving DecidableEq

abbrev RefPath (ν : Type) := List (PathItem ν)

structure OwnerRef (ι κ : Type) where
  pEntity : Option (Entity ι κ)
  /-- `pScene` is set. -/
  pScene : Bool

namespace OwnerRef

variable {ι κ : Type}

def ofEntity (e : Entity ι κ) : OwnerRef ι κ := ⟨some e, false⟩

def ofScene : OwnerRef ι κ := ⟨none, true⟩

end OwnerRef

namespace SceneTree

variable {ι κ ν : Type} (t : SceneTree ι κ ν)

/-- How `GetEntity` ends before the end of the path. -/
inductive Halt where
  | crash
  | nullptr

def actionParent (owner : OwnerRef ι κ) (pEntity : Option (Entity ι κ)) : Option (Entity ι κ) :=
  let pObject := match pEntity with
    | some (.object i) => some i
    | _ => match owner.pEntity with
        | some (.component c) => t.owner c
        | some (.object i) => t.parent i
        | none => none
  match pObject with
  | some i => (t.parent i).map .object
  | none => pEntity

/-- The `tree` of a step to a child. -/
def tree (owner : OwnerRef ι κ) (pEntity : Option (Entity ι κ)) : Option (List ι) :=
  match pEntity with
  | none => match owner.pEntity with
      | some (.object i) => some (t.children i)
      | some (.component c) => (t.owner c).map t.children
      | none => if owner.pScene then some t.roots else none
  | some (.object i) => some (t.children i)
  | some (.component _) => none

/-- `GetSceneFromOwner` gives a scene. -/
def getSceneFromOwner (owner : OwnerRef ι κ) : Bool :=
  match owner.pEntity with
  | some (.component c) => (t.owner c).isSome
  | some (.object _) => true
  | none => owner.pScene

/-- The `components` of a step to a component. -/
def componentsOf (owner : OwnerRef ι κ) (pEntity : Option (Entity ι κ)) : Option (List κ) :=
  match pEntity with
  | some (.object i) => some (t.components (some i))
  | some (.component _) => none
  | none => if t.getSceneFromOwner owner then some (t.components none) else none

section

variable [DecidableEq ν]

/-- Nothing stops the loop at the child that it has found. -/
def actionChild (owner : OwnerRef ι κ) (pEntity : Option (Entity ι κ)) (item : PathItem ν) :
    Except Halt (Option (Entity ι κ)) :=
  match t.tree owner pEntity with
  | none => .error .nullptr
  | some tree => match ListSearch.last t.name item.name none tree item.index.toNat with
      | some pChild => .ok (some (.object pChild))
      | none => .error .nullptr

def actionComponent (owner : OwnerRef ι κ) (pEntity : Option (Entity ι κ)) (item : PathItem ν) :
    Except Halt (Option (Entity ι κ)) :=
  match t.componentsOf owner pEntity with
  | none => .error .crash
  | some [] => .error .nullptr
  | some components =>
      match ListSearch.nth t.componentName item.name components item.index.toNat with
      | some pComponent => .ok (some (.component pComponent))
      | none => .ok pEntity

def follow (owner : OwnerRef ι κ) (pEntity : Option (Entity ι κ)) (item : PathItem ν) :
    Except Halt (Option (Entity ι κ)) :=
  match item.action with
  | .parent => .ok (t.actionParent owner pEntity)
  | .child => t.actionChild owner pEntity item
  | .component => t.actionComponent owner pEntity item

def getEntity (owner : OwnerRef ι κ) (path : RefPath ν) : Option (Option (Entity ι κ)) :=
  match path.foldlM (t.follow owner) none with
  | .ok pEntity => some pEntity
  | .error .nullptr => some none
  | .error .crash => none

end

/-- The objects beside those below `o`. -/
def siblings : Option ι → List ι
  | some p => t.children p
  | none => t.roots

section

variable [DecidableEq ι] [DecidableEq κ] [DecidableEq ν]

def componentItem (c : κ) : PathItem ν where
  name := t.componentName c
  index := .ofNat (ListSearch.ordinal t.componentName c (t.components (t.owner c)))
  action := .component

def objectItem (i : ι) : PathItem ν where
  name := t.name i
  index := .ofNat (ListSearch.ordinal t.name i (t.siblings (t.parent i)))
  action := .child

/-- The loop of `CalculatePath`. -/
def climb : ℕ → Option (Entity ι κ) → RefPath ν → Option (RefPath ν)
  | 0, _, _ => none
  | _ + 1, none, refPath => some refPath.reverse
  | fuel + 1, some (.component c), refPath =>
      climb fuel ((t.owner c).map .object) (refPath ++ [t.componentItem c])
  | fuel + 1, some (.object i), refPath =>
      climb fuel ((t.parent i).map .object) (refPath ++ [t.objectItem i])

def calculatePath (fuel : ℕ) (source : OwnerRef ι κ) : Option (RefPath ν) :=
  if source.pScene then some [] else t.climb fuel source.pEntity []

/-- The loop over the common prefix, whose bound is an `int32_t`. -/
def offset (fromPath targetPath : RefPath ν) : ℕ :=
  let minSize : ℤ := Int.bmod (min fromPath.length targetPath.length) (2 ^ 32)
  ListSearch.commonPrefix (fromPath.take minSize.toNat) targetPath

/-- The rounds of the loop that counts an `int32_t` down from the second last item. -/
def parentSteps (fromPath : RefPath ν) (offset : ℕ) : ℕ :=
  (Int.bmod (fromPath.length - 2) (2 ^ 32) - offset + 1).toNat

/-- The name and the index of a step to the parent are not set. -/
def parentItem [Inhabited ν] : PathItem ν := ⟨default, 0, .parent⟩

/-- The last loop counts in `int32_t` up to the size of the path of the target. -/
def calculateRelativePath [Inhabited ν] (fuel : ℕ) (source target : OwnerRef ι κ) :
    Option (RefPath ν) :=
  (t.calculatePath fuel source).bind fun fromPath =>
    (t.calculatePath fuel target).bind fun targetPath =>
      let offset := offset fromPath targetPath
      if targetPath.length ≥ 2 ^ 31 then none
      else some (List.replicate (parentSteps fromPath offset) parentItem ++
        targetPath.drop offset)

end

end SceneTree

end SRCommon
