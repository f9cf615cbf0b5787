import SRCommon.ECS.EntityRefUtils
import SRCommon.TypeTraits.Property

/-!
# References to entities

`EntityRef` keeps a path and the target that it has led to. Which of the two is
computed from the other, and when, is up to its methods. They are calls in a
scene at one moment, where every entity has a parent or a scene.
-/

namespace SRCommon

namespace Action

def code : Action → UInt8
  | parent => 0
  | child => 1
  | component => 2

/-- The cast from a number, which may be none of the three. -/
def ofCode (code : UInt8) : Option Action :=
  [parent, child, component].find? fun action => action.code = code

end Action

/-- An item as a reference keeps it, with the number of its action. -/
structure StoredItem where
  name : StringAtom
  index : UInt16
  action : UInt8
  deriving DecidableEq

def PathItem.stored (item : PathItem StringAtom) : StoredItem where
  name := item.name
  index := item.index
  action := item.action.code

namespace SceneTree

variable {ι κ : Type} (t : SceneTree ι κ StringAtom)

/-- A step of `GetEntity`, which passes over what is no action. -/
def followStored (owner : OwnerRef ι κ) (pEntity : Option (Entity ι κ)) (item : StoredItem) :
    Except Halt (Option (Entity ι κ)) :=
  match Action.ofCode item.action with
  | some action => t.follow owner pEntity { name := item.name, index := item.index, action }
  | none => .ok pEntity

def getStoredEntity (owner : OwnerRef ι κ) (path : List StoredItem) :
    Option (Option (Entity ι κ)) :=
  match path.foldlM (t.followStored owner) none with
  | .ok pEntity => some pEntity
  | .error .nullptr => some none
  | .error .crash => none

end SceneTree

structure EntityRef (ι κ : Type) where
  path : List StoredItem := []
  relative : Bool := true
  owner : OwnerRef ι κ
  target : Option (Entity ι κ) := none

namespace StoredItem

def write (marshal : Marshal) (item : StoredItem) : Option Marshal :=
  (marshal.writeNumber .unsignedShort item.index.toNat).bind fun marshal =>
    (marshal.writeNumber .unsignedChar item.action.toNat).bind fun marshal =>
      marshal.writeString item.name

def read (marshal : Marshal) : Option (StoredItem × Marshal) :=
  (marshal.readNumber .unsignedShort).bind fun (index, marshal) =>
    (marshal.readNumber .unsignedChar).bind fun (action, marshal) =>
      marshal.readString.map fun (name, marshal) =>
        ({ name, index := .ofNat index, action := .ofNat action }, marshal)

def readMany : ℕ → Marshal → Option (List StoredItem × Marshal)
  | 0, marshal => some ([], marshal)
  | n + 1, marshal => (read marshal).bind fun (item, marshal) =>
      (readMany n marshal).map fun (items, marshal) => (item :: items, marshal)

end StoredItem

def OwnerRef.isValid {ι κ : Type} (owner : OwnerRef ι κ) : Bool :=
  owner.pScene || owner.pEntity.isSome

namespace EntityRef

section

variable {ι κ : Type} (ref : EntityRef ι κ)

def load (marshal : Marshal) : Option (EntityRef ι κ × Marshal) :=
  (marshal.readNumber .bool).bind fun (relative, marshal) =>
    (marshal.readNumber .unsignedShort).bind fun (length, marshal) =>
      (StoredItem.readMany length marshal).map fun (path, marshal) =>
        ({ ref with relative := decide (relative ≠ 0), path }, marshal)

def copy (owner : OwnerRef ι κ) : EntityRef ι κ where
  path := ref.path
  relative := ref.relative
  owner := owner

end

variable {ι κ : Type} [DecidableEq ι] [DecidableEq κ] (t : SceneTree ι κ StringAtom) (fuel : ℕ)

/-- `CalculateRelativePath` or `CalculatePath`. -/
def calculate (ref : EntityRef ι κ) (target : Entity ι κ) : Option (RefPath StringAtom) :=
  if ref.relative then t.calculateRelativePath fuel ref.owner (.ofEntity target)
  else t.calculatePath fuel (.ofEntity target)

def updatePath (ref : EntityRef ι κ) : Option (EntityRef ι κ) :=
  match ref.target with
  | none => some ref
  | some target =>
      if ref.owner.isValid then
        (ref.calculate t fuel target).map fun path => { ref with path := path.map PathItem.stored }
      else some ref

/-- An absolute path starts from the scene of the owner, if it has one. -/
def updateTarget (ref : EntityRef ι κ) : Option (EntityRef ι κ) :=
  let owner := if ref.relative then ref.owner else ⟨none, t.getSceneFromOwner ref.owner⟩
  (t.getStoredEntity owner ref.path).map fun target => { ref with target }

def setPathTo (ref : EntityRef ι κ) (pEntity : Option (Entity ι κ)) : Option (EntityRef ι κ) :=
  if ref.owner.isValid then
    match pEntity with
    | none => some { ref with target := none, path := [] }
    | some target => (ref.calculate t fuel target).bind fun path =>
        updateTarget t { ref with path := path.map PathItem.stored }
  else some ref

/-- The first lines of the getters. -/
def refresh (ref : EntityRef ι κ) : Option (EntityRef ι κ) :=
  (if ref.path.isEmpty ∧ ref.target.isSome then ref.updatePath t fuel else some ref).bind
    fun ref => if ref.target.isNone then ref.updateTarget t else some ref

def getSceneObject (ref : EntityRef ι κ) : Option (EntityRef ι κ × Option ι) :=
  (ref.refresh t fuel).map fun ref => match ref.target with
    | some (.object i) => (ref, some i)
    | _ => (ref, none)

def getComponent (ref : EntityRef ι κ) : Option (EntityRef ι κ × Option κ) :=
  (ref.refresh t fuel).map fun ref => match ref.target with
    | some (.component c) => (ref, some c)
    | _ => (ref, none)

def save (ref : EntityRef ι κ) (marshal : Marshal) : Option (EntityRef ι κ × Marshal) :=
  (ref.updatePath t fuel).bind fun ref =>
    (marshal.writeNumber .bool ref.relative.toNat).bind fun marshal =>
      (marshal.writeNumber .unsignedShort ref.path.length).bind fun marshal =>
        (ref.path.foldlM StoredItem.write marshal).map fun marshal => (ref, marshal)

end EntityRef

end SRCommon
