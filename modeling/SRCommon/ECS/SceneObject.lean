import Mathlib.Algebra.Group.Nat.Defs
import Mathlib.Logic.Function.Basic
import Mathlib.Tactic.Common

/-!
# Scene objects

The links of `SceneObject`: parents, children, and the root and entity path
that are computed from them. An object is known by its pointer; a call through
a null or freed pointer has no meaning. Recursions and loops run on fuel.
-/

namespace SRCommon

structure SceneObject (ι ε : Type) where
  entityId : ε
  entityPath : List ε := []
  root : Option ι := none
  parent : Option ι := none
  isDestroyed : Bool := false
  /-- `m_scene` is set. -/
  hasScene : Bool
  children : List ι := []

/-- What the pointers point to; `none` for objects not created or freed. -/
def SceneHierarchy (ι ε : Type) : Type := ι → Option (SceneObject ι ε)

namespace SceneHierarchy

variable {ι ε : Type}

def empty : SceneHierarchy ι ε := fun _ => none

/-- A pointer that is neither null nor freed, as `SharedPtr::Valid`. -/
def valid (s : SceneHierarchy ι ε) (p : Option ι) : Option ι := p.filter fun i => (s i).isSome

def rootOf (s : SceneHierarchy ι ε) (i : ι) : Option ι := (s i).bind SceneObject.root

section

variable [DecidableEq ι]

def put (s : SceneHierarchy ι ε) (i : ι) (object : SceneObject ι ε) : SceneHierarchy ι ε :=
  Function.update s i (some object)

/-- `AutoFree`. -/
def free (s : SceneHierarchy ι ε) (i : ι) : SceneHierarchy ι ε := Function.update s i none

def updateRoot : ℕ → SceneHierarchy ι ε → ι → Option (SceneHierarchy ι ε)
  | 0, _, _ => none
  | fuel + 1, s, self => (s self).bind fun object =>
      let root := (s.valid object.parent).elim (some self) s.rootOf
      object.children.foldlM (updateRoot fuel) (s.put self { object with root := root })

end

variable [DecidableEq ε]

/-- The loop of `UpdateEntityPath`: `some none` where the id of the object comes back. -/
def walkEntityPath (s : SceneHierarchy ι ε) (entityId : ε) :
    ℕ → ι → List ε → Option (Option (List ε))
  | 0, _, _ => none
  | fuel + 1, current, path => (s current).bind fun object =>
      match s.valid object.parent with
      | none => some (some (object.entityId :: path))
      | some p => (s p).bind fun parent =>
          if parent.entityId = entityId then some none
          else walkEntityPath s entityId fuel p (object.entityId :: path)

variable [DecidableEq ι]

def updateEntityPath (fuel : ℕ) (s : SceneHierarchy ι ε) (self : ι) :
    Option (SceneHierarchy ι ε × Bool) :=
  (s self).bind fun object => (s.walkEntityPath object.entityId fuel self []).map fun
    | none => (s, false)
    | some path => (s.put self { object with entityPath := path }, true)

/-- The constructor, with the id that the entity manager gives. -/
def create (fuel : ℕ) (s : SceneHierarchy ι ε) (self : ι) (entityId : ε) (hasScene : Bool) :
    Option (SceneHierarchy ι ε) :=
  if (s self).isSome then none
  else (updateEntityPath fuel (s.put self { entityId, hasScene }) self).map Prod.fst

def setParent (fuel : ℕ) (s : SceneHierarchy ι ε) (self : ι) (pParent : Option ι) :
    Option (SceneHierarchy ι ε × Bool) :=
  (s self).bind fun object =>
    if pParent = object.parent then some (s, false)
    else
      (updateRoot fuel (s.put self { object with parent := pParent }) self).bind fun s =>
        (updateEntityPath fuel s self).bind fun (s, updated) =>
          if updated then some (s, true)
          else
            -- the parent is put back after the failed walk
            (s self).bind fun current =>
              (updateRoot fuel (s.put self { current with parent := object.parent }) self).map
                fun s => (s, false)

def addChild (fuel : ℕ) (s : SceneHierarchy ι ε) (self pChild : ι) :
    Option (SceneHierarchy ι ε × Bool) :=
  (s self).bind fun object =>
    if pChild = self then some (s, false)
    else (s pChild).bind fun child =>
      if (s.valid child.parent).isSome then some (s, false)
      else if pChild ∈ object.children then some (s, false)
      else (setParent fuel s pChild (some self)).bind fun (s, isSet) =>
        if isSet then
          (s self).map fun object =>
            (s.put self { object with children := object.children ++ [pChild] }, true)
        else some (s, false)

/-- The loop over the children counts in `uint16_t`: it meets the first `2 ^ 16` of them and, when
there are that many, does not end without the child. -/
def removeChild (fuel : ℕ) (s : SceneHierarchy ι ε) (self pChild : ι) :
    Option (SceneHierarchy ι ε) :=
  (setParent fuel s pChild none).bind fun (s, _) => (s self).bind fun object =>
    if pChild ∈ object.children.take (2 ^ 16) then
      some (s.put self { object with children := object.children.erase pChild })
    else if object.children.length < 2 ^ 16 then some s
    else none

/-- `RemoveChild` of the parent, when there is one. -/
def leaveParent (fuel : ℕ) (s : SceneHierarchy ι ε) (self : ι) : Option (SceneHierarchy ι ε) :=
  (s self).bind fun object => match s.valid object.parent with
    | some parent => removeChild fuel s parent self
    | none => some s

def moveToTree (fuel : ℕ) (s : SceneHierarchy ι ε) (self : ι) (destination : Option ι) :
    Option (SceneHierarchy ι ε × Bool) :=
  (leaveParent fuel s self).bind fun s => match s.valid destination with
    | some destination => addChild fuel s destination self
    | none => (s self).map fun object => (s, (s.valid object.parent).isNone)

def removeAllChildren (fuel : ℕ) (s : SceneHierarchy ι ε) (self : ι) :
    Option (SceneHierarchy ι ε) :=
  (s self).bind fun object =>
    (object.children.foldlM (fun s pChild => (setParent fuel s pChild none).map Prod.fst) s).bind
      fun s => (s self).map fun object => s.put self { object with children := [] }

/-- The loops of `Destroy`: without a scene a freed child is only erased. -/
def destroyChildren (destroyChild : SceneHierarchy ι ε → ι → Option (SceneHierarchy ι ε)) :
    ℕ → SceneHierarchy ι ε → ι → Option (SceneHierarchy ι ε)
  | 0, _, _ => none
  | fuel + 1, s, self => (s self).bind fun object => match object.children with
      | [] => some s
      | pChild :: rest =>
          (if (s pChild).isSome || object.hasScene then destroyChild s pChild
            else some (s.put self { object with children := rest })).bind fun s =>
              destroyChildren destroyChild fuel s self

def destroy : ℕ → SceneHierarchy ι ε → ι → Option (SceneHierarchy ι ε)
  | 0, _, _ => none
  | fuel + 1, s, self => (s self).bind fun object =>
      if object.isDestroyed then some s
      else
        (leaveParent fuel (s.put self { object with isDestroyed := true }) self).bind fun s =>
          (destroyChildren (destroy fuel) fuel s self).map fun s =>
            -- a scene frees the object later
            if object.hasScene then s else s.free self

end SceneHierarchy

inductive SceneObjectCall (ι ε : Type) where
  | create (self : ι) (entityId : ε) (hasScene : Bool)
  | addChild (self pChild : ι)
  | removeChild (self pChild : ι)
  | moveToTree (self : ι) (destination : Option ι)
  | removeAllChildren (self : ι)
  | destroy (self : ι)

namespace SceneHierarchy

variable {ι ε : Type} [DecidableEq ι] [DecidableEq ε]

/-- A call with as much fuel as it is given, and what it returns. -/
def step (s : SceneHierarchy ι ε) :
    ℕ × SceneObjectCall ι ε → Option (SceneHierarchy ι ε × Option Bool)
  | (fuel, .create self entityId hasScene) =>
      (create fuel s self entityId hasScene).map fun s => (s, none)
  | (fuel, .addChild self pChild) => (addChild fuel s self pChild).map fun r => (r.1, some r.2)
  | (fuel, .removeChild self pChild) => (removeChild fuel s self pChild).map fun s => (s, none)
  | (fuel, .moveToTree self destination) =>
      (moveToTree fuel s self destination).map fun r => (r.1, some r.2)
  | (fuel, .removeAllChildren self) => (removeAllChildren fuel s self).map fun s => (s, none)
  | (fuel, .destroy self) => (destroy fuel s self).map fun s => (s, none)

end SceneHierarchy

end SRCommon
