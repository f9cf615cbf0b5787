import SRCommon.ECS.SceneObject
import SRCommon.Lib.SlotTable

/-!
# Scenes

The registry of `Scene`: new objects wait in a queue until `Prepare` gives them
a slot, removed ones wait in another until it frees them. The objects without a
parent are cached. An assertion that fails has no meaning.
-/

namespace SRCommon

structure Scene (ι ε : Type) where
  objects : SceneHierarchy ι ε
  /-- `m_sceneObjects` with `m_freeObjIndices`. -/
  table : SlotTable ι
  newQueue : List ι
  deleteQueue : List ι
  /-- `m_idInScene` of each object. -/
  idInScene : ι → ℕ
  isPreDestroyed : Bool
  isDestroyed : Bool
  isHierarchyChanged : Bool
  root : List ι
  /-- The pointers that there have been. A new object does not get one of them, so a pointer to a
  freed object never becomes valid again. -/
  created : List ι

inductive SceneCall (ι ε : Type) where
  | create (self : ι) (entityId : ε)
  | addChild (self pChild : ι)
  | removeChild (self pChild : ι)
  | registerSceneObject (ptr : ι)
  | remove (gameObject : ι)
  | destroyObject (self : ι)
  /-- With components that wait to be destroyed, or without. -/
  | prepare (destroyedComponents : Bool)
  | getRootSceneObjects
  | destroy

namespace Scene

/-- `SR_ID_INVALID` in 64 bits. -/
def invalidId : ℕ := 2 ^ 64 - 1

/-- A vector throws before it has so many elements. -/
def maxSize : ℕ := 2 ^ 63

variable {ι ε : Type}

def empty : Scene ι ε where
  objects := .empty
  table := {}
  newQueue := []
  deleteQueue := []
  idInScene _ := invalidId
  isPreDestroyed := false
  isDestroyed := false
  isHierarchyChanged := false
  root := []
  created := []

def onChanged (s : Scene ι ε) : Scene ι ε := { s with isHierarchyChanged := true }

/-- `m_scene` of an object is this scene. -/
def owns (s : Scene ι ε) (i : ι) : Bool := (s.objects i).any SceneObject.hasScene

def getRootSceneObjects (s : Scene ι ε) : List ι × Scene ι ε :=
  if ¬ s.isHierarchyChanged then (s.root, s)
  else
    let root := s.table.entries.filter fun i => (s.objects i).any fun gameObject =>
      (s.objects.valid gameObject.parent).isNone
    (root, { s with root, isHierarchyChanged := false })

variable [DecidableEq ι]

def remove (s : Scene ι ε) (gameObject : ι) : Option (Scene ι ε × Bool) :=
  (s.objects gameObject).bind fun _ =>
    if s.isDestroyed then none
    else
      let s := { s with deleteQueue := s.deleteQueue ++ [gameObject] }
      let id := s.idInScene gameObject
      if id ≥ s.table.slots.length then
        if gameObject ∈ s.newQueue then
          some ({ s with newQueue := s.newQueue.erase gameObject }.onChanged, true)
        else some (s, false)
      else if s.table.slots[id]? = some (some gameObject) then
        some ({ s with table := s.table.vacate id }.onChanged, true)
      else some (s, false)

def registerSceneObject : ℕ → Scene ι ε → ι → Option (Scene ι ε)
  | 0, _, _ => none
  | fuel + 1, s, ptr => (s.objects ptr).bind fun object =>
      if s.isPreDestroyed ∨ object.hasScene then none
      else
        (object.children.foldlM (registerSceneObject fuel) { s with
          newQueue := s.newQueue ++ [ptr]
          objects := s.objects.put ptr { object with hasScene := true } }).map onChanged

/-- A round of the loop of `Prepare` over the new objects. -/
def placeObject (s : Scene ι ε) (gameObject : ι) : Option (Scene ι ε) :=
  (s.objects gameObject).bind fun _ =>
    if s.table.free = [] ∧ s.table.slots.length + 1 ≥ maxSize then none
    else some { s with
      idInScene := Function.update s.idInScene gameObject s.table.next
      table := s.table.place gameObject }

/-- `DestroyImpl`. -/
def destroyImpl (s : Scene ι ε) (gameObject : ι) : Option (Scene ι ε) :=
  (s.objects gameObject).map fun _ => { s with objects := s.objects.free gameObject }

/-- The loops of `Destroy` of an object. -/
def destroyChildren (destroyChild : Scene ι ε → ι → Option (Scene ι ε)) :
    ℕ → Scene ι ε → ι → Option (Scene ι ε)
  | 0, _, _ => none
  | fuel + 1, s, self => (s.objects self).bind fun object => match object.children with
      | [] => some s
      | pChild :: rest =>
          (if (s.objects pChild).isSome || object.hasScene then destroyChild s pChild
            else some { s with
              objects := s.objects.put self { object with children := rest } }).bind fun s =>
              destroyChildren destroyChild fuel s self

variable [DecidableEq ε]

def create (fuel : ℕ) (s : Scene ι ε) (self : ι) (entityId : ε) : Option (Scene ι ε) :=
  if self ∈ s.created then none
  else (s.objects.create fuel self entityId false).map fun objects =>
    { s with
      objects
      created := self :: s.created
      idInScene := Function.update s.idInScene self invalidId }

/-- The scenes of the child and of the parent are told of a success. -/
def addChild (fuel : ℕ) (s : Scene ι ε) (self pChild : ι) : Option (Scene ι ε × Bool) :=
  (s.objects.addChild fuel self pChild).map fun (objects, added) =>
    if added ∧ (s.owns pChild ∨ s.owns self) then ({ s with objects }.onChanged, added)
    else ({ s with objects }, added)

/-- The scene of the child is told when `SetParent` succeeds. -/
def removeChild (fuel : ℕ) (s : Scene ι ε) (self pChild : ι) : Option (Scene ι ε) :=
  (s.objects.setParent fuel pChild none).bind fun (_, isSet) =>
    (s.objects.removeChild fuel self pChild).map fun objects =>
      if isSet ∧ s.owns pChild then { s with objects }.onChanged else { s with objects }

def leaveParent (fuel : ℕ) (s : Scene ι ε) (self : ι) : Option (Scene ι ε) :=
  (s.objects self).bind fun object => match s.objects.valid object.parent with
    | some parent => removeChild fuel s parent self
    | none => some s

/-- `Destroy` of an object. -/
def destroyObject : ℕ → Scene ι ε → ι → Option (Scene ι ε)
  | 0, _, _ => none
  | fuel + 1, s, self => (s.objects self).bind fun object =>
      if object.isDestroyed then some s
      else
        (leaveParent fuel
          { s with objects := s.objects.put self { object with isDestroyed := true } } self).bind
            fun s =>
              if object.hasScene then (s.remove self).bind fun (s, _) =>
                destroyChildren (destroyObject fuel) fuel s self
              else (destroyChildren (destroyObject fuel) fuel s self).bind fun s =>
                destroyImpl s self

/-- The loop of `Prepare` in a scene that is going to be destroyed. -/
def destroyNewQueue : ℕ → Scene ι ε → Option (Scene ι ε)
  | 0, _ => none
  | fuel + 1, s => match s.newQueue with
      | [] => some s
      | gameObject :: rest =>
          (if (s.objects gameObject).isSome then destroyObject fuel s gameObject
            else some { s with newQueue := rest }).bind (destroyNewQueue fuel)

def prepare (fuel : ℕ) (s : Scene ι ε) (destroyedComponents : Bool) : Option (Scene ι ε) :=
  let s := if s.deleteQueue ≠ [] ∨ s.newQueue ≠ [] ∨ destroyedComponents then s.onChanged else s
  (if s.isPreDestroyed then destroyNewQueue fuel s else s.newQueue.foldlM placeObject s).bind
    fun s =>
      (s.deleteQueue.foldlM destroyImpl { s with newQueue := [] }).map fun s =>
        { s with deleteQueue := [] }

/-- `Destroy` of the scene. -/
def destroy (fuel : ℕ) (s : Scene ι ε) : Option (Scene ι ε) :=
  if s.isDestroyed then some s
  else
    let (root, s) := { s with isPreDestroyed := true }.getRootSceneObjects
    (root.foldlM (destroyObject fuel) s).bind fun s => (prepare fuel s false).map fun s =>
      { s with isDestroyed := true, isHierarchyChanged := true }

/-- A call with its fuel, and the objects that it returns. -/
def step (s : Scene ι ε) : ℕ × SceneCall ι ε → Option (Scene ι ε × List ι)
  | (fuel, .create self entityId) => (create fuel s self entityId).map fun s => (s, [])
  | (fuel, .addChild self pChild) => (addChild fuel s self pChild).map fun r => (r.1, [])
  | (fuel, .removeChild self pChild) => (removeChild fuel s self pChild).map fun s => (s, [])
  | (fuel, .registerSceneObject ptr) => (registerSceneObject fuel s ptr).map fun s => (s, [])
  | (_, .remove gameObject) => (remove s gameObject).map fun r => (r.1, [])
  | (fuel, .destroyObject self) => (destroyObject fuel s self).map fun s => (s, [])
  | (fuel, .prepare destroyedComponents) =>
      (prepare fuel s destroyedComponents).map fun s => (s, [])
  | (_, .getRootSceneObjects) => some (s.getRootSceneObjects.2, s.getRootSceneObjects.1)
  | (fuel, .destroy) => (destroy fuel s).map fun s => (s, [])

end Scene

end SRCommon
