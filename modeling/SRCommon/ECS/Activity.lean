import SRCommon.ECS.SceneObject

/-!
# Activity

Objects are switched on and off, and `SceneUpdater::Build` computes which of
them are active. Dirty flags lead it to the branches that have changed.
-/

namespace SRCommon

/-- The objects of one scene, each of them in a slot. The components are those of the objects. -/
structure ActiveScene (ι ε : Type) where
  objects : SceneHierarchy ι ε
  sceneObjects : List ι
  isEnabled : ι → Bool
  isActive : ι → Bool
  isDirty : ι → Bool
  hasComponents : ι → Bool
  hasNotAttachedComponents : ι → Bool
  /-- `m_dirty` of the updater. -/
  isUpdaterDirty : Bool

inductive ActivityCall (ι ε : Type) where
  | create (self : ι) (entityId : ε)
  | addComponent (self : ι)
  | setEnabled (self : ι) (value : Bool)
  | addChild (self pChild : ι)
  | removeChild (self pChild : ι)
  | moveToTree (self : ι) (destination : Option ι)
  /-- The updater may be told of a change while it builds, by components or by the scene. -/
  | build (told : Bool)

namespace ActiveScene

variable {ι ε : Type}

def empty : ActiveScene ι ε where
  objects := .empty
  sceneObjects := []
  isEnabled _ := false
  isActive _ := false
  isDirty _ := false
  hasComponents _ := false
  hasNotAttachedComponents _ := false
  isUpdaterDirty := false

def rootSceneObjects (s : ActiveScene ι ε) : List ι :=
  s.sceneObjects.filter fun i => (s.objects i).any fun gameObject =>
    (s.objects.valid gameObject.parent).isNone

variable [DecidableEq ι]

/-- `IComponentable::SetDirty`. -/
def componentableSetDirty (s : ActiveScene ι ε) (self : ι) (dirty : Bool) :
    ActiveScene ι ε × Bool :=
  let dirty := s.hasNotAttachedComponents self || dirty
  ({ s with isDirty := Function.update s.isDirty self dirty }, dirty)

/-- The loop over the children is left at the first that stays dirty. -/
def setDirty : ℕ → ActiveScene ι ε → ι → Bool → Option (ActiveScene ι ε × Bool)
  | 0, _, _, _ => none
  | fuel + 1, s, self, dirty => (s.objects self).bind fun object =>
      if s.isDirty self = dirty then some (s, dirty)
      else
        let (s, stillDirty) := s.componentableSetDirty self dirty
        if stillDirty ∧ ¬ dirty then some (s, true)
        else if dirty then
          match s.objects.valid object.parent with
          | some parent => (setDirty fuel s parent dirty).map fun r => (r.1, true)
          | none => some (if object.hasScene then { s with isUpdaterDirty := true } else s, true)
        else
          (object.children.foldlM (fun (r : ActiveScene ι ε × Bool) child =>
            if r.2 then some r else setDirty fuel r.1 child dirty) (s, false)).map
              fun (s, stillDirty) =>
                if stillDirty then s.componentableSetDirty self true else (s, false)

def postLoad : ℕ → Bool → ActiveScene ι ε → ι → Option (ActiveScene ι ε)
  | 0, _, _, _ => none
  | fuel + 1, force, s, self => (s.objects self).bind fun object =>
      if ¬ force ∧ ¬ s.isDirty self then some s
      else object.children.foldlM (postLoad fuel true)
        (if s.hasComponents self then { s with
          hasNotAttachedComponents := Function.update s.hasNotAttachedComponents self false }
        else s)

def checkActivity : ℕ → Bool → ActiveScene ι ε → ι → Option (ActiveScene ι ε)
  | 0, _, _, _ => none
  | fuel + 1, force, s, self => (s.objects self).bind fun object =>
      if ¬ force ∧ ¬ s.isDirty self then some s
      else
        let isActivePrev := s.isActive self
        let isActive := s.isEnabled self && (s.objects.valid object.parent).elim true s.isActive
        let s := { s with isActive := Function.update s.isActive self isActive }
        if ¬ isActive ∧ isActive = isActivePrev then some s
        else object.children.foldlM (checkActivity fuel true) s

def start : ℕ → Bool → ActiveScene ι ε → ι → Option (ActiveScene ι ε)
  | 0, _, _, _ => none
  | fuel + 1, force, s, self => (s.objects self).bind fun object =>
      if ¬ force ∧ ¬ s.isDirty self then some s
      else (setDirty fuel s self false).bind fun (s, _) =>
        object.children.foldlM (start fuel true) s

/-- `Awake`, between the first two loops, changes components only. -/
def build (fuel : ℕ) (s : ActiveScene ι ε) (told : Bool) : Option (ActiveScene ι ε) :=
  if ¬ s.isUpdaterDirty then some s
  else
    let root := s.rootSceneObjects
    (root.foldlM (postLoad fuel false) { s with isUpdaterDirty := false }).bind fun s =>
      (root.foldlM (checkActivity fuel false) s).bind fun s =>
        (root.foldlM (start fuel false) s).map fun s => { s with isUpdaterDirty := told }

def setEnabled (fuel : ℕ) (s : ActiveScene ι ε) (self : ι) (value : Bool) :
    Option (ActiveScene ι ε) :=
  (s.objects self).bind fun _ =>
    if s.isEnabled self = value then some s
    else (setDirty fuel { s with isEnabled := Function.update s.isEnabled self value }
      self true).map Prod.fst

def addComponent (fuel : ℕ) (s : ActiveScene ι ε) (self : ι) : Option (ActiveScene ι ε) :=
  (setDirty fuel { s with
    hasComponents := Function.update s.hasComponents self true
    hasNotAttachedComponents := Function.update s.hasNotAttachedComponents self true }
    self true).map Prod.fst

variable [DecidableEq ε]

/-- The constructor, `RegisterSceneObject` and `Prepare`, which both tell the updater. -/
def create (fuel : ℕ) (s : ActiveScene ι ε) (self : ι) (entityId : ε) :
    Option (ActiveScene ι ε) :=
  (s.objects.create fuel self entityId true).map fun objects => {
    objects
    sceneObjects := s.sceneObjects ++ [self]
    isEnabled := Function.update s.isEnabled self true
    isActive := Function.update s.isActive self false
    isDirty := Function.update s.isDirty self true
    hasComponents := Function.update s.hasComponents self false
    hasNotAttachedComponents := Function.update s.hasNotAttachedComponents self false
    isUpdaterDirty := true }

def addChild (fuel : ℕ) (s : ActiveScene ι ε) (self pChild : ι) :
    Option (ActiveScene ι ε × Bool) :=
  (s.objects.addChild fuel self pChild).bind fun (objects, added) =>
    if added then (setDirty fuel { s with objects } self true).map fun r => (r.1, true)
    else some ({ s with objects }, false)

def removeChild (fuel : ℕ) (s : ActiveScene ι ε) (self pChild : ι) : Option (ActiveScene ι ε) :=
  (s.objects.removeChild fuel self pChild).map fun objects => { s with objects }

def moveToTree (fuel : ℕ) (s : ActiveScene ι ε) (self : ι) (destination : Option ι) :
    Option (ActiveScene ι ε × Bool) :=
  (s.objects.leaveParent fuel self).bind fun objects =>
    match objects.valid destination with
    | some destination => addChild fuel { s with objects } destination self
    | none => (objects self).map fun object =>
        ({ s with objects }, (objects.valid object.parent).isNone)

/-- A call with its fuel, and what it returns. -/
def step (s : ActiveScene ι ε) :
    ℕ × ActivityCall ι ε → Option (ActiveScene ι ε × Option Bool)
  | (fuel, .create self entityId) => (create fuel s self entityId).map fun s => (s, none)
  | (fuel, .addComponent self) => (addComponent fuel s self).map fun s => (s, none)
  | (fuel, .setEnabled self value) => (setEnabled fuel s self value).map fun s => (s, none)
  | (fuel, .addChild self pChild) => (addChild fuel s self pChild).map fun r => (r.1, some r.2)
  | (fuel, .removeChild self pChild) => (removeChild fuel s self pChild).map fun s => (s, none)
  | (fuel, .moveToTree self destination) =>
      (moveToTree fuel s self destination).map fun r => (r.1, some r.2)
  | (fuel, .build told) => (build fuel s told).map fun s => (s, none)

end ActiveScene

end SRCommon
