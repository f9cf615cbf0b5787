import Mathlib.Algebra.Group.Defs
import SRCommon.ECS.SceneObject
import SRCommon.ECS.Transform

/-!
# Transforms of scene objects

The matrices and priorities that transforms keep, the flags that say that they
are dirty, and the hooks by which changes of an object and of the hierarchy
reach the objects below. Priorities are `int32_t` whose sums do not overflow.
-/

namespace SRCommon

/-- Scene objects; a game object has a transform. -/
structure TransformScene (ι ε V Q M : Type) where
  objects : SceneHierarchy ι ε
  transform : ι → Option (Transform V Q)
  dirtyMatrix : ι → Bool
  matrix : ι → M
  isDirtyPriority : ι → Bool
  priority : ι → ℤ

inductive TransformCall (ι ε V Q : Type) where
  | create (self : ι) (entityId : ε) (hasScene : Bool) (transform : Option (Transform V Q))
  | set (self : ι) (setter : TransformSetter V Q)
  | setLocalPriority (self : ι) (priority : ℤ)
  | setRelativePriority (self : ι) (relative : Bool)
  /-- With a new transform that no object has had. -/
  | setTransform (self : ι) (transform : Transform V Q)
  | addChild (self pChild : ι)
  | removeChild (self pChild : ι)
  | moveToTree (self : ι) (destination : Option ι)
  | getMatrix (self : ι)
  | getPriority (self : ι)

inductive TransformAnswer (M : Type) where
  | done
  | success (ok : Bool)
  | matrix (m : M)
  | priority (value : ℤ)

namespace TransformScene

variable {ι ε V Q M : Type} [One M]

def empty : TransformScene ι ε V Q M where
  objects := .empty
  transform _ := none
  dirtyMatrix _ := false
  matrix _ := 1
  isDirtyPriority _ := true
  priority _ := 0

variable (s : TransformScene ι ε V Q M)

def isGameObject (i : ι) : Bool := (s.transform i).isSome

def hasMatrix (i : ι) : Bool := (s.transform i).any Transform.hasMatrix

def transform2D (i : ι) : Option (Transform2D V Q) := (s.transform i).bind Transform.as2D

def has2D (i : ι) : Bool := (s.transform2D i).isSome

/-- The parent if it is a game object. -/
def parentGameObject (object : SceneObject ι ε) : Option ι :=
  (s.objects.valid object.parent).filter s.isGameObject

section

variable [DecidableEq ι]

/-- `UpdateTree` of the transform. -/
def updateTree : ℕ → TransformScene ι ε V Q M → ι → Option (TransformScene ι ε V Q M)
  | 0, _, _ => none
  | fuel + 1, s, self => (s.objects self).bind fun object =>
      if s.dirtyMatrix self then some s
      else (object.children.filter s.isGameObject).foldlM (updateTree fuel)
        { s with dirtyMatrix := Function.update s.dirtyMatrix self true }

/-- `UpdatePriorityTree` of the transform, which does not stop at dirty ones. -/
def updatePriorityTree : ℕ → TransformScene ι ε V Q M → ι → Option (TransformScene ι ε V Q M)
  | 0, _, _ => none
  | fuel + 1, s, self => (s.objects self).bind fun object =>
      (object.children.filter s.has2D).foldlM (updatePriorityTree fuel)
        { s with isDirtyPriority := Function.update s.isDirtyPriority self true }

/-- `GameObject::OnHierarchyChanged`. -/
def onHierarchyChanged (fuel : ℕ) (s : TransformScene ι ε V Q M) (self : ι) :
    Option (TransformScene ι ε V Q M) :=
  match s.transform self with
  | none => some s
  | some (.space2D _) => (updatePriorityTree fuel s self).bind fun s => updateTree fuel s self
  | some _ => updateTree fuel s self

/-- A transform gets its game object. -/
def attachTransform (fuel : ℕ) (s : TransformScene ι ε V Q M) (self : ι)
    (transform : Transform V Q) : Option (TransformScene ι ε V Q M) :=
  onHierarchyChanged fuel { s with
    transform := Function.update s.transform self (some transform)
    dirtyMatrix := Function.update s.dirtyMatrix self false
    matrix := Function.update s.matrix self 1
    isDirtyPriority := Function.update s.isDirtyPriority self true
    priority := Function.update s.priority self 0 } self

def setTransform (fuel : ℕ) (s : TransformScene ι ε V Q M) (self : ι)
    (transform : Transform V Q) : Option (TransformScene ι ε V Q M) :=
  (s.objects self).bind fun object => (s.transform self).bind fun _ =>
    match transform, s.objects.valid object.parent with
    | .holder, some _ => some s
    | transform, _ => attachTransform fuel s self transform

/-- The setters call `UpdateTree` when they have changed something. -/
def set (math : TransformMath V Q) (fuel : ℕ) (s : TransformScene ι ε V Q M) (self : ι)
    (setter : TransformSetter V Q) : Option (TransformScene ι ε V Q M) :=
  (s.transform self).bind fun transform =>
    match transform.set math setter with
    | none => some s
    | some transform =>
        updateTree fuel { s with
          transform := Function.update s.transform self (some transform) } self

def setLocalPriority (fuel : ℕ) (s : TransformScene ι ε V Q M) (self : ι) (priority : ℤ) :
    Option (TransformScene ι ε V Q M) :=
  (s.transform2D self).bind fun t =>
    if t.localPriority = priority then some s
    else
      updatePriorityTree fuel { s with
        transform := Function.update s.transform self
          (some (.space2D { t with localPriority := priority })) } self

def setRelativePriority (fuel : ℕ) (s : TransformScene ι ε V Q M) (self : ι) (relative : Bool) :
    Option (TransformScene ι ε V Q M) :=
  (s.transform2D self).bind fun t =>
    if t.relativePriority = relative then some s
    else
      updatePriorityTree fuel { s with
        transform := Function.update s.transform self
          (some (.space2D { t with relativePriority := relative })) } self

/-- `GetPriority` of a `Transform2D`. -/
def getPriority : ℕ → TransformScene ι ε V Q M → ι → Option (TransformScene ι ε V Q M × ℤ)
  | 0, _, _ => none
  | fuel + 1, s, self => (s.objects self).bind fun object => (s.transform2D self).bind fun t =>
      if s.isDirtyPriority self then
        let parent := if t.relativePriority then (s.parentGameObject object).filter s.has2D else none
        (parent.elim (some (s, t.localPriority)) fun parent =>
          (getPriority fuel s parent).map fun r => (r.1, t.localPriority + r.2)).map fun r =>
            ({ r.1 with
              priority := Function.update r.1.priority self r.2
              isDirtyPriority := Function.update r.1.isDirtyPriority self false }, r.2)
      else some (s, s.priority self)

variable [Mul M]

/-- `GetMatrix` of the transform. The local matrix is computed from what the transform and that of
the parent are. -/
def getMatrix (localMatrix : TransformFrame V Q → Option (TransformFrame V Q) → M) :
    ℕ → TransformScene ι ε V Q M → ι → Option (TransformScene ι ε V Q M × M)
  | 0, _, _ => none
  | fuel + 1, s, self => (s.objects self).bind fun object => (s.transform self).bind fun t =>
      if ¬ t.hasMatrix then some (s, 1)
      else if s.dirtyMatrix self then
        let parent := s.parentGameObject object
        let m := localMatrix t.frame ((parent.bind s.transform).map Transform.frame)
        let s := { s with dirtyMatrix := Function.update s.dirtyMatrix self false }
        (parent.elim (some (s, m)) fun parent =>
          (getMatrix localMatrix fuel s parent).map fun r => (r.1, r.2 * m)).map fun r =>
            ({ r.1 with matrix := Function.update r.1.matrix self r.2 }, r.2)
      else some (s, s.matrix self)

end

variable [DecidableEq ι] [DecidableEq ε]

/-- The constructor of `GameObject` sets the transform. -/
def create (fuel : ℕ) (s : TransformScene ι ε V Q M) (self : ι) (entityId : ε) (hasScene : Bool)
    (transform : Option (Transform V Q)) : Option (TransformScene ι ε V Q M) :=
  (s.objects.create fuel self entityId hasScene).bind fun objects =>
    match transform with
    | none => some { s with objects }
    | some transform => attachTransform fuel { s with objects } self transform

def setParent (fuel : ℕ) (s : TransformScene ι ε V Q M) (self : ι) (pParent : Option ι) :
    Option (TransformScene ι ε V Q M × Bool) :=
  (s.objects.setParent fuel self pParent).bind fun (objects, isSet) =>
    if isSet then
      (objects self).bind fun object =>
        if object.isDestroyed then some ({ s with objects }, true)
        else (onHierarchyChanged fuel { s with objects } self).map fun s => (s, true)
    else some ({ s with objects }, false)

/-- `GameObject::OnAttached`. -/
def onAttached (fuel : ℕ) (s : TransformScene ι ε V Q M) (self : ι) :
    Option (TransformScene ι ε V Q M) :=
  (s.objects self).bind fun object =>
    if s.isGameObject self ∧ (s.parentGameObject object).isSome then updateTree fuel s self
    else some s

def addChild (fuel : ℕ) (s : TransformScene ι ε V Q M) (self pChild : ι) :
    Option (TransformScene ι ε V Q M × Bool) :=
  (s.objects self).bind fun object =>
    if pChild = self then some (s, false)
    else (s.objects pChild).bind fun child =>
      if (s.objects.valid child.parent).isSome then some (s, false)
      else if pChild ∈ object.children then some (s, false)
      else (setParent fuel s pChild (some self)).bind fun (s, isSet) =>
        if isSet then
          (s.objects self).bind fun object =>
            (onAttached fuel { s with
              objects := s.objects.put self
                { object with children := object.children ++ [pChild] } } pChild).map
              fun s => (s, true)
        else some (s, false)

def removeChild (fuel : ℕ) (s : TransformScene ι ε V Q M) (self pChild : ι) :
    Option (TransformScene ι ε V Q M) :=
  (setParent fuel s pChild none).bind fun (s, _) => (s.objects self).bind fun object =>
    if pChild ∈ object.children.take (2 ^ 16) then
      some { s with
        objects := s.objects.put self { object with children := object.children.erase pChild } }
    else if object.children.length < 2 ^ 16 then some s
    else none

def leaveParent (fuel : ℕ) (s : TransformScene ι ε V Q M) (self : ι) :
    Option (TransformScene ι ε V Q M) :=
  (s.objects self).bind fun object => match s.objects.valid object.parent with
    | some parent => removeChild fuel s parent self
    | none => some s

def moveToTree (fuel : ℕ) (s : TransformScene ι ε V Q M) (self : ι) (destination : Option ι) :
    Option (TransformScene ι ε V Q M × Bool) :=
  (leaveParent fuel s self).bind fun s => match s.objects.valid destination with
    | some destination => addChild fuel s destination self
    | none => (s.objects self).map fun object => (s, (s.objects.valid object.parent).isNone)

variable [Mul M]

/-- A call with its fuel, and what it returns. -/
def step (math : TransformMath V Q)
    (localMatrix : TransformFrame V Q → Option (TransformFrame V Q) → M)
    (s : TransformScene ι ε V Q M) :
    ℕ × TransformCall ι ε V Q → Option (TransformScene ι ε V Q M × TransformAnswer M)
  | (fuel, .create self entityId hasScene transform) =>
      (create fuel s self entityId hasScene transform).map fun s => (s, .done)
  | (fuel, .set self setter) => (set math fuel s self setter).map fun s => (s, .done)
  | (fuel, .setLocalPriority self priority) =>
      (setLocalPriority fuel s self priority).map fun s => (s, .done)
  | (fuel, .setRelativePriority self relative) =>
      (setRelativePriority fuel s self relative).map fun s => (s, .done)
  | (fuel, .setTransform self transform) =>
      (setTransform fuel s self transform).map fun s => (s, .done)
  | (fuel, .addChild self pChild) =>
      (addChild fuel s self pChild).map fun r => (r.1, .success r.2)
  | (fuel, .removeChild self pChild) => (removeChild fuel s self pChild).map fun s => (s, .done)
  | (fuel, .moveToTree self destination) =>
      (moveToTree fuel s self destination).map fun r => (r.1, .success r.2)
  | (fuel, .getMatrix self) => (getMatrix localMatrix fuel s self).map fun r => (r.1, .matrix r.2)
  | (fuel, .getPriority self) => (getPriority fuel s self).map fun r => (r.1, .priority r.2)

end TransformScene

end SRCommon
