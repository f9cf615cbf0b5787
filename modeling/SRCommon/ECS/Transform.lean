import Mathlib.Algebra.Group.Int.Defs

/-!
# Transforms

The kinds of transforms and the setters of their fields, over the vectors and
quaternions of some arithmetic. What is computed from a transform and kept in
it, the matrices and the priority, is part of the scene.
-/

namespace SRCommon

/-- The operations of `FVector3` and `Quaternion` that the setters use. -/
structure TransformMath (V Q : Type) where
  zero : V
  one : V
  identity : Q
  /-- `operator==`, which allows for a small difference. -/
  equals : V → V → Bool
  sub : V → V → V
  empty : V → Bool
  containsNaN : V → Bool
  isFinite : V → Bool
  equalsQuat : Q → Q → Bool
  /-- `euler.Radians().ToQuat()`. -/
  toQuat : V → Q
  eulerAngle : Q → V

inductive Stretch where
  | showAll
  | noBorder
  | changeAspect
  | widthControlsHeight
  | heightControlsWidth
  | savePosition
  deriving DecidableEq

inductive PositionMode where
  | none
  | proportionalX
  | proportionalY
  | proportionalXY
  deriving DecidableEq

inductive FixedSize where
  | none
  | fixedWidth
  | fixedHeight
  | all
  deriving DecidableEq

inductive Anchor where
  | none
  | topLeft
  | topCenter
  | topRight
  | middleLeft
  | middleCenter
  | middleRight
  | bottomLeft
  | bottomCenter
  | bottomRight
  deriving DecidableEq

/-- The fields of a `Transform2D` that its matrix depends on. -/
structure Frame2D (V Q : Type) where
  anchor : Anchor := .none
  stretch : Stretch := .showAll
  positionMode : PositionMode := .proportionalXY
  fixedSize : FixedSize := .none
  quaternion : Q
  translation : V
  rotation : V
  scale : V
  skew : V
  deriving DecidableEq

structure Transform2D (V Q : Type) extends Frame2D V Q where
  localPriority : ℤ := 0
  relativePriority : Bool := true
  deriving DecidableEq

structure Transform3D (V Q : Type) where
  eulersDirty : Bool := true
  rotation : V
  translation : V
  quaternion : Q
  scale : V
  skew : V
  deriving DecidableEq

inductive Transform (V Q : Type) where
  | zero
  | holder
  | space2D (transform : Transform2D V Q)
  | space3D (transform : Transform3D V Q)
  deriving DecidableEq

/-- A transform without its priority. -/
inductive TransformFrame (V Q : Type) where
  | zero
  | holder
  | space2D (frame : Frame2D V Q)
  | space3D (transform : Transform3D V Q)
  deriving DecidableEq

inductive TransformSetter (V Q : Type) where
  | setTranslation (translation : V)
  | setRotation (euler : V)
  | setQuaternion (quaternion : Q)
  | setScale (rawScale : V)
  | setSkew (rawSkew : V)
  | setAnchor (anchorType : Anchor)
  | setStretch (stretch : Stretch)
  | setPositionMode (positionMode : PositionMode)
  | setFixedSize (fixedSize : FixedSize)

section

variable {V Q : Type} (math : TransformMath V Q)

/-- A new `Transform2D`. -/
def Transform2D.new : Transform2D V Q where
  quaternion := math.identity
  translation := math.zero
  rotation := math.zero
  scale := math.one
  skew := math.one

def Transform3D.new : Transform3D V Q where
  rotation := math.zero
  translation := math.zero
  quaternion := math.identity
  scale := math.one
  skew := math.one

/-- `none` where the setter returns before it changes anything, or is that of `Transform`. -/
def Frame2D.set (t : Frame2D V Q) : TransformSetter V Q → Option (Frame2D V Q)
  | .setTranslation translation =>
      if math.equals translation t.translation then none else some { t with translation }
  | .setRotation euler =>
      let quaternion := math.toQuat euler
      some { t with quaternion, rotation := math.eulerAngle quaternion }
  | .setQuaternion _ => none
  | .setScale rawScale =>
      some { t with scale := if math.containsNaN rawScale then math.one else rawScale }
  | .setSkew rawSkew =>
      some { t with skew := if math.containsNaN rawSkew then math.one else rawSkew }
  | .setAnchor anchor => some { t with anchor }
  | .setStretch stretch => some { t with stretch }
  | .setPositionMode positionMode => some { t with positionMode }
  | .setFixedSize fixedSize => some { t with fixedSize }

def Transform3D.set (t : Transform3D V Q) : TransformSetter V Q → Option (Transform3D V Q)
  | .setTranslation translation =>
      if math.empty (math.sub translation t.translation) then none else some { t with translation }
  | .setRotation euler => some { t with quaternion := math.toQuat euler, rotation := euler }
  | .setQuaternion quaternion =>
      if math.equalsQuat t.quaternion quaternion then none
      else some { t with eulersDirty := true, quaternion }
  | .setScale rawScale =>
      if math.equals rawScale t.scale then none
      else some { t with scale := if math.isFinite rawScale then rawScale else math.one }
  | .setSkew rawSkew =>
      some { t with skew := if math.isFinite rawSkew then rawSkew else math.one }
  | .setAnchor _ | .setStretch _ | .setPositionMode _ | .setFixedSize _ => none

namespace Transform

def set (setter : TransformSetter V Q) : Transform V Q → Option (Transform V Q)
  | .zero | .holder => none
  | .space2D t => (t.toFrame2D.set math setter).map fun frame =>
      .space2D { t with toFrame2D := frame }
  | .space3D t => (t.set math setter).map .space3D

def frame : Transform V Q → TransformFrame V Q
  | .zero => .zero
  | .holder => .holder
  | .space2D t => .space2D t.toFrame2D
  | .space3D t => .space3D t

/-- The kinds that keep a matrix. -/
def hasMatrix : Transform V Q → Bool
  | .space2D _ | .space3D _ => true
  | _ => false

def as2D : Transform V Q → Option (Transform2D V Q)
  | .space2D t => some t
  | _ => none

end Transform

end

end SRCommon
