import SRCommon.ECS.HierarchyPaths
import SRCommon.ECS.SceneObject

/-!
# Effective layers

The cached layers follow the hierarchy as long as no object is given the layer
of its parent for its own and no object is cut off from the parent it has its
layer from.
-/

namespace SRCommon

/-!
## Layers

`GetLayer` returns a cached layer. An object whose own layer is the default one
takes the layer of its parent when it is attached and when the parent's layer
changes.
-/

/-- The objects with `m_layer` and `m_cachedLayer`. What was last asked for with `SetLayer` is not
kept by the code. -/
structure LayeredScene (ι ε Λ : Type) where
  objects : SceneHierarchy ι ε
  layer : ι → Λ
  cachedLayer : ι → Λ
  requested : ι → Λ

inductive LayerCall (ι ε Λ : Type) where
  | create (self : ι) (entityId : ε) (hasScene : Bool)
  | setLayer (self : ι) (layer : Λ)
  | addChild (self pChild : ι)
  | removeChild (self pChild : ι)
  | moveToTree (self : ι) (destination : Option ι)

namespace LayeredScene

variable {ι ε Λ : Type} [DecidableEq ι] [DecidableEq Λ] (defaultLayer : Λ)

def empty : LayeredScene ι ε Λ :=
  ⟨.empty, fun _ => defaultLayer, fun _ => defaultLayer, fun _ => defaultLayer⟩

def setCachedLayer (s : LayeredScene ι ε Λ) (self : ι) (layer : Λ) : LayeredScene ι ε Λ :=
  { s with cachedLayer := Function.update s.cachedLayer self layer }

/-- `m_cachedLayer = m_layer = layer`. -/
def assignLayer (s : LayeredScene ι ε Λ) (self : ι) (layer : Λ) : LayeredScene ι ε Λ :=
  { s.setCachedLayer self layer with layer := Function.update s.layer self layer }

def onParentLayerChanged : ℕ → LayeredScene ι ε Λ → ι → Option (LayeredScene ι ε Λ)
  | 0, _, _ => none
  | fuel + 1, s, self => (s.objects self).bind fun object =>
      if s.layer self ≠ defaultLayer then some s
      else (s.objects.valid object.parent).bind fun parent =>
        if s.cachedLayer self = s.cachedLayer parent then some s
        else object.children.foldlM (onParentLayerChanged fuel)
          (s.setCachedLayer self (s.cachedLayer parent))

def setLayer (fuel : ℕ) (s : LayeredScene ι ε Λ) (self : ι) (layer : Λ) :
    Option (LayeredScene ι ε Λ) :=
  let s := { s with requested := Function.update s.requested self layer }
  (s.objects self).bind fun object =>
    let layer :=
      if defaultLayer = layer then (s.objects.valid object.parent).elim layer s.cachedLayer
      else layer
    if layer = s.layer self ∧ s.cachedLayer self = s.layer self then some s
    else object.children.foldlM (onParentLayerChanged defaultLayer fuel) (s.assignLayer self layer)

variable [DecidableEq ε]

/-- The constructor of `GameObject` calls `SetLayer` with the default layer. -/
def create (fuel : ℕ) (s : LayeredScene ι ε Λ) (self : ι) (entityId : ε) (hasScene : Bool) :
    Option (LayeredScene ι ε Λ) :=
  (s.objects.create fuel self entityId hasScene).bind fun objects =>
    setLayer defaultLayer fuel ({ s with objects }.assignLayer self defaultLayer) self defaultLayer

def addChild (fuel : ℕ) (s : LayeredScene ι ε Λ) (self pChild : ι) :
    Option (LayeredScene ι ε Λ × Bool) :=
  (s.objects.addChild fuel self pChild).bind fun (objects, added) =>
    if added then
      (onParentLayerChanged defaultLayer fuel { s with objects } pChild).map fun s => (s, true)
    else some ({ s with objects }, false)

def removeChild (fuel : ℕ) (s : LayeredScene ι ε Λ) (self pChild : ι) :
    Option (LayeredScene ι ε Λ) :=
  (s.objects.removeChild fuel self pChild).map fun objects => { s with objects }

def moveToTree (fuel : ℕ) (s : LayeredScene ι ε Λ) (self : ι) (destination : Option ι) :
    Option (LayeredScene ι ε Λ × Bool) :=
  (s.objects.leaveParent fuel self).bind fun objects =>
    match objects.valid destination with
    | some destination => addChild defaultLayer fuel { s with objects } destination self
    | none => (objects self).map fun object =>
        ({ s with objects }, (objects.valid object.parent).isNone)

/-- A call with its fuel, and what it returns. -/
def step (s : LayeredScene ι ε Λ) :
    ℕ × LayerCall ι ε Λ → Option (LayeredScene ι ε Λ × Option Bool)
  | (fuel, .create self entityId hasScene) =>
      (create defaultLayer fuel s self entityId hasScene).map fun s => (s, none)
  | (fuel, .setLayer self layer) =>
      (setLayer defaultLayer fuel s self layer).map fun s => (s, none)
  | (fuel, .addChild self pChild) =>
      (addChild defaultLayer fuel s self pChild).map fun r => (r.1, some r.2)
  | (fuel, .removeChild self pChild) => (removeChild fuel s self pChild).map fun s => (s, none)
  | (fuel, .moveToTree self destination) =>
      (moveToTree defaultLayer fuel s self destination).map fun r => (r.1, some r.2)

end LayeredScene

namespace LayeredScene

section

variable {ι ε Λ : Type} [DecidableEq Λ] (defaultLayer : Λ)

/-- `GetLayer` is the layer asked for, or else the one of the parent. -/
def EffectiveLayers (s : LayeredScene ι ε Λ) : Prop :=
  ∀ i, s.cachedLayer i =
    if s.requested i ≠ defaultLayer then s.requested i
    else (s.objects.parentOf i).elim defaultLayer s.cachedLayer

/-- The object has a layer that is not its own and not the default one. -/
def Inherits (s : LayeredScene ι ε Λ) (i : ι) : Prop :=
  s.layer i = defaultLayer ∧ s.cachedLayer i ≠ defaultLayer

/-- The default layer is not asked for below a parent with another layer, children are removed from
their own parents, and an object that inherits its layer does not end without a parent. -/
def Keeps (s : LayeredScene ι ε Λ) : ℕ × LayerCall ι ε Λ → Prop
  | (_, .setLayer self layer) =>
      layer = defaultLayer → ∀ p, s.objects.parentOf self = some p → s.cachedLayer p = defaultLayer
  | (_, .removeChild self pChild) =>
      (s.objects.parentOf pChild = some self ∨ s.objects.parentOf pChild = none) ∧
        ¬ s.Inherits defaultLayer pChild
  | (_, .moveToTree self destination) =>
      s.Inherits defaultLayer self →
        ∃ p, s.objects.valid destination = some p ∧ ¬ s.objects.Clashes p self
  | _ => True

/-- The cached layer of an object is right for its parent's. -/
def Settled (s : LayeredScene ι ε Λ) (i : ι) : Prop :=
  s.cachedLayer i =
    if s.layer i ≠ defaultLayer then s.layer i
    else (s.objects.parentOf i).elim defaultLayer s.cachedLayer

/-- All objects are settled but those with a property, and those have at least their own layer. -/
structure SettledBut (s : LayeredScene ι ε Λ) (B : ι → Prop) : Prop where
  forest : s.objects.Forest
  own : ∀ i, s.layer i ≠ defaultLayer → s.cachedLayer i = s.layer i
  settled : ∀ i, ¬ B i → s.Settled defaultLayer i

structure Sound (s : LayeredScene ι ε Λ) : Prop
    extends SettledBut defaultLayer s fun _ => False where
  requested : s.requested = s.layer

end

section

variable {ι ε Λ : Type}

/-- Cached layers change, and nothing else. -/
structure Repaints (s s' : LayeredScene ι ε Λ) : Prop where
  objects : s'.objects = s.objects
  layer : s'.layer = s.layer
  requested : s'.requested = s.requested

theorem Repaints.refl (s : LayeredScene ι ε Λ) : Repaints s s := ⟨rfl, rfl, rfl⟩

theorem Repaints.trans {s t s' : LayeredScene ι ε Λ} (h : Repaints s t) (h' : Repaints t s') :
    Repaints s s' :=
  ⟨h'.objects.trans h.objects, h'.layer.trans h.layer, h'.requested.trans h.requested⟩

variable [DecidableEq Λ] {defaultLayer : Λ} {s s' t : LayeredScene ι ε Λ} {B : ι → Prop} {c x : ι}

theorem settled_of_own (hown : s.cachedLayer x = s.layer x) (h : s.layer x ≠ defaultLayer) :
    s.Settled defaultLayer x := by
  rw [Settled, if_pos h]
  exact hown

theorem settled_of_inherited (h : s.layer x = defaultLayer)
    (hcached : s.cachedLayer x = (s.objects.parentOf x).elim defaultLayer s.cachedLayer) :
    s.Settled defaultLayer x := by
  rw [Settled, if_neg (not_not_intro h)]
  exact hcached

theorem Sound.effectiveLayers (h : s.Sound defaultLayer) : s.EffectiveLayers defaultLayer := by
  intro i
  rw [h.requested]
  exact h.settled i not_false

theorem SettledBut.mono {B' : ι → Prop} (h : s.SettledBut defaultLayer B)
    (hB : ∀ i, B i → B' i) : s.SettledBut defaultLayer B' :=
  ⟨h.forest, h.own, fun i hi => h.settled i fun hb => hi (hB i hb)⟩

theorem sound_empty : (empty defaultLayer : LayeredScene ι ε Λ).Sound defaultLayer :=
  ⟨⟨SceneHierarchy.forest_empty, fun _ h => absurd rfl h, fun _ _ =>
    settled_of_inherited rfl rfl⟩, rfl⟩

/-- Only an object that has a parent inherits. -/
theorem SettledBut.inherits (h : s.SettledBut defaultLayer B) (hx : ¬ B x)
    (hinherits : s.Inherits defaultLayer x) : ∃ p, s.objects.parentOf x = some p := by
  obtain ⟨hlayer, hcached⟩ := hinherits
  have hsettled := h.settled x hx
  rw [Settled, if_neg (not_not_intro hlayer)] at hsettled
  cases hp : s.objects.parentOf x with
  | none =>
      rw [hp] at hsettled
      exact absurd hsettled hcached
  | some p => exact ⟨p, rfl⟩

/-- One object gets its layer, and the objects below it have to follow. -/
theorem SettledBut.repaint (hs : s.SettledBut defaultLayer B) (hobjects : t.objects = s.objects)
    (hlayer : ∀ j, j ≠ x → t.layer j = s.layer j)
    (hcached : ∀ j, j ≠ x → t.cachedLayer j = s.cachedLayer j) (hx : t.Settled defaultLayer x) :
    t.SettledBut defaultLayer fun i => B i ∧ i ≠ x ∨ i ∈ s.objects.childrenOf x where
  forest := hobjects ▸ hs.forest
  own i hi := by
    rcases eq_or_ne i x with rfl | hne
    · rwa [Settled, if_pos hi] at hx
    · rw [hcached i hne, hlayer i hne]
      exact hs.own i (hlayer i hne ▸ hi)
  settled i hi := by
    rcases eq_or_ne i x with rfl | hne
    · exact hx
    have hsettled : s.Settled defaultLayer i := hs.settled i fun hb => hi (.inl ⟨hb, hne⟩)
    have hparent : s.objects.parentOf i ≠ some x := fun hp =>
      hi (.inr ((hs.forest.mem_children i x).mpr hp))
    rw [Settled, hcached i hne, hlayer i hne, hobjects, hsettled]
    cases hp : s.objects.parentOf i with
    | none => rfl
    | some p => rw [Option.elim_some, Option.elim_some, hcached p fun heq => hparent (heq ▸ hp)]

/-- The parent of one object changes. -/
theorem SettledBut.relink (hs : s.SettledBut defaultLayer B) {objects : SceneHierarchy ι ε}
    (hforest : objects.Forest)
    (hparents : ∀ i, i ≠ x → objects.parentOf i = s.objects.parentOf i) :
    SettledBut defaultLayer { s with objects } fun i => B i ∨ i = x where
  forest := hforest
  own := hs.own
  settled i hi := by
    rw [Settled]
    dsimp only
    rw [hparents i fun hx => hi (.inr hx)]
    exact hs.settled i fun hb => hi (.inl hb)

/-- A function that settles the object it is called on settles all objects of a list. -/
theorem SettledBut.settleAll {f : LayeredScene ι ε Λ → ι → Option (LayeredScene ι ε Λ)}
    (hf : ∀ s c s' (B : ι → Prop), s.SettledBut defaultLayer B → f s c = some s' →
      Repaints s s' ∧ s'.SettledBut defaultLayer fun i => B i ∧ i ≠ c)
    {cs : List ι} (hs : s.SettledBut defaultLayer fun i => B i ∨ i ∈ cs)
    (h : cs.foldlM f s = some s') : Repaints s s' ∧ s'.SettledBut defaultLayer B := by
  have hend := Steps.foldlM_invariant
    (I := fun rest t => Repaints s t ∧ t.SettledBut defaultLayer fun i => B i ∨ i ∈ rest)
    (fun c rest t t' ht hc => ?_) ⟨Repaints.refl s, hs⟩ h
  · exact ⟨hend.1, hend.2.mono fun i hi => hi.resolve_right List.not_mem_nil⟩
  · obtain ⟨hrepaints, hsettled⟩ := hf t c t' _ ht.2 hc
    refine ⟨ht.1.trans hrepaints, hsettled.mono fun i hi => ?_⟩
    exact hi.1.imp_right fun hmem => (List.mem_cons.mp hmem).resolve_left hi.2

end

section

variable {ι ε Λ : Type} [DecidableEq ι] {s : LayeredScene ι ε Λ} {x j : ι} {layer : Λ}

theorem setCachedLayer_self : (s.setCachedLayer x layer).cachedLayer x = layer :=
  Function.update_self ..

theorem setCachedLayer_of_ne (h : j ≠ x) :
    (s.setCachedLayer x layer).cachedLayer j = s.cachedLayer j := Function.update_of_ne h ..

theorem assignLayer_layer_self : (s.assignLayer x layer).layer x = layer :=
  Function.update_self ..

theorem assignLayer_layer_of_ne (h : j ≠ x) : (s.assignLayer x layer).layer j = s.layer j :=
  Function.update_of_ne h ..

theorem assignLayer_cachedLayer_self : (s.assignLayer x layer).cachedLayer x = layer :=
  Function.update_self ..

theorem assignLayer_cachedLayer_of_ne (h : j ≠ x) :
    (s.assignLayer x layer).cachedLayer j = s.cachedLayer j := Function.update_of_ne h ..

end

section

variable {ι ε Λ : Type} [DecidableEq ι] [DecidableEq Λ] {defaultLayer : Λ}
  {s s' : LayeredScene ι ε Λ} {B : ι → Prop} {x : ι} {fuel : ℕ}

/-- An object gets a layer for its own: the default one only where its parent has that. -/
theorem SettledBut.assignLayer {layer : Λ} (hs : s.SettledBut defaultLayer B)
    (hkeeps : layer = defaultLayer →
      ∀ p, s.objects.parentOf x = some p → s.cachedLayer p = defaultLayer) :
    (s.assignLayer x layer).SettledBut defaultLayer
      fun i => B i ∧ i ≠ x ∨ i ∈ s.objects.childrenOf x := by
  refine hs.repaint rfl (fun j hj => assignLayer_layer_of_ne hj)
    (fun j hj => assignLayer_cachedLayer_of_ne hj) ?_
  by_cases hlayer : layer = defaultLayer
  · refine settled_of_inherited (assignLayer_layer_self.trans hlayer) ?_
    rw [assignLayer_cachedLayer_self]
    change layer = (s.objects.parentOf x).elim _ _
    cases hp : s.objects.parentOf x with
    | none => exact hlayer
    | some p =>
        rw [Option.elim_some, assignLayer_cachedLayer_of_ne (hs.forest.parent_ne hp),
          hkeeps hlayer p hp, hlayer]
  · refine settled_of_own (assignLayer_cachedLayer_self.trans assignLayer_layer_self.symm) ?_
    exact fun heq => hlayer (assignLayer_layer_self.symm.trans heq)

/-- What is cut off is settled unless it inherits its layer. -/
theorem Sound.cut {objects : SceneHierarchy ι ε} (hs : s.Sound defaultLayer)
    (hforest : objects.Forest) (hparents : objects.parentOf = Function.update s.objects.parentOf x none) :
    SettledBut defaultLayer { s with objects }
      fun i => i = x ∧ s.Inherits defaultLayer x := by
  have hlinked := hs.relink (x := x) hforest fun i hi => by rw [hparents, Function.update_of_ne hi]
  refine ⟨hlinked.forest, hlinked.own, fun i hi => ?_⟩
  rcases eq_or_ne i x with rfl | hne
  · by_cases hlayer : s.layer i = defaultLayer
    · refine settled_of_inherited hlayer ?_
      change s.cachedLayer i = (objects.parentOf i).elim _ _
      rw [hparents, Function.update_self, Option.elim_none]
      exact not_not.mp fun hcached => hi ⟨rfl, hlayer, hcached⟩
    · exact settled_of_own (hs.own i hlayer) hlayer
  · exact hlinked.settled i (by simpa using hne)

theorem SettledBut.onParentLayerChanged (hs : s.SettledBut defaultLayer B)
    (h : onParentLayerChanged defaultLayer fuel s x = some s') :
    Repaints s s' ∧ s'.SettledBut defaultLayer fun i => B i ∧ i ≠ x := by
  induction fuel generalizing s s' x B with
  | zero => cases h
  | succ fuel ih =>
      obtain ⟨o, ho, h⟩ := Option.bind_eq_some_iff.mp h
      -- where the function returns at once, the object is settled already
      have hstay : s.Settled defaultLayer x → s.SettledBut defaultLayer fun i => B i ∧ i ≠ x :=
        fun hx => ⟨hs.forest, hs.own, fun i hi => by
          rcases eq_or_ne i x with rfl | hne
          · exact hx
          · exact hs.settled i fun hb => hi ⟨hb, hne⟩⟩
      split at h
      · rename_i hlayer
        cases h
        exact ⟨Repaints.refl s, hstay (settled_of_own (hs.own x hlayer) hlayer)⟩
      rename_i hlayer
      rw [not_not] at hlayer
      obtain ⟨p, hp, h⟩ := Option.bind_eq_some_iff.mp h
      rw [← SceneHierarchy.parentOf_eq ho,
        SceneHierarchy.valid_parentOf hs.forest.parentsLive] at hp
      split at h
      · rename_i hcached
        cases h
        exact ⟨Repaints.refl s, hstay (settled_of_inherited hlayer (by rw [hp]; exact hcached))⟩
      have hx : (s.setCachedLayer x (s.cachedLayer p)).Settled defaultLayer x := by
        refine settled_of_inherited hlayer ?_
        change _ = (s.objects.parentOf x).elim _ _
        rw [hp, Option.elim_some, setCachedLayer_self,
          setCachedLayer_of_ne (hs.forest.parent_ne hp)]
      have hpainted := hs.repaint (t := s.setCachedLayer x (s.cachedLayer p)) rfl
        (fun j _ => rfl) (fun j hj => setCachedLayer_of_ne hj) hx
      rw [SceneHierarchy.childrenOf_eq ho] at hpainted
      obtain ⟨hrepaints, hsettled⟩ := hpainted.settleAll (fun t c t' B ht hc => ih ht hc) h
      exact ⟨⟨hrepaints.objects, hrepaints.layer, hrepaints.requested⟩, hsettled⟩

/-- The layer that is asked for becomes the own layer. -/
theorem SettledBut.setLayer {layer : Λ} (hs : s.SettledBut defaultLayer fun _ => False)
    (hrequested : ∀ i, i ≠ x → s.requested i = s.layer i)
    (hkeeps : layer = defaultLayer →
      ∀ p, s.objects.parentOf x = some p → s.cachedLayer p = defaultLayer)
    (h : setLayer defaultLayer fuel s x layer = some s') : s'.Sound defaultLayer := by
  obtain ⟨o, ho, h⟩ := Option.bind_eq_some_iff.mp h
  dsimp only at ho h
  rw [← SceneHierarchy.parentOf_eq ho, SceneHierarchy.valid_parentOf hs.forest.parentsLive] at h
  -- the layer is never replaced by another one
  have hsame : (if defaultLayer = layer then (s.objects.parentOf x).elim layer s.cachedLayer
      else layer) = layer := by
    split
    · rename_i heq
      cases hp : s.objects.parentOf x with
      | none => rfl
      | some p => exact (hkeeps heq.symm p hp).trans heq
    · rfl
  rw [hsame] at h
  split at h
  · rename_i hboth
    cases h
    refine ⟨⟨hs.forest, hs.own, hs.settled⟩, ?_⟩
    funext i
    rcases eq_or_ne i x with rfl | hne
    · exact (Function.update_self ..).trans hboth.1
    · exact (Function.update_of_ne hne ..).trans (hrequested i hne)
  have hpainted := hs.assignLayer hkeeps
  rw [SceneHierarchy.childrenOf_eq ho] at hpainted
  have hpainted' : SettledBut defaultLayer
      { s.assignLayer x layer with requested := Function.update s.requested x layer }
      fun i => False ∨ i ∈ o.children :=
    ⟨hpainted.forest, hpainted.own, fun i hi =>
      hpainted.settled i fun hb => hi (.inr (hb.resolve_left fun hf => hf.1))⟩
  obtain ⟨hrepaints, hsettled⟩ :=
    hpainted'.settleAll (fun t c t' B ht hc => ht.onParentLayerChanged hc) h
  refine ⟨hsettled, ?_⟩
  rw [hrepaints.requested, hrepaints.layer]
  funext i
  rcases eq_or_ne i x with rfl | hne
  · exact (Function.update_self ..).trans assignLayer_layer_self.symm
  · exact (Function.update_of_ne hne ..).trans
      ((hrequested i hne).trans (assignLayer_layer_of_ne hne).symm)

end

section

variable {ι ε Λ : Type} [DecidableEq ι] [DecidableEq ε] [DecidableEq Λ] {defaultLayer : Λ}
  {s s' : LayeredScene ι ε Λ} {objects : SceneHierarchy ι ε} {B : ι → Prop} {c p : ι} {fuel : ℕ}

theorem Sound.create {entityId : ε} {hasScene : Bool} (hs : s.Sound defaultLayer)
    (h : create defaultLayer fuel s c entityId hasScene = some s') : s'.Sound defaultLayer := by
  obtain ⟨objects, hobjects, h⟩ := Option.bind_eq_some_iff.mp h
  obtain ⟨hc, rfl⟩ := SceneHierarchy.create_eq hobjects
  have hparents := SceneHierarchy.parentOf_put_new hc
    (rfl : ({ entityId, hasScene, entityPath := [entityId] } : SceneObject ι ε).parent = none)
  have hparent : s.objects.parentOf c = none := by
    rw [SceneHierarchy.parentOf, hc]
    rfl
  have hchildren : s.objects.childrenOf c = [] := by
    rw [SceneHierarchy.childrenOf, hc]
    rfl
  have hkeeps : defaultLayer = defaultLayer → ∀ p, s.objects.parentOf c = some p →
      s.cachedLayer p = defaultLayer := fun _ p hp => by
    cases hparent.symm.trans hp
  have hassigned := hs.assignLayer hkeeps
  have hlinked := hassigned.relink (x := c) (hs.forest.create hobjects) fun i _ =>
    congrFun hparents i
  refine SettledBut.setLayer ⟨hlinked.forest, hlinked.own, fun i _ => ?_⟩ (fun i hi => ?_)
    (fun _ p hp => ?_) h
  · rcases eq_or_ne i c with rfl | hne
    · refine settled_of_inherited assignLayer_layer_self ?_
      rw [assignLayer_cachedLayer_self]
      rw [hparents, hparent]
      rfl
    · refine hlinked.settled i fun hb => ?_
      rw [hchildren] at hb
      rcases hb with (⟨hfalse, -⟩ | hmem) | heq
      · exact hfalse
      · cases hmem
      · exact hne heq
  · rw [assignLayer_layer_of_ne hi]
    exact congrFun hs.requested i
  · change SceneHierarchy.parentOf _ c = some p at hp
    rw [hparents, hparent] at hp
    cases hp

/-- The child takes its layer from the new parent. -/
theorem SettledBut.addChild {ok : Bool} (hs : s.SettledBut defaultLayer B)
    (hB : ∀ i, B i → i = c ∧ ok = true) (hrequested : s.requested = s.layer)
    (h : addChild defaultLayer fuel s p c = some (s', ok)) : s'.Sound defaultLayer := by
  obtain ⟨⟨objects, added⟩, hadd, h⟩ := Option.bind_eq_some_iff.mp h
  rcases SceneHierarchy.addChild_links hs.forest.parentsLive hadd with
    ⟨rfl, hsame⟩ | ⟨rfl, hattached⟩
  · cases h
    refine ⟨⟨hs.forest.of_rootless hsame, hs.own, fun i _ => ?_⟩, hrequested⟩
    have hsettled := hs.settled i fun hb => Bool.false_ne_true (hB i hb).2
    rw [Settled]
    dsimp only
    rw [SceneHierarchy.parentOf_of_rootless hsame]
    exact hsettled
  · obtain ⟨s₁, hs₁, hr⟩ := Option.map_eq_some_iff.mp h
    cases hr
    have hlinked := hs.relink (x := c) (hs.forest.attached hattached) fun i hi => by
      rw [hattached.parentOf, Function.update_of_ne hi]
    obtain ⟨hrepaints, hsettled⟩ := hlinked.onParentLayerChanged hs₁
    refine ⟨hsettled.mono fun i hi => hi.2 (hi.1.elim (fun hb => (hB i hb).1) id), ?_⟩
    rw [hrepaints.requested, hrepaints.layer]
    exact hrequested

theorem Sound.removeChild (hs : s.Sound defaultLayer)
    (hkeeps : s.Keeps defaultLayer (fuel, .removeChild p c))
    (h : removeChild fuel s p c = some s') : s'.Sound defaultLayer := by
  obtain ⟨objects, hremoved, rfl⟩ := Option.map_eq_some_iff.mp h
  obtain ⟨hforest, hparents⟩ := hs.forest.removeChild hkeeps.1 hremoved
  exact ⟨(hs.cut hforest hparents).mono fun i hi => hkeeps.2 hi.2, hs.requested⟩

theorem Sound.moveToTree {destination : Option ι} {ok : Bool} (hs : s.Sound defaultLayer)
    (hkeeps : s.Keeps defaultLayer (fuel, .moveToTree c destination))
    (h : moveToTree defaultLayer fuel s c destination = some (s', ok)) :
    s'.Sound defaultLayer := by
  obtain ⟨objects, hleave, h⟩ := Option.bind_eq_some_iff.mp h
  obtain ⟨hforest, hparents⟩ := hs.forest.leaveParent hleave
  have hcut := hs.cut hforest hparents
  -- an object that inherits has a parent and is taken by the next one
  have htaken : s.Inherits defaultLayer c → ∃ p, s.objects.valid destination = some p ∧
      objects.valid destination = some p ∧ ∀ r ok,
        SceneHierarchy.addChild fuel objects p c = some (r, ok) → ok = true := fun hinherits => by
    obtain ⟨q, hq⟩ := hs.inherits not_false hinherits
    obtain ⟨p, hp, hclash⟩ := hkeeps hinherits
    exact ⟨p, hp, SceneHierarchy.takes_of_leaveParent hs.forest (by simp [hq]) hp hclash hleave⟩
  cases hp : objects.valid destination with
  | none =>
      rw [hp] at h
      obtain ⟨o, -, hr⟩ := Option.map_eq_some_iff.mp h
      cases hr
      refine ⟨hcut.mono fun i hi => ?_, hs.requested⟩
      obtain ⟨p, -, hvalid, -⟩ := htaken hi.2
      cases hp.symm.trans hvalid
  | some p =>
      rw [hp] at h
      refine hcut.addChild (fun i hi => ⟨hi.1, ?_⟩) hs.requested h
      obtain ⟨q, -, hvalid, htakes⟩ := htaken hi.2
      cases hp.symm.trans hvalid
      obtain ⟨⟨objects', added⟩, hadd, h⟩ := Option.bind_eq_some_iff.mp h
      cases htakes _ _ hadd
      obtain ⟨s₁, -, hr⟩ := Option.map_eq_some_iff.mp h
      cases hr
      rfl

theorem Sound.step {r : LayeredScene ι ε Λ × Option Bool} {call : ℕ × LayerCall ι ε Λ}
    (hs : s.Sound defaultLayer) (hkeeps : s.Keeps defaultLayer call)
    (h : step defaultLayer s call = some r) : r.1.Sound defaultLayer := by
  obtain ⟨fuel, call⟩ := call
  cases call with
  | create self entityId hasScene =>
      obtain ⟨t, ht, rfl⟩ := Option.map_eq_some_iff.mp h
      exact hs.create ht
  | setLayer self layer =>
      obtain ⟨t, ht, rfl⟩ := Option.map_eq_some_iff.mp h
      exact hs.setLayer (fun i _ => congrFun hs.requested i) hkeeps ht
  | addChild self pChild =>
      obtain ⟨t, ht, rfl⟩ := Option.map_eq_some_iff.mp h
      exact hs.addChild (fun i hi => hi.elim) hs.requested ht
  | removeChild self pChild =>
      obtain ⟨t, ht, rfl⟩ := Option.map_eq_some_iff.mp h
      exact hs.removeChild hkeeps ht
  | moveToTree self destination =>
      obtain ⟨t, ht, rfl⟩ := Option.map_eq_some_iff.mp h
      exact hs.moveToTree hkeeps ht

/-- In a run all of whose calls keep the layers, they are effective in every state. -/
theorem effectiveLayers_of_keeps {calls : List (ℕ × LayerCall ι ε Λ)}
    (h : Steps.Along (step defaultLayer) (Keeps defaultLayer) (empty defaultLayer) calls) :
    Steps.Throughout (step defaultLayer)
      (fun _ _ (s : LayeredScene ι ε Λ) => s.EffectiveLayers defaultLayer) (empty defaultLayer)
      calls :=
  h.throughout (fun _ _ _ hs hkeeps hr =>
    ⟨(hs.step hkeeps hr).effectiveLayers, hs.step hkeeps hr⟩) sound_empty

end

/-- An object below another that is given a layer. -/
def layered : List (ℕ × LayerCall ℕ ℕ ℕ) :=
  [(9, .create 0 10 false), (9, .create 1 11 false), (9, .setLayer 0 5), (9, .addChild 0 1)]

theorem effectiveLayers_of_keeps_sample :
    Steps.Along (step 0) (Keeps 0) (empty 0) (layered ++ [(9, .setLayer 0 7)]) ∧
      Steps.Throughout (step 0) (fun _ _ (s : LayeredScene ℕ ℕ ℕ) => s.EffectiveLayers 0) (empty 0)
        (layered ++ [(9, .setLayer 0 7)]) := by
  have h : Steps.Along (step 0) (Keeps 0) (empty 0 : LayeredScene ℕ ℕ ℕ)
      (layered ++ [(9, .setLayer 0 7)]) := by
    refine ⟨trivial, fun r₁ _ => ⟨trivial, fun r₂ _ => ⟨fun h => ?_, fun r₃ _ => ⟨trivial,
      fun r₄ _ => ⟨fun h => ?_, fun r₅ _ => trivial⟩⟩⟩⟩⟩
    · cases h
    · cases h
  exact ⟨h, effectiveLayers_of_keeps h⟩

/-- The child keeps the layer of the parent that it is removed from; and, when it asks for the
default layer, it does not follow the parent any more. -/
theorem not_effectiveLayers_of_layered :
    (¬ Steps.Throughout (step 0) (fun _ _ (s : LayeredScene ℕ ℕ ℕ) => s.EffectiveLayers 0) (empty 0)
      (layered ++ [(9, .removeChild 0 1)])) ∧
    ¬ Steps.Throughout (step 0) (fun _ _ (s : LayeredScene ℕ ℕ ℕ) => s.EffectiveLayers 0) (empty 0)
      (layered ++ [(9, .setLayer 1 0)] ++ [(9, .setLayer 0 7)]) := by
  constructor
  · intro h
    have hrun : ∃ r r', Steps.run (step 0) (empty 0) layered = some r ∧
        step 0 r.1 (9, .removeChild 0 1) = some r' ∧ r'.1.requested 1 = 0 ∧
          r'.1.objects.parentOf 1 = none ∧ r'.1.cachedLayer 1 = 5 :=
      ⟨_, _, rfl, rfl, rfl, rfl, rfl⟩
    obtain ⟨r, r', hr, hr', hrequested, hparent, hcached⟩ := hrun
    have hlast := h.last hr hr' 1
    rw [hcached, hrequested, hparent] at hlast
    cases hlast
  · intro h
    have hrun : ∃ r r', Steps.run (step 0) (empty 0) (layered ++ [(9, .setLayer 1 0)]) = some r ∧
        step 0 r.1 (9, .setLayer 0 7) = some r' ∧ r'.1.requested 1 = 0 ∧
          r'.1.objects.parentOf 1 = some 0 ∧ r'.1.cachedLayer 1 = 5 ∧ r'.1.cachedLayer 0 = 7 :=
      ⟨_, _, rfl, rfl, rfl, rfl, rfl, rfl⟩
    obtain ⟨r, r', hr, hr', hrequested, hparent, hcached, hcached'⟩ := hrun
    have hlast := h.last hr hr' 1
    rw [hcached, hrequested, hparent, if_neg (not_not_intro rfl), Option.elim_some,
      hcached'] at hlast
    cases hlast

end LayeredScene

end SRCommon
