import SRCommon.World.ComponentPool

/-!
# The life of a component

Objects and the scene keep lists of components. The passes of
`SceneUpdater::Build` attach, awaken, enable and start what is in the lists,
and a component that leaves its list is detached at once and destroyed when the
scene is prepared. The passes come here in any order and over any objects, and
the activity of the objects is given. A callback does nothing but what the base
class does.
-/

namespace SRCommon

inductive ComponentEvent where
  | onLoaded
  | onAttached
  | awake
  | onEnable
  | onDisable
  | start
  | update
  | fixedUpdate
  | lateUpdate
  | onDetached
  | onDestroy
  deriving DecidableEq

/-- The parent of a component is an object, or the scene itself (`none`). -/
structure LiveComponent (ι : Type) where
  parent : Option (Option ι) := none
  isComponentLoaded : Bool := false
  isAttached : Bool := false
  isActive : Bool := false
  isAwake : Bool := false
  isStarted : Bool := false
  isEnabled : Bool := true

structure LiveScene (ι κ : Type) where
  components : Option ι → List κ := fun _ => []
  component : κ → LiveComponent ι := fun _ => {}
  isObjectActive : ι → Bool := fun _ => false
  destroyedComponents : List κ := []
  updater : SceneUpdater κ := {}
  /-- The callbacks that have been called so far. -/
  called : List (κ × ComponentEvent) := []

inductive LiveCall (ι κ : Type) where
  | addComponent (self : Option ι) (pComponent : κ)
  | removeComponent (self : Option ι) (pComponent : κ)
  | destroyComponents (self : Option ι)
  | setEnabled (this : κ) (value : Bool)
  /-- What `IsActive` of an object answers from now on. -/
  | setActive (object : ι) (value : Bool)
  | postLoad (self : Option ι)
  | awake (self : Option ι) (isPaused : Bool)
  | checkActivity (self : Option ι)
  | start (self : Option ι)
  | prepare
  | update (isPaused : Bool)
  | fixedUpdate (isPaused : Bool)
  | lateUpdate (isPaused : Bool)

namespace LiveScene

variable {ι κ : Type}

/-- `IsActive` of a scene object and of the scene. -/
def isActive (s : LiveScene ι κ) : Option ι → Bool
  | none => true
  | some object => s.isObjectActive object

def tell (s : LiveScene ι κ) (this : κ) (event : ComponentEvent) : LiveScene ι κ :=
  { s with called := s.called ++ [(this, event)] }

variable [DecidableEq κ]

def modify (s : LiveScene ι κ) (this : κ) (f : LiveComponent ι → LiveComponent ι) :
    LiveScene ι κ :=
  { s with component := Function.update s.component this (f (s.component this)) }

section

variable (executeInEditMode : κ → Bool)

/-- The body of the loop of `PostLoad`. -/
def attach (self : Option ι) (s : LiveScene ι κ) (this : κ) : LiveScene ι κ :=
  if (s.component this).isAttached then s
  else
    (s.modify this fun this => { this with parent := some self, isAttached := true }).tell this
      .onAttached

/-- The body of the loop of `Awake`. -/
def awaken (isPaused : Bool) (s : LiveScene ι κ) (this : κ) : LiveScene ι κ :=
  if (s.component this).isAttached && (s.component this).isEnabled &&
      !(isPaused && !executeInEditMode this) && !(s.component this).isAwake then
    (s.modify this fun this => { this with isAwake := true }).tell this .awake
  else s

/-- The body of the loop of `Start`. -/
def startOne (s : LiveScene ι κ) (this : κ) : LiveScene ι κ :=
  if (s.component this).isAttached && (s.component this).isEnabled &&
      (s.component this).isAwake && !(s.component this).isStarted then
    (s.modify this fun this => { this with isStarted := true }).tell this .start
  else s

def unRegister (s : LiveScene ι κ) (this : κ) : Option (LiveScene ι κ) :=
  if s.updater.indexInSceneUpdater this = SceneUpdater.idInvalid then some s
  else (s.updater.unRegisterComponent this).map fun updater => { s with updater }

/-- `Component::CheckActivity`. -/
def checkActivity (s : LiveScene ι κ) (this : κ) : Option (LiveScene ι κ) :=
  let isActive := (s.component this).isEnabled && (s.component this).parent.elim true s.isActive
  if isActive = (s.component this).isActive then some s
  else
    let s := s.modify this fun this => { this with isActive }
    if isActive then
      (s.updater.registerComponent this).map fun updater =>
        { s with updater }.tell this .onEnable
    else (s.unRegister this).map fun s => s.tell this .onDisable

/-- The body of the loop of `IComponentable::CheckActivity`. -/
def check (s : LiveScene ι κ) (this : κ) : Option (LiveScene ι κ) :=
  if (s.component this).isAttached && (s.component this).isAwake then s.checkActivity this
  else some s

def onDetached (s : LiveScene ι κ) (this : κ) : Option (LiveScene ι κ) :=
  (s.unRegister this).map fun s =>
    (s.modify this fun this => { this with isAttached := false }).tell this .onDetached

def destroyComponent (s : LiveScene ι κ) (this : κ) : Option (LiveScene ι κ) :=
  (if (s.component this).isAttached then s.onDetached this else some s).map fun s =>
    { s with destroyedComponents := s.destroyedComponents ++ [this] }

def onDestroy (s : LiveScene ι κ) (this : κ) : LiveScene ι κ :=
  (s.modify this fun this => { this with parent := none }).tell this .onDestroy

/-- A pass of the updater tells the components in its way. -/
def tellAll (s : LiveScene ι κ) (event : ComponentEvent) (visited : List κ) : LiveScene ι κ :=
  visited.foldl (fun s this => s.tell this event) s

variable [DecidableEq ι]

def withComponents (s : LiveScene ι κ) (self : Option ι) (list : List κ) : LiveScene ι κ :=
  { s with components := Function.update s.components self list }

def addComponent (s : LiveScene ι κ) (self : Option ι) (pComponent : κ) : LiveScene ι κ :=
  ((s.withComponents self (s.components self ++ [pComponent])).modify pComponent fun this =>
    { this with parent := some self, isComponentLoaded := true }).tell pComponent .onLoaded

def removeComponent (s : LiveScene ι κ) (self : Option ι) (pComponent : κ) :
    Option (LiveScene ι κ) :=
  if pComponent ∈ s.components self then
    (s.withComponents self ((s.components self).erase pComponent)).destroyComponent pComponent
  else some s

def destroyComponents (s : LiveScene ι κ) (self : Option ι) : Option (LiveScene ι κ) :=
  ((s.components self).foldlM destroyComponent s).map fun s => s.withComponents self []

/-- What `Prepare` does with the components that wait to be destroyed. -/
def prepare (s : LiveScene ι κ) : LiveScene ι κ :=
  { s.destroyedComponents.foldl onDestroy s with destroyedComponents := [] }

/-- A pass that the dirty flag of an object holds back is no call. -/
def step (s : LiveScene ι κ) : LiveCall ι κ → Option (LiveScene ι κ × Unit)
  | .addComponent self pComponent => some (s.addComponent self pComponent, ())
  | .removeComponent self pComponent => (s.removeComponent self pComponent).map fun s => (s, ())
  | .destroyComponents self => (s.destroyComponents self).map fun s => (s, ())
  | .setEnabled this value =>
      some (s.modify this fun this => { this with isEnabled := value }, ())
  | .setActive object value =>
      some ({ s with isObjectActive := Function.update s.isObjectActive object value }, ())
  | .postLoad self => some ((s.components self).foldl (attach self) s, ())
  | .awake self isPaused =>
      some ((s.components self).foldl (awaken executeInEditMode isPaused) s, ())
  | .checkActivity self => ((s.components self).foldlM check s).map fun s => (s, ())
  | .start self =>
      some (if s.isActive self then (s.components self).foldl startOne s else s, ())
  | .prepare => some (s.prepare, ())
  | .update isPaused => (s.updater.update executeInEditMode isPaused).map fun visited =>
      (s.tellAll .update visited, ())
  | .fixedUpdate isPaused => (s.updater.fixedUpdate executeInEditMode isPaused).map fun visited =>
      (s.tellAll .fixedUpdate visited, ())
  | .lateUpdate isPaused => (s.updater.lateUpdate executeInEditMode isPaused).map fun visited =>
      (s.tellAll .lateUpdate visited, ())

end

end LiveScene

/-! ## The stages of a life -/

/-- Whether it has been started is kept while it is switched off and on. -/
inductive LifeStage where
  | new
  | loaded
  | attached
  | awake (started : Bool)
  | enabled (started : Bool)
  | detached
  | destroyed
  deriving DecidableEq

/-- The callbacks that a component may get at a stage. -/
def LifeStage.next : LifeStage → ComponentEvent → Option LifeStage
  | .new, .onLoaded => some .loaded
  | .loaded, .onAttached => some .attached
  | .loaded, .onDestroy => some .destroyed
  | .attached, .awake => some (.awake false)
  | .attached, .onDetached => some .detached
  | .awake started, .onEnable => some (.enabled started)
  | .awake false, .start => some (.awake true)
  | .awake _, .onDetached => some .detached
  | .enabled started, .onDisable => some (.awake started)
  | .enabled false, .start => some (.enabled true)
  | .enabled started, .update => some (.enabled started)
  | .enabled started, .fixedUpdate => some (.enabled started)
  | .enabled started, .lateUpdate => some (.enabled started)
  | .enabled _, .onDetached => some .detached
  | .detached, .onDestroy => some .destroyed
  | _, _ => none

/-- In the list of an object, or on the way out of it. -/
def LifeStage.IsLive (stage : LifeStage) : Prop :=
  stage ≠ .new ∧ stage ≠ .detached ∧ stage ≠ .destroyed

def LiveComponent.flags {ι : Type} (this : LiveComponent ι) : Bool × Bool × Bool × Bool × Bool :=
  (this.isComponentLoaded, this.isAttached, this.isActive, this.isAwake, this.isStarted)

namespace SceneUpdater

variable {κ : Type} {s s' : SceneUpdater κ} {c : κ}

theorem componentsPoolSize_assign {index : ℤ} {pComponent : Option κ}
    (h : s.assign index pComponent = some s') :
    s'.componentsPoolSize = s.componentsPoolSize := by
  rw [assign] at h
  split at h
  · cases h
    rfl
  · cases h

variable [DecidableEq κ]

theorem componentsPoolSize_registerComponent (h : s.registerComponent c = some s') :
    s'.componentsPoolSize ≤ s.componentsPoolSize + 1 := by
  rw [registerComponent] at h
  split at h
  · cases h
    exact Nat.mod_le _ _
  · exact (componentsPoolSize_assign h).le.trans (Nat.le_succ _)

theorem componentsPoolSize_unRegisterComponent (h : s.unRegisterComponent c = some s') :
    s'.componentsPoolSize = s.componentsPoolSize := by
  rw [unRegisterComponent] at h
  dsimp only at h
  split at h
  · cases h
    rfl
  · exact (componentsPoolSize_assign h).trans rfl

end SceneUpdater

namespace LiveScene

variable {ι κ : Type} {s s' : LiveScene ι κ} {c d : κ} {self : Option ι}

def Unlisted (s : LiveScene ι κ) (c : κ) : Prop := ∀ self, c ∉ s.components self

/-- The components that `Update` is for. -/
def updatable (s : LiveScene ι κ) : Set κ :=
  {c | (s.component c).isAttached = true ∧ (s.component c).isActive = true}

/-- What the scene knows of a component at a stage. -/
def AtStage (s : LiveScene ι κ) (c : κ) : LifeStage → Prop
  | .new => (s.component c).flags = (false, false, false, false, false) ∧ s.Unlisted c ∧
      c ∉ s.destroyedComponents
  | .loaded => (s.component c).flags = (true, false, false, false, false)
  | .attached => (s.component c).flags = (true, true, false, false, false) ∧
      c ∉ s.destroyedComponents
  | .awake started => (s.component c).flags = (true, true, false, true, started) ∧
      c ∉ s.destroyedComponents
  | .enabled started => (s.component c).flags = (true, true, true, true, started) ∧
      c ∉ s.destroyedComponents
  | .detached => (s.component c).isComponentLoaded = true ∧
      (s.component c).isAttached = false ∧ s.Unlisted c
  | .destroyed => (s.component c).isComponentLoaded = true ∧
      (s.component c).isAttached = false ∧ s.Unlisted c ∧ c ∉ s.destroyedComponents

theorem AtStage.congr (hcomponent : s'.component c = s.component c)
    (hunlisted : s.Unlisted c → s'.Unlisted c)
    (hqueue : c ∉ s.destroyedComponents → c ∉ s'.destroyedComponents) {stage : LifeStage}
    (h : s.AtStage c stage) : s'.AtStage c stage := by
  cases stage with
  | new => exact ⟨hcomponent ▸ h.1, hunlisted h.2.1, hqueue h.2.2⟩
  | loaded => exact (congrArg LiveComponent.flags hcomponent).trans h
  | attached | awake _ | enabled _ =>
      exact ⟨(congrArg LiveComponent.flags hcomponent).trans h.1, hqueue h.2⟩
  | detached => exact ⟨hcomponent ▸ h.1, hcomponent ▸ h.2.1, hunlisted h.2.2⟩
  | destroyed =>
      exact ⟨hcomponent ▸ h.1, hcomponent ▸ h.2.1, hunlisted h.2.2.1, hqueue h.2.2.2⟩

theorem mem_withComponents [DecidableEq ι] {list : List κ} {p : Option ι} :
    c ∈ (s.withComponents self list).components p ↔
      if p = self then c ∈ list else c ∈ s.components p := by
  rw [withComponents]
  rcases eq_or_ne p self with rfl | hne
  · simp
  · simp [hne]

theorem updatable_congr (hother : ∀ d, d ≠ c → s'.component d = s.component d)
    (hself : c ∈ s'.updatable ↔ c ∈ s.updatable) : s'.updatable = s.updatable := by
  ext d
  rcases eq_or_ne d c with rfl | hne
  · exact hself
  · exact and_congr (by rw [hother d hne]) (by rw [hother d hne])

variable [DecidableEq κ]

def history (s : LiveScene ι κ) (c : κ) : List ComponentEvent :=
  (s.called.filter fun entry => entry.1 = c).map Prod.snd

/-- Where the callbacks of a component have led it, if they came in order. -/
def stage (s : LiveScene ι κ) (c : κ) : Option LifeStage :=
  (s.history c).foldlM LifeStage.next .new

structure Sound (s : LiveScene ι κ) : Prop where
  stages : ∀ c, ∃ stage, s.stage c = some stage ∧ s.AtStage c stage
  nodup : ∀ self, (s.components self).Nodup
  parents : ∀ self, ∀ c ∈ s.components self, (s.component c).parent = some self
  queue_nodup : s.destroyedComponents.Nodup
  notMem_queue : ∀ self, ∀ c ∈ s.components self, c ∉ s.destroyedComponents
  updater : s.updater.Sound s.updatable

@[simp] theorem history_tell_self (s : LiveScene ι κ) (c : κ) (event : ComponentEvent) :
    (s.tell c event).history c = s.history c ++ [event] := by
  simp [tell, history]

theorem history_tell_of_ne (h : d ≠ c) (event : ComponentEvent) :
    (s.tell c event).history d = s.history d := by
  simp [tell, history, h.symm]

@[simp] theorem component_modify_self (s : LiveScene ι κ) (c : κ)
    (f : LiveComponent ι → LiveComponent ι) : (s.modify c f).component c = f (s.component c) := by
  simp [modify]

theorem component_modify_of_ne (h : d ≠ c) (f : LiveComponent ι → LiveComponent ι) :
    (s.modify c f).component d = s.component d := by
  simp [modify, h]

theorem stage_tell {stage stage' : LifeStage} {event : ComponentEvent} (h : s.stage c = some stage)
    (hnext : stage.next event = some stage') : (s.tell c event).stage c = some stage' := by
  rw [LiveScene.stage] at h ⊢
  rw [history_tell_self, List.foldlM_append, h]
  simpa using hnext

theorem stage_congr (h : s'.history c = s.history c) : s'.stage c = s.stage c := by
  rw [stage, stage, h]

/-- A component in a list waits for no destruction. -/
theorem Sound.live (h : s.Sound) (hc : c ∈ s.components self) :
    ∃ stage, s.stage c = some stage ∧ s.AtStage c stage ∧ stage.IsLive := by
  obtain ⟨stage, hstage, hat⟩ := h.stages c
  refine ⟨stage, hstage, hat, ?_, ?_, ?_⟩ <;> rintro rfl
  · exact hat.2.1 self hc
  · exact hat.2.2 self hc
  · exact hat.2.2.1 self hc

theorem Sound.enabled_of_updatable (h : s.Sound) (hc : c ∈ s.updatable) :
    ∃ started, s.stage c = some (.enabled started) ∧ s.AtStage c (.enabled started) := by
  obtain ⟨stage, hstage, hat⟩ := h.stages c
  obtain ⟨hattached, hactive⟩ := hc
  cases stage with
  | enabled started => exact ⟨started, hstage, hat⟩
  | new => simp [AtStage, LiveComponent.flags, hattached] at hat
  | loaded => simp [AtStage, LiveComponent.flags, hattached] at hat
  | attached => simp [AtStage, LiveComponent.flags, hactive] at hat
  | awake _ => simp [AtStage, LiveComponent.flags, hactive] at hat
  | detached => simp [AtStage, hattached] at hat
  | destroyed => simp [AtStage, hattached] at hat

/-- What changes one component only keeps what the scene knows of the others. -/
theorem Sound.change (h : s.Sound) (hcomponents : s'.components = s.components)
    (hqueue : s'.destroyedComponents = s.destroyedComponents)
    (hother : ∀ d, d ≠ c → s'.component d = s.component d ∧ s'.history d = s.history d)
    (hparent : s.Unlisted c ∨ (s'.component c).parent = (s.component c).parent)
    (hstage : ∃ stage, s'.stage c = some stage ∧ s'.AtStage c stage)
    (hupdater : s'.updater.Sound s'.updatable) : s'.Sound where
  stages d := by
    rcases eq_or_ne d c with rfl | hne
    · exact hstage
    · obtain ⟨stage, hd, hat⟩ := h.stages d
      refine ⟨stage, (stage_congr (hother d hne).2).trans hd, hat.congr (hother d hne).1 ?_ ?_⟩
      · exact fun hunlisted self => hcomponents ▸ hunlisted self
      · exact fun hmem => hqueue ▸ hmem
  nodup self := hcomponents ▸ h.nodup self
  parents self d hd := by
    rw [hcomponents] at hd
    rcases eq_or_ne d c with rfl | hne
    · rcases hparent with hunlisted | hparent
      · exact absurd hd (hunlisted self)
      · exact hparent.trans (h.parents self d hd)
    · rw [(hother d hne).1]
      exact h.parents self d hd
  queue_nodup := hqueue ▸ h.queue_nodup
  notMem_queue self d hd := by
    rw [hcomponents] at hd
    rw [hqueue]
    exact h.notMem_queue self d hd
  updater := hupdater

theorem other_tell_modify (f : LiveComponent ι → LiveComponent ι) (event : ComponentEvent)
    (hne : d ≠ c) : ((s.modify c f).tell c event).component d = s.component d ∧
      ((s.modify c f).tell c event).history d = s.history d :=
  ⟨component_modify_of_ne hne f, history_tell_of_ne hne event⟩

/-- A component in a list gets a callback that its stage allows. -/
theorem Sound.tell_modify (h : s.Sound) {f : LiveComponent ι → LiveComponent ι}
    {event : ComponentEvent} {stage stage' : LifeStage} (hstage : s.stage c = some stage)
    (hnext : stage.next event = some stage')
    (hat : ((s.modify c f).tell c event).AtStage c stage')
    (hparent : (f (s.component c)).parent = (s.component c).parent)
    (hself : c ∈ ((s.modify c f).tell c event).updatable ↔ c ∈ s.updatable) :
    ((s.modify c f).tell c event).Sound := by
  refine h.change (c := c) rfl rfl (fun d hne => other_tell_modify f event hne) ?_
    ⟨stage', ?_, hat⟩ ?_
  · exact .inr ((congrArg LiveComponent.parent (component_modify_self s c f)).trans hparent)
  · exact stage_tell (s := s.modify c f) hstage hnext
  · rw [updatable_congr (fun d hne => (other_tell_modify f event hne).1) hself]
    exact h.updater

theorem Sound.attach (h : s.Sound) (hc : c ∈ s.components self) : (s.attach self c).Sound := by
  rw [LiveScene.attach]
  split
  case isTrue => exact h
  case isFalse hattached =>
    obtain ⟨stage, hstage, hat, hnew, hdetached, hdestroyed⟩ := h.live hc
    have hloaded : stage = .loaded := by
      cases stage <;> simp_all [AtStage, LiveComponent.flags]
    subst hloaded
    have hflags := hat
    simp only [AtStage, LiveComponent.flags, Prod.mk.injEq] at hflags
    obtain ⟨hisLoaded, -, hactive, hawake, hstarted⟩ := hflags
    refine h.tell_modify hstage rfl ⟨?_, h.notMem_queue self c hc⟩ (h.parents self c hc).symm ?_
    · simp [tell, LiveComponent.flags, hisLoaded, hactive, hawake, hstarted]
    · simp [updatable, tell, hactive]

theorem Sound.awaken (h : s.Sound) (hc : c ∈ s.components self) (executeInEditMode : κ → Bool)
    (isPaused : Bool) : (s.awaken executeInEditMode isPaused c).Sound := by
  rw [LiveScene.awaken]
  split
  case isFalse => exact h
  case isTrue hguard =>
    simp only [Bool.and_eq_true, Bool.not_eq_true'] at hguard
    obtain ⟨⟨⟨hattached, -⟩, -⟩, hawake⟩ := hguard
    obtain ⟨stage, hstage, hat, -⟩ := h.live hc
    have hisAttached : stage = .attached := by
      cases stage <;> simp_all [AtStage, LiveComponent.flags]
    subst hisAttached
    have hflags := hat.1
    simp only [LiveComponent.flags, Prod.mk.injEq] at hflags
    obtain ⟨hisLoaded, -, hactive, -, hstarted⟩ := hflags
    refine h.tell_modify hstage rfl ⟨?_, hat.2⟩ rfl ?_
    · simp [tell, LiveComponent.flags, hisLoaded, hattached, hactive, hstarted]
    · simp [updatable, tell, hactive]

theorem Sound.startOne (h : s.Sound) (hc : c ∈ s.components self) : (s.startOne c).Sound := by
  rw [LiveScene.startOne]
  split
  case isFalse => exact h
  case isTrue hguard =>
    simp only [Bool.and_eq_true, Bool.not_eq_true'] at hguard
    obtain ⟨⟨⟨hattached, -⟩, hawake⟩, hstarted⟩ := hguard
    obtain ⟨stage, hstage, hat, -⟩ := h.live hc
    cases stage with
    | awake started =>
        have hflags := hat.1
        simp only [LiveComponent.flags, Prod.mk.injEq] at hflags
        obtain ⟨hisLoaded, -, hactive, -, rfl⟩ := hflags
        rw [hstarted] at hstage
        have hnext : LifeStage.next (.awake false) .start = some (.awake true) := rfl
        refine h.tell_modify hstage hnext ⟨?_, hat.2⟩ rfl ?_
        · simp [tell, LiveComponent.flags, hisLoaded, hattached, hactive, hawake]
        · simp [updatable, tell]
    | enabled started =>
        have hflags := hat.1
        simp only [LiveComponent.flags, Prod.mk.injEq] at hflags
        obtain ⟨hisLoaded, -, hactive, -, rfl⟩ := hflags
        rw [hstarted] at hstage
        have hnext : LifeStage.next (.enabled false) .start = some (.enabled true) := rfl
        refine h.tell_modify hstage hnext ⟨?_, hat.2⟩ rfl ?_
        · simp [tell, LiveComponent.flags, hisLoaded, hattached, hactive, hawake]
        · simp [updatable, tell]
    | new | loaded | attached | detached | destroyed =>
        simp_all [AtStage, LiveComponent.flags]

/-- A component that is not in the pool is left alone. -/
theorem unRegister_eq {R : Set κ} (h : s.updater.Sound R) (c : κ) :
    ∃ updater, s.unRegister c = some { s with updater } ∧ updater.Sound (R \ {c}) ∧
      updater.componentsPoolSize = s.updater.componentsPoolSize := by
  rw [unRegister]
  split
  case isTrue hinvalid =>
    refine ⟨s.updater, rfl, ?_, rfl⟩
    rw [Set.sdiff_singleton_eq_self (h.notMem_of_invalid hinvalid)]
    exact h
  case isFalse =>
    obtain ⟨updater, hupdater, hsound⟩ := h.unRegisterComponent c
    exact ⟨updater, by rw [hupdater, Option.map_some], hsound,
      SceneUpdater.componentsPoolSize_unRegisterComponent hupdater⟩

/-- The component is for `Update` from now on. -/
theorem updatable_modify_insert {f : LiveComponent ι → LiveComponent ι}
    (hattached : (f (s.component c)).isAttached = true)
    (hactive : (f (s.component c)).isActive = true) :
    (s.modify c f).updatable = insert c s.updatable := by
  ext d
  rcases eq_or_ne d c with rfl | hne
  · simp [updatable, hattached, hactive]
  · simp [updatable, component_modify_of_ne hne, hne]

/-- The component is not for `Update` any more. -/
theorem updatable_modify_erase {f : LiveComponent ι → LiveComponent ι}
    (hf : (f (s.component c)).isAttached = false ∨ (f (s.component c)).isActive = false) :
    (s.modify c f).updatable = s.updatable \ {c} := by
  ext d
  rcases eq_or_ne d c with rfl | hne
  · rcases hf with hf | hf <;> simp [updatable, hf]
  · simp [updatable, component_modify_of_ne hne, hne]

/-- A component in a list is put into the pool or taken out of it. -/
theorem Sound.switch (h : s.Sound) {value : Bool} {event : ComponentEvent}
    {stage stage' : LifeStage} {updater : SceneUpdater κ} (hstage : s.stage c = some stage)
    (hnext : stage.next event = some stage')
    (hat : (s.modify c fun this => { this with isActive := value }).AtStage c stage')
    (hupdater : updater.Sound (s.modify c fun this => { this with isActive := value }).updatable) :
    ({ s.modify c fun this => { this with isActive := value } with updater }.tell c
      event).Sound := by
  refine h.change (c := c) rfl rfl (fun d hne => ?_) ?_ ⟨stage', ?_, ?_⟩ hupdater
  · exact other_tell_modify (fun this => { this with isActive := value }) event hne
  · apply Or.inr
    change ((s.modify c fun this => { this with isActive := value }).component c).parent = _
    rw [component_modify_self]
  · exact stage_tell (s := { s.modify c _ with updater }) hstage hnext
  · exact hat.congr rfl id id

theorem Sound.check (h : s.Sound) (hc : c ∈ s.components self)
    (hfits : s.updater.Fits (.registerComponent c)) :
    ∃ s', s.check c = some s' ∧ s'.Sound ∧ s'.components = s.components ∧
      s'.updater.componentsPoolSize ≤ s.updater.componentsPoolSize + 1 := by
  rw [LiveScene.check]
  split
  case isFalse => exact ⟨s, rfl, h, rfl, Nat.le_succ _⟩
  case isTrue hguard =>
    obtain ⟨hattached, hawake⟩ := Bool.and_eq_true_iff.mp hguard
    obtain ⟨stage, hstage, hat, -⟩ := h.live hc
    rw [checkActivity]
    generalize ((s.component c).isEnabled && (s.component c).parent.elim true s.isActive) = value
    split
    case isTrue => exact ⟨s, rfl, h, rfl, Nat.le_succ _⟩
    case isFalse hchanged =>
      cases value with
      | true =>
          have hactive : (s.component c).isActive = false := by simpa using hchanged
          obtain ⟨started, rfl⟩ : ∃ started, stage = .awake started := by
            cases stage <;> simp_all [AtStage, LiveComponent.flags]
          have hnotMem : c ∉ s.updatable := fun hmem => by simp [updatable, hactive] at hmem
          obtain ⟨updater, hupdater, hsound⟩ :=
            h.updater.registerComponent (h.updater.unregistered c hnotMem).1 hfits
          dsimp only
          rw [if_pos rfl]
          refine ⟨_, Option.map_eq_some_iff.mpr ⟨updater, hupdater, rfl⟩, ?_, rfl,
            SceneUpdater.componentsPoolSize_registerComponent hupdater⟩
          apply h.switch hstage rfl
          · have hflags := hat.1
            simp only [LiveComponent.flags, Prod.mk.injEq] at hflags
            refine ⟨?_, hat.2⟩
            simp [LiveComponent.flags, hflags]
          · rw [updatable_modify_insert hattached rfl]
            exact hsound
      | false =>
          have hactive : (s.component c).isActive = true := by simpa using hchanged
          obtain ⟨started, rfl⟩ : ∃ started, stage = .enabled started := by
            cases stage <;> simp_all [AtStage, LiveComponent.flags]
          obtain ⟨updater, hupdater, hsound, hsize⟩ :=
            unRegister_eq (s := s.modify c fun this => { this with isActive := false })
              h.updater c
          dsimp only
          rw [if_neg Bool.false_ne_true]
          refine ⟨_, Option.map_eq_some_iff.mpr ⟨_, hupdater, rfl⟩, ?_, rfl,
            hsize.le.trans (Nat.le_succ _)⟩
          apply h.switch hstage rfl
          · have hflags := hat.1
            simp only [LiveComponent.flags, Prod.mk.injEq] at hflags
            refine ⟨?_, hat.2⟩
            simp [LiveComponent.flags, hflags]
          · rw [updatable_modify_erase (.inr rfl)]
            exact hsound

@[simp] theorem components_attach (s : LiveScene ι κ) (self : Option ι) (c : κ) :
    (s.attach self c).components = s.components := by
  rw [attach]
  split <;> rfl

@[simp] theorem components_awaken (s : LiveScene ι κ) (executeInEditMode : κ → Bool)
    (isPaused : Bool) (c : κ) :
    (s.awaken executeInEditMode isPaused c).components = s.components := by
  rw [awaken]
  split <;> rfl

@[simp] theorem components_startOne (s : LiveScene ι κ) (c : κ) :
    (s.startOne c).components = s.components := by
  rw [startOne]
  split <;> rfl

/-- A loop over a list that keeps the lists. -/
theorem Sound.foldl {op : LiveScene ι κ → κ → LiveScene ι κ}
    (hop : ∀ s c, s.Sound → c ∈ s.components self → (op s c).Sound)
    (hlists : ∀ s c, (op s c).components = s.components) (h : s.Sound) {list : List κ}
    (hlist : ∀ c ∈ list, c ∈ s.components self) : (list.foldl op s).Sound := by
  induction list generalizing s with
  | nil => exact h
  | cons c list ih =>
      rw [List.forall_mem_cons] at hlist
      apply ih (hop s c h hlist.1)
      rw [hlists]
      exact hlist.2

theorem Sound.foldlM_check (h : s.Sound) {list : List κ}
    (hlist : ∀ c ∈ list, c ∈ s.components self)
    (hfits : s.updater.componentsPoolSize + list.length ≤ 2 ^ 31) :
    ∃ s', list.foldlM LiveScene.check s = some s' ∧ s'.Sound := by
  induction list generalizing s with
  | nil => exact ⟨s, rfl, h⟩
  | cons c list ih =>
      rw [List.forall_mem_cons] at hlist
      rw [List.length_cons] at hfits
      obtain ⟨s₁, hs₁, hsound, hcomponents, hsize⟩ := h.check hlist.1 fun _ => by omega
      obtain ⟨s', hs', hsound'⟩ := ih hsound (hcomponents ▸ hlist.2) (by omega)
      exact ⟨s', by rw [List.foldlM_cons, hs₁]; exact hs', hsound'⟩

/-! ## Leaving a list -/

/-- Out of the lists, but not detached yet. -/
def Leaving (s : LiveScene ι κ) (c : κ) : Prop :=
  s.Unlisted c ∧ c ∉ s.destroyedComponents ∧
    ∃ stage, s.stage c = some stage ∧ s.AtStage c stage ∧ stage.IsLive

/-- A component joins those that wait to be destroyed. -/
theorem Sound.enqueue (h : s.Sound) (hunlisted : s.Unlisted c) (hfresh : c ∉ s.destroyedComponents)
    (hcomponents : s'.components = s.components)
    (hqueue : s'.destroyedComponents = s.destroyedComponents ++ [c])
    (hother : ∀ d, d ≠ c → s'.component d = s.component d ∧ s'.history d = s.history d)
    (hstage : ∃ stage, s'.stage c = some stage ∧ s'.AtStage c stage)
    (hupdater : s'.updater.Sound s'.updatable) :
    s'.Sound ∧ ∀ d, d ≠ c → s.Leaving d → s'.Leaving d := by
  have hstays : ∀ d, d ≠ c → ∀ stage, s.AtStage d stage → s'.AtStage d stage := by
    intro d hne stage hat
    refine hat.congr (hother d hne).1 (fun hd self => hcomponents ▸ hd self) fun hd => ?_
    rw [hqueue]
    simpa [hne] using hd
  refine ⟨⟨fun d => ?_, fun self => hcomponents ▸ h.nodup self, fun self d hd => ?_, ?_,
    fun self d hd => ?_, hupdater⟩, fun d hne hd => ?_⟩
  · rcases eq_or_ne d c with rfl | hne
    · exact hstage
    · obtain ⟨stage, hd, hat⟩ := h.stages d
      exact ⟨stage, (stage_congr (hother d hne).2).trans hd, hstays d hne stage hat⟩
  · rw [hcomponents] at hd
    have hne : d ≠ c := fun heq => hunlisted self (heq ▸ hd)
    rw [(hother d hne).1]
    exact h.parents self d hd
  · rw [hqueue]
    exact h.queue_nodup.append (List.nodup_singleton c) (by simpa using hfresh)
  · rw [hcomponents] at hd
    have hne : d ≠ c := fun heq => hunlisted self (heq ▸ hd)
    rw [hqueue]
    simpa [hne] using h.notMem_queue self d hd
  · obtain ⟨hd, hnotMem, stage, hstage, hat, hlive⟩ := hd
    refine ⟨fun self => hcomponents ▸ hd self, ?_, stage,
      (stage_congr (hother d hne).2).trans hstage, hstays d hne stage hat, hlive⟩
    rw [hqueue]
    simpa [hne] using hnotMem

theorem Sound.destroyComponent (h : s.Sound) (hc : s.Leaving c) :
    ∃ s', s.destroyComponent c = some s' ∧ s'.Sound ∧ ∀ d, d ≠ c → s.Leaving d → s'.Leaving d := by
  obtain ⟨hunlisted, hfresh, stage, hstage, hat, hnew, hdetached, hdestroyed⟩ := hc
  rw [LiveScene.destroyComponent]
  cases hattached : (s.component c).isAttached with
  | false =>
      have hloaded : stage = .loaded := by
        cases stage <;> simp_all [AtStage, LiveComponent.flags]
      subst hloaded
      refine ⟨_, rfl, h.enqueue hunlisted hfresh rfl rfl (fun d _ => ⟨rfl, rfl⟩) ?_ h.updater⟩
      exact ⟨.loaded, hstage, hat⟩
  | true =>
      obtain ⟨updater, hupdater, hsound, -⟩ := unRegister_eq h.updater c
      have hnext : stage.next .onDetached = some .detached := by
        cases stage <;> simp_all [AtStage, LiveComponent.flags, LifeStage.next]
      have hisLoaded : (s.component c).isComponentLoaded = true := by
        cases stage <;> simp_all [AtStage, LiveComponent.flags]
      rw [if_pos rfl, onDetached, hupdater]
      refine ⟨_, rfl, h.enqueue hunlisted hfresh rfl rfl (fun d hne => ?_) ⟨.detached, ?_, ?_⟩ ?_⟩
      · exact other_tell_modify (fun this => { this with isAttached := false }) _ hne
      · exact stage_tell (s := { s with updater }.modify c _) hstage hnext
      · refine ⟨?_, ?_, hunlisted⟩
        · simpa [tell, modify] using hisLoaded
        · simp [tell, modify]
      · change updater.Sound (s.modify c fun this => { this with isAttached := false }).updatable
        rw [updatable_modify_erase (.inl rfl)]
        exact hsound

theorem Sound.foldlM_destroyComponent (h : s.Sound) {list : List κ} (hnodup : list.Nodup)
    (hlist : ∀ c ∈ list, s.Leaving c) :
    ∃ s', list.foldlM LiveScene.destroyComponent s = some s' ∧ s'.Sound := by
  induction list generalizing s with
  | nil => exact ⟨s, rfl, h⟩
  | cons c list ih =>
      rw [List.forall_mem_cons] at hlist
      rw [List.nodup_cons] at hnodup
      obtain ⟨s₁, hs₁, hsound, hleaving⟩ := h.destroyComponent hlist.1
      obtain ⟨s', hs', hsound'⟩ := ih hsound hnodup.2 fun d hd =>
        hleaving d (fun heq => hnodup.1 (heq ▸ hd)) (hlist.2 d hd)
      exact ⟨s', by rw [List.foldlM_cons, hs₁]; exact hs', hsound'⟩

/-- A component that waits to be destroyed has been detached, or was never attached. -/
def Doomed (s : LiveScene ι κ) (c : κ) : Prop :=
  s.Unlisted c ∧ s.destroyedComponents = [] ∧ ∃ stage, s.stage c = some stage ∧
    s.AtStage c stage ∧ stage.next .onDestroy = some .destroyed

theorem Sound.onDestroy (h : s.Sound) (hc : s.Doomed c) :
    (s.onDestroy c).Sound ∧ ∀ d, d ≠ c → s.Doomed d → (s.onDestroy c).Doomed d := by
  obtain ⟨hunlisted, hqueue, stage, hstage, hat, hnext⟩ := hc
  have hother (d : κ) (hne : d ≠ c) := other_tell_modify (s := s)
    (fun this => { this with parent := none }) .onDestroy hne
  have hflags : (s.component c).isComponentLoaded = true ∧ (s.component c).isAttached = false := by
    cases stage <;> simp_all [AtStage, LiveComponent.flags, LifeStage.next]
  refine ⟨h.change (c := c) rfl rfl hother (.inl hunlisted) ⟨.destroyed, ?_, ?_⟩ ?_,
    fun d hne hd => ?_⟩
  · exact stage_tell (s := s.modify c _) hstage hnext
  · refine ⟨?_, ?_, hunlisted, ?_⟩
    · simpa [LiveScene.onDestroy, tell] using hflags.1
    · simpa [LiveScene.onDestroy, tell] using hflags.2
    · simp [LiveScene.onDestroy, tell, modify, hqueue]
  · have hsame : (s.onDestroy c).updatable = s.updatable := by
      apply updatable_congr fun d hne => (hother d hne).1
      simp [updatable, tell]
    rw [hsame]
    exact h.updater
  · obtain ⟨hd, hqueue, stage, hstage, hat, hnext⟩ := hd
    exact ⟨hd, hqueue, stage, (stage_congr (hother d hne).2).trans hstage,
      hat.congr (hother d hne).1 id id, hnext⟩

theorem Sound.foldl_onDestroy (h : s.Sound) {list : List κ} (hnodup : list.Nodup)
    (hlist : ∀ c ∈ list, s.Doomed c) : (list.foldl LiveScene.onDestroy s).Sound := by
  induction list generalizing s with
  | nil => exact h
  | cons c list ih =>
      rw [List.forall_mem_cons] at hlist
      rw [List.nodup_cons] at hnodup
      obtain ⟨hsound, hdoomed⟩ := h.onDestroy hlist.1
      exact ih hsound hnodup.2 fun d hd =>
        hdoomed d (fun heq => hnodup.1 (heq ▸ hd)) (hlist.2 d hd)

/-- The queue may be cleared first. -/
theorem prepare_eq (s : LiveScene ι κ) (list : List κ) :
    { list.foldl LiveScene.onDestroy s with destroyedComponents := [] } =
      list.foldl LiveScene.onDestroy { s with destroyedComponents := [] } := by
  induction list generalizing s with
  | nil => rfl
  | cons c list ih => exact ih (s.onDestroy c)

theorem Sound.prepare (h : s.Sound) : s.prepare.Sound := by
  rw [LiveScene.prepare, prepare_eq]
  have hstays : ∀ c stage, s.AtStage c stage →
      ({ s with destroyedComponents := [] } : LiveScene ι κ).AtStage c stage := by
    intro c stage hat
    refine hat.congr ?_ ?_ ?_
    · rfl
    · exact id
    · exact fun _ => List.not_mem_nil
  have hcleared : ({ s with destroyedComponents := [] } : LiveScene ι κ).Sound :=
    { stages := fun c => by
        obtain ⟨stage, hstage, hat⟩ := h.stages c
        exact ⟨stage, hstage, hstays c stage hat⟩
      nodup := h.nodup
      parents := h.parents
      queue_nodup := List.nodup_nil
      notMem_queue := fun _ _ _ => List.not_mem_nil
      updater := h.updater }
  refine hcleared.foldl_onDestroy h.queue_nodup fun c hc => ?_
  obtain ⟨stage, hstage, hat⟩ := h.stages c
  refine ⟨fun self hmem => h.notMem_queue self c hmem hc, rfl, stage, hstage,
    hstays c stage hat, ?_⟩
  cases stage with
  | loaded | detached => rfl
  | new => exact absurd hc hat.2.2
  | attached | awake _ | enabled _ => exact absurd hc hat.2
  | destroyed => exact absurd hc hat.2.2.2

/-! ## Passes of the updater -/

theorem Sound.tellAll (h : s.Sound) {event : ComponentEvent}
    (hevent : ∀ started, LifeStage.next (.enabled started) event = some (.enabled started))
    {visited : List κ} (hvisited : ∀ c ∈ visited, c ∈ s.updatable) :
    (s.tellAll event visited).Sound := by
  rw [LiveScene.tellAll]
  induction visited generalizing s with
  | nil => exact h
  | cons c visited ih =>
      rw [List.forall_mem_cons] at hvisited
      obtain ⟨started, hstage, hat⟩ := h.enabled_of_updatable hvisited.1
      refine ih ?_ hvisited.2
      refine h.change (c := c) rfl rfl (fun d hne => ⟨rfl, history_tell_of_ne hne event⟩)
        (.inr rfl) ⟨.enabled started, stage_tell hstage (hevent started), hat⟩ h.updater

theorem Sound.pass (h : s.Sound) (executeInEditMode : κ → Bool) (isPaused : Bool)
    {event : ComponentEvent}
    (hevent : ∀ started, LifeStage.next (.enabled started) event = some (.enabled started)) :
    ∃ s', (s.updater.pass executeInEditMode isPaused).map (fun visited =>
      (s.tellAll event visited, ())) = some (s', ()) ∧ s'.Sound := by
  obtain ⟨visited, hvisited, -, hmem⟩ := h.updater.passesExactly executeInEditMode isPaused
  exact ⟨s.tellAll event visited, by rw [hvisited, Option.map_some],
    h.tellAll hevent fun c hc => ((hmem c).mp hc).1⟩

/-! ## Every call -/

theorem sound_empty : ({} : LiveScene ι κ).Sound where
  stages c := ⟨.new, rfl, rfl, fun _ => List.not_mem_nil, List.not_mem_nil⟩
  nodup _ := List.nodup_nil
  parents _ _ hc := by cases hc
  queue_nodup := List.nodup_nil
  notMem_queue _ _ hc := by cases hc
  updater := by
    have hnone : ({} : LiveScene ι κ).updatable = ∅ := by simp [updatable]
    rw [hnone]
    exact SceneUpdater.sound_empty

theorem Sound.setEnabled (h : s.Sound) (c : κ) (value : Bool) :
    (s.modify c fun this => { this with isEnabled := value }).Sound := by
  obtain ⟨stage, hstage, hat⟩ := h.stages c
  have hother (d : κ) (hne : d ≠ c) := component_modify_of_ne (s := s) hne
    fun this => { this with isEnabled := value }
  refine h.change (c := c) rfl rfl (fun d hne => ⟨hother d hne, rfl⟩) (.inr ?_)
    ⟨stage, hstage, ?_⟩ ?_
  · rw [component_modify_self]
  · cases stage <;>
      simpa [AtStage, LiveComponent.flags, Unlisted, modify] using hat
  · have hsame : (s.modify c fun this => { this with isEnabled := value }).updatable =
        s.updatable := by
      apply updatable_congr hother
      simp [updatable]
    rw [hsame]
    exact h.updater

variable [DecidableEq ι]

/-- A component is added once, before anything else happens to it. -/
def AddsNew (s : LiveScene ι κ) : LiveCall ι κ → Prop
  | .addComponent _ pComponent => (s.component pComponent).isComponentLoaded = false
  | _ => True

/-- The pool has room for what the pass may register. -/
def HasRoom (s : LiveScene ι κ) : LiveCall ι κ → Prop
  | .checkActivity self =>
      s.updater.componentsPoolSize + (s.components self).length ≤ 2 ^ 31
  | _ => True

instance (s : LiveScene ι κ) : DecidablePred s.AddsNew
  | .addComponent _ pComponent =>
      inferInstanceAs (Decidable ((s.component pComponent).isComponentLoaded = false))
  | .removeComponent .. | .destroyComponents _ | .setEnabled .. | .setActive .. | .postLoad _
  | .awake .. | .checkActivity _ | .start _ | .prepare | .update _ | .fixedUpdate _
  | .lateUpdate _ => .isTrue trivial

instance (s : LiveScene ι κ) : DecidablePred s.HasRoom
  | .checkActivity _ => Nat.decLe _ _
  | .addComponent .. | .removeComponent .. | .destroyComponents _ | .setEnabled ..
  | .setActive .. | .postLoad _ | .awake .. | .start _ | .prepare | .update _
  | .fixedUpdate _ | .lateUpdate _ => .isTrue trivial

theorem Sound.shrink (h : s.Sound) {list : List κ} (hsub : ∀ c ∈ list, c ∈ s.components self)
    (hnodup : list.Nodup) : (s.withComponents self list).Sound := by
  have hmem : ∀ p, ∀ c ∈ (s.withComponents self list).components p, c ∈ s.components p := by
    intro p c hc
    rw [mem_withComponents] at hc
    split at hc
    case isTrue heq => exact heq ▸ hsub c hc
    case isFalse => exact hc
  exact
    { stages := fun c => by
        obtain ⟨stage, hstage, hat⟩ := h.stages c
        refine ⟨stage, hstage, hat.congr ?_ ?_ ?_⟩
        · rfl
        · exact fun hunlisted p hc => hunlisted p (hmem p c hc)
        · exact id
      nodup := fun p => by
        rw [withComponents]
        rcases eq_or_ne p self with rfl | hne
        · simpa using hnodup
        · simpa [hne] using h.nodup p
      parents := fun p c hc => h.parents p c (hmem p c hc)
      queue_nodup := h.queue_nodup
      notMem_queue := fun p c hc => h.notMem_queue p c (hmem p c hc)
      updater := h.updater }

/-- A component that is taken out of its list leaves. -/
theorem Sound.leaving (h : s.Sound) {list : List κ} (hc : c ∈ s.components self)
    (hnotMem : c ∉ list) : (s.withComponents self list).Leaving c := by
  have hunlisted : (s.withComponents self list).Unlisted c := by
    intro p hmem
    rw [mem_withComponents] at hmem
    split at hmem
    case isTrue => exact hnotMem hmem
    case isFalse hne =>
      have hparents := (h.parents p c hmem).symm.trans (h.parents self c hc)
      exact hne (Option.some.inj hparents)
  obtain ⟨stage, hstage, hat, hlive⟩ := h.live hc
  refine ⟨hunlisted, h.notMem_queue self c hc, stage, hstage, hat.congr ?_ ?_ ?_, hlive⟩
  · rfl
  · exact fun _ => hunlisted
  · exact id

theorem Sound.removeComponent (h : s.Sound) (self : Option ι) (c : κ) :
    ∃ s', s.removeComponent self c = some s' ∧ s'.Sound := by
  rw [LiveScene.removeComponent]
  split
  case isFalse => exact ⟨s, rfl, h⟩
  case isTrue hc =>
    have hsound : (s.withComponents self ((s.components self).erase c)).Sound :=
      h.shrink (fun d => List.mem_of_mem_erase) ((h.nodup self).erase c)
    obtain ⟨s', hs', hsound', -⟩ :=
      hsound.destroyComponent (h.leaving hc (h.nodup self).not_mem_erase)
    exact ⟨s', hs', hsound'⟩

/-- The list may be cleared first. -/
theorem destroyComponent_withComponents (s : LiveScene ι κ) (self : Option ι) (list : List κ)
    (c : κ) : (s.withComponents self list).destroyComponent c =
      (s.destroyComponent c).map fun s => s.withComponents self list := by
  simp only [LiveScene.destroyComponent, onDetached, unRegister]
  cases hattached : (s.component c).isAttached with
  | false => simp [withComponents, hattached]
  | true =>
      rw [show ((s.withComponents self list).component c).isAttached = true from hattached,
        show (s.withComponents self list).updater = s.updater from rfl]
      by_cases hindex : s.updater.indexInSceneUpdater c = SceneUpdater.idInvalid
      · simp only [if_pos hindex]
        rfl
      · simp only [if_neg hindex]
        cases s.updater.unRegisterComponent c <;> rfl

theorem foldlM_withComponents (s : LiveScene ι κ) (self : Option ι) (list cs : List κ) :
    cs.foldlM LiveScene.destroyComponent (s.withComponents self list) =
      (cs.foldlM LiveScene.destroyComponent s).map fun s => s.withComponents self list := by
  induction cs generalizing s with
  | nil => rfl
  | cons c cs ih =>
      rw [List.foldlM_cons, List.foldlM_cons, destroyComponent_withComponents]
      cases s.destroyComponent c with
      | none => rfl
      | some s' => exact ih s'

theorem Sound.destroyComponents (h : s.Sound) (self : Option ι) :
    ∃ s', s.destroyComponents self = some s' ∧ s'.Sound := by
  rw [LiveScene.destroyComponents, ← foldlM_withComponents]
  apply (h.shrink (fun _ hc => by cases hc) List.nodup_nil).foldlM_destroyComponent (h.nodup self)
  exact fun c hc => h.leaving hc List.not_mem_nil

theorem Sound.addComponent (h : s.Sound) (hnew : s.AddsNew (.addComponent self c)) :
    (s.addComponent self c).Sound := by
  obtain ⟨stage, hstage, hat⟩ := h.stages c
  have hisNew : stage = .new := by
    cases stage <;> simp_all [AtStage, LiveComponent.flags, AddsNew]
  subst hisNew
  obtain ⟨hflags, hunlisted, hfresh⟩ := hat
  simp only [LiveComponent.flags, Prod.mk.injEq] at hflags
  obtain ⟨-, hattached, hactive, hawake, hstarted⟩ := hflags
  have hmem : ∀ p d, d ∈ (s.addComponent self c).components p ↔
      d ∈ s.components p ∨ p = self ∧ d = c := by
    intro p d
    refine mem_withComponents.trans ?_
    split
    case isTrue heq => simp [heq]
    case isFalse hne => simp [hne]
  have hother (d : κ) (hne : d ≠ c) : (s.addComponent self c).component d = s.component d ∧
      (s.addComponent self c).history d = s.history d :=
    other_tell_modify (s := s.withComponents self _) _ _ hne
  exact
    { stages := fun d => by
        rcases eq_or_ne d c with rfl | hne
        · refine ⟨.loaded, stage_tell (s := (s.withComponents self _).modify d _) hstage rfl, ?_⟩
          simp [AtStage, LiveComponent.flags, LiveScene.addComponent, tell, withComponents,
            hattached, hactive, hawake, hstarted]
        · obtain ⟨stage, hd, hat⟩ := h.stages d
          refine ⟨stage, (stage_congr (hother d hne).2).trans hd, hat.congr (hother d hne).1 ?_ ?_⟩
          · intro hd p hp
            rcases (hmem p d).mp hp with hp | ⟨-, heq⟩
            · exact hd p hp
            · exact hne heq
          · exact id
      nodup := fun p => by
        rw [LiveScene.addComponent, tell, modify, withComponents]
        rcases eq_or_ne p self with rfl | hne
        · simpa using (h.nodup p).append (List.nodup_singleton c) (by simpa using hunlisted p)
        · simpa [hne] using h.nodup p
      parents := fun p d hd => by
        rcases (hmem p d).mp hd with hd | ⟨rfl, rfl⟩
        · have hne : d ≠ c := fun heq => hunlisted p (heq ▸ hd)
          rw [(hother d hne).1]
          exact h.parents p d hd
        · simp [LiveScene.addComponent, tell]
      queue_nodup := h.queue_nodup
      notMem_queue := fun p d hd => by
        rcases (hmem p d).mp hd with hd | ⟨-, rfl⟩
        · exact h.notMem_queue p d hd
        · exact hfresh
      updater := by
        have hsame : (s.addComponent self c).updatable = s.updatable := by
          apply updatable_congr fun d hne => (hother d hne).1
          simp [updatable, LiveScene.addComponent, tell, withComponents]
        rw [hsame]
        exact h.updater }

theorem Sound.setActive (h : s.Sound) (object : ι) (value : Bool) :
    ({ s with isObjectActive := Function.update s.isObjectActive object value } :
      LiveScene ι κ).Sound where
  stages c := by
    obtain ⟨stage, hstage, hat⟩ := h.stages c
    refine ⟨stage, hstage, hat.congr ?_ ?_ ?_⟩
    · rfl
    · exact id
    · exact id
  nodup := h.nodup
  parents := h.parents
  queue_nodup := h.queue_nodup
  notMem_queue := h.notMem_queue
  updater := h.updater

section

variable {executeInEditMode : κ → Bool}

theorem Sound.step (h : s.Sound) {call : LiveCall ι κ} (hnew : s.AddsNew call)
    (hroom : s.HasRoom call) :
    ∃ s', s.step executeInEditMode call = some (s', ()) ∧ s'.Sound := by
  cases call with
  | addComponent self pComponent => exact ⟨_, rfl, h.addComponent hnew⟩
  | removeComponent self pComponent =>
      obtain ⟨s', hs', hsound⟩ := h.removeComponent self pComponent
      exact ⟨s', by rw [LiveScene.step, hs', Option.map_some], hsound⟩
  | destroyComponents self =>
      obtain ⟨s', hs', hsound⟩ := h.destroyComponents self
      exact ⟨s', by rw [LiveScene.step, hs', Option.map_some], hsound⟩
  | setEnabled this value => exact ⟨_, rfl, h.setEnabled this value⟩
  | setActive object value => exact ⟨_, rfl, h.setActive object value⟩
  | postLoad self =>
      exact ⟨_, rfl, h.foldl (fun s c hs hc => hs.attach hc) (fun s c => by simp) fun _ hc => hc⟩
  | awake self isPaused =>
      exact ⟨_, rfl, h.foldl (fun s c hs hc => hs.awaken hc executeInEditMode isPaused)
        (fun s c => by simp) fun _ hc => hc⟩
  | checkActivity self =>
      obtain ⟨s', hs', hsound⟩ := h.foldlM_check (fun _ hc => hc) hroom
      exact ⟨s', by rw [LiveScene.step, hs', Option.map_some], hsound⟩
  | start self =>
      refine ⟨_, rfl, ?_⟩
      split
      case isFalse => exact h
      case isTrue =>
        exact h.foldl (fun s c hs hc => hs.startOne hc) (fun s c => by simp) fun _ hc => hc
  | prepare => exact ⟨_, rfl, h.prepare⟩
  | update isPaused | fixedUpdate isPaused | lateUpdate isPaused =>
      exact h.pass executeInEditMode isPaused fun _ => rfl

theorem Sound.run {calls : List (LiveCall ι κ)} (h : s.Sound)
    (hcalls : Steps.Along (LiveScene.step executeInEditMode)
      (fun s call => s.AddsNew call ∧ s.HasRoom call) s calls) :
    ∃ r, Steps.run (LiveScene.step executeInEditMode) s calls = some r ∧ r.1.Sound := by
  induction calls generalizing s with
  | nil => exact ⟨(s, []), rfl, h⟩
  | cons call calls ih =>
      obtain ⟨⟨hnew, hroom⟩, hrest⟩ := hcalls
      obtain ⟨s', hs', hsound⟩ := h.step hnew hroom
      obtain ⟨r, hr, hsound'⟩ := ih hsound (hrest _ hs')
      exact ⟨(r.1, () :: r.2), by rw [Steps.run_cons hs', hr, Option.map_some], hsound'⟩

/-- The passes of the updater visit what is attached and active, and nothing else. -/
theorem updates_exact (calls : List (LiveCall ι κ))
    (h : Steps.Along (LiveScene.step executeInEditMode)
      (fun s call => s.AddsNew call ∧ s.HasRoom call) {} calls) :
    ∃ r, Steps.run (LiveScene.step executeInEditMode) {} calls = some r ∧
      r.1.updater.Exact r.1.updatable ∧
      r.1.updater.PassesExactly executeInEditMode r.1.updatable := by
  obtain ⟨r, hr, hsound⟩ := sound_empty.run h
  exact ⟨r, hr, hsound.updater.exactFor, hsound.updater.passesExactly executeInEditMode⟩

end

/-- A component of an object lives, and one of the scene is removed while it is enabled. -/
def sampleLife : List (LiveCall ℕ ℕ) :=
  [.addComponent (some 0) 4, .addComponent none 7, .setActive 0 true, .postLoad (some 0),
    .awake (some 0) false, .checkActivity (some 0), .start (some 0), .postLoad none,
    .awake none false, .checkActivity none, .removeComponent none 7, .update false, .prepare]

theorem along_sampleLife : Steps.Along (LiveScene.step fun _ => true)
    (fun s call => s.AddsNew call ∧ s.HasRoom call) {} sampleLife := by
  decide

theorem updates_exact_sampleLife :
    ∃ r, Steps.run (LiveScene.step fun _ => true) {} sampleLife = some r ∧
      r.1.updater.Exact r.1.updatable ∧
      r.1.updater.PassesExactly (fun _ => true) r.1.updatable :=
  updates_exact sampleLife along_sampleLife

example : (Steps.run (LiveScene.step fun _ => true) {} sampleLife).map (fun r => r.1.called) =
    some [(4, .onLoaded), (7, .onLoaded), (4, .onAttached), (4, .awake), (4, .onEnable),
      (4, .start), (7, .onAttached), (7, .awake), (7, .onEnable), (7, .onDetached), (4, .update),
      (7, .onDestroy)] := by
  decide

end LiveScene

end SRCommon
