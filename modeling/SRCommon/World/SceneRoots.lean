import SRCommon.World.SceneRegistry

/-!
# The cached roots of a scene

`GetRootSceneObjects` answers from its cache until it is told of a change. Every
call that changes the slots of the scene or the parents of the objects in them
tells it.
-/

namespace SRCommon

namespace Scene

section

variable {ι ε : Type} {s s' : Scene ι ε} {c : ι}

/-- The object exists, and its parent, if it has one, does not. -/
def isRoot (s : Scene ι ε) (c : ι) : Bool :=
  (s.objects c).any fun object => (s.objects.valid object.parent).isNone

/-- The objects in slots that have no parent, in the order of the slots. -/
def currentRoots (s : Scene ι ε) : List ι := s.table.entries.filter s.isRoot

/-- The roots are the living objects in slots that have no parent, each once and in the order of the
slots. -/
structure RootsExact (s : Scene ι ε) (roots : List ι) : Prop where
  mem_iff : ∀ c, c ∈ roots ↔
    (∃ i, s.table.Holds i c) ∧ s.Live c ∧ s.objects.valid (s.objects.parentOf c) = none
  sublist : roots.Sublist s.table.entries
  nodup : roots.Nodup

/-- Only objects of the scene are removed from it, and what is destroyed is such an object and has
not been removed. -/
def Tells (s : Scene ι ε) : ℕ × SceneCall ι ε → Prop
  | (_, .remove gameObject) => s.owns gameObject
  | (_, .destroyObject self) => s.Live self
  | _ => True

/-- What the cache relies on. -/
structure RootCache (s : Scene ι ε) : Prop where
  registry : s.Registry
  parents : ∀ c p, s.objects.parentOf c = some p → p ∈ s.created
  fresh : s.isHierarchyChanged = false → s.root = s.currentRoots

theorem isRoot_iff : s.isRoot c = true ↔
    (s.objects c).isSome ∧ s.objects.valid (s.objects.parentOf c) = none := by
  rw [isRoot]
  cases hc : s.objects c with
  | none => simp
  | some object => simp [SceneHierarchy.parentOf_eq hc]

theorem Registry.rootsExact (h : s.Registry) : s.RootsExact s.currentRoots where
  mem_iff d := by
    rw [currentRoots, List.mem_filter, SlotTable.mem_entries, isRoot_iff]
    constructor
    · rintro ⟨⟨i, hi⟩, -, hparent⟩
      exact ⟨⟨i, hi⟩, (h.held i d hi).1, hparent⟩
    · rintro ⟨hi, hlive, hparent⟩
      exact ⟨hi, SceneHierarchy.isSome_of_sceneOf hlive.1, hparent⟩
  sublist := List.filter_sublist
  nodup := h.exact.nodup_entries.filter _

theorem getRootSceneObjects_fst (h : s.RootCache) : s.getRootSceneObjects.1 = s.currentRoots := by
  rw [getRootSceneObjects]
  split
  · rename_i hfresh
    exact h.fresh (by simpa using hfresh)
  · rfl

/-- Slots and parents that stay have the same roots. -/
theorem currentRoots_congr (htable : s'.table = s.table)
    (hscene : ∀ i d, s.table.Holds i d → ∀ p, s.objects.parentOf d = some p →
      ((s'.objects p).isSome ↔ (s.objects p).isSome))
    (hlive : ∀ i d, s.table.Holds i d → ((s'.objects d).isSome ↔ (s.objects d).isSome))
    (hparents : ∀ i d, s.table.Holds i d → s'.objects.parentOf d = s.objects.parentOf d) :
    s'.currentRoots = s.currentRoots := by
  rw [currentRoots, currentRoots, htable]
  refine List.filter_congr fun d hd => ?_
  obtain ⟨i, hi⟩ := SlotTable.mem_entries.mp hd
  rw [Bool.eq_iff_iff, isRoot_iff, isRoot_iff, hlive i d hi, hparents i d hi]
  refine and_congr_right fun _ => ?_
  cases hp : s.objects.parentOf d with
  | none => exact Iff.rfl
  | some p =>
      have hsame := Bool.eq_iff_iff.mpr (hscene i d hi p hp)
      simp only [SceneHierarchy.valid, Option.filter_some, hsame]

/-- Where whether an object exists stays. -/
theorem currentRoots_of_sceneOf (htable : s'.table = s.table)
    (hscene : s'.objects.sceneOf = s.objects.sceneOf)
    (hparents : ∀ i d, s.table.Holds i d → s'.objects.parentOf d = s.objects.parentOf d) :
    s'.currentRoots = s.currentRoots := by
  have hlive : ∀ d, (s'.objects d).isSome ↔ (s.objects d).isSome := fun d => by
    rw [← SceneHierarchy.isSome_sceneOf, hscene, SceneHierarchy.isSome_sceneOf]
  exact currentRoots_congr htable (fun _ _ _ p _ => hlive p) (fun _ d _ => hlive d) hparents

theorem rootCache_empty : (empty : Scene ι ε).RootCache where
  registry := registry_empty
  parents c p hp := by cases hp
  fresh _ := rfl

/-- What shrinks a scene and tells it keeps the cache. -/
theorem RootCache.of_shrinks (h : s.RootCache) (hshrinks : Shrinks s s')
    (hchanged : s'.isHierarchyChanged = true) : s'.RootCache where
  registry := hshrinks.registry
  parents c p hp := hshrinks.created ▸ h.parents c p (hshrinks.parentOf c p hp)
  fresh hfalse := by cases hchanged.symm.trans hfalse

/-- Nothing that is held is new. -/
theorem RootCache.ne_of_holds (h : s.RootCache) {i : ℕ} {d : ι} (hd : s.table.Holds i d)
    (hc : c ∉ s.created) : d ≠ c := by
  rintro rfl
  exact hc (h.registry.known d (.inl (by rw [(h.registry.held i d hd).1.1]; rfl)))

theorem RootCache.getRootSceneObjects (h : s.RootCache) : s.getRootSceneObjects.2.RootCache := by
  rw [Scene.getRootSceneObjects]
  split
  · exact h
  · exact ⟨h.registry.congr rfl rfl rfl rfl rfl rfl, h.parents, fun _ => rfl⟩

end

section

variable {ι ε : Type} [DecidableEq ι] {s s' : Scene ι ε} {c p : ι} {fuel : ℕ}

theorem parentOf_registerSceneObject (h : registerSceneObject fuel s c = some s') :
    s'.objects.parentOf = s.objects.parentOf ∧ s'.created = s.created := by
  induction fuel generalizing s s' c with
  | zero => cases h
  | succ fuel ih =>
      obtain ⟨object, hobject, h⟩ := Option.bind_eq_some_iff.mp h
      split at h
      · cases h
      obtain ⟨t, ht, rfl⟩ := Option.map_eq_some_iff.mp h
      refine Steps.foldlM_invariant
        (I := fun _ t => t.objects.parentOf = s.objects.parentOf ∧ t.created = s.created)
        (fun c _ t t' ht ht' => ⟨(ih ht').1.trans ht.1, (ih ht').2.trans ht.2⟩)
        ⟨SceneHierarchy.parentOf_put_same hobject
          (rfl : ({ object with hasScene := true } : SceneObject ι ε).parent = _), rfl⟩ ht

theorem RootCache.registerSceneObject (h : s.RootCache)
    (hs' : registerSceneObject fuel s c = some s') : s'.RootCache := by
  obtain ⟨hparents, hcreated⟩ := parentOf_registerSceneObject hs'
  refine ⟨(h.registry.registerSceneObject hs').1, ?_, ?_⟩
  · rw [hparents, hcreated]
    exact h.parents
  · cases fuel with
    | zero => cases hs'
    | succ fuel =>
        obtain ⟨object, -, hs'⟩ := Option.bind_eq_some_iff.mp hs'
        split at hs'
        · cases hs'
        obtain ⟨t, -, rfl⟩ := Option.map_eq_some_iff.mp hs'
        exact fun hfalse => by cases hfalse

theorem RootCache.remove {ok : Bool} (h : s.RootCache) (hc : s.objects.sceneOf c = some true)
    (hs' : remove s c = some (s', ok)) : s'.RootCache := by
  have hremoves := h.registry.remove hc hs'
  refine ⟨hremoves.registry, ?_, fun hfalse => ?_⟩
  · rw [hremoves.objects, hremoves.created]
    exact h.parents
  · rcases hremoves.changed with htrue | ⟨hsame, htable, hroot, -⟩
    · cases htrue.symm.trans hfalse
    · rw [hroot, h.fresh (hsame.symm.trans hfalse)]
      exact (currentRoots_of_sceneOf htable (by rw [hremoves.objects])
        fun _ _ _ => by rw [hremoves.objects]).symm

/-- What a step of `Prepare` does to the parents, and that it does not keep a change from being
told. -/
theorem parentOf_placeObject (hs' : placeObject s c = some s') :
    s'.objects = s.objects ∧ s'.created = s.created ∧
      s'.isHierarchyChanged = s.isHierarchyChanged := by
  obtain ⟨object, -, hs'⟩ := Option.bind_eq_some_iff.mp hs'
  split at hs'
  · cases hs'
  · cases hs'
    exact ⟨rfl, rfl, rfl⟩

theorem parentOf_destroyImpl (hs' : destroyImpl s c = some s') :
    (∀ d q, s'.objects.parentOf d = some q → s.objects.parentOf d = some q) ∧
      s'.created = s.created ∧ s'.isHierarchyChanged = s.isHierarchyChanged := by
  obtain ⟨object, -, rfl⟩ := Option.map_eq_some_iff.mp hs'
  refine ⟨fun d q hq => ?_, rfl, rfl⟩
  rw [SceneHierarchy.parentOf_free] at hq
  rcases eq_or_ne d c with rfl | hdc
  · rw [Function.update_self] at hq
    cases hq
  · rwa [Function.update_of_ne hdc] at hq

variable [DecidableEq ε]

theorem RootCache.create {entityId : ε} (h : s.RootCache)
    (hs' : create fuel s c entityId = some s') : s'.RootCache := by
  rw [Scene.create] at hs'
  split at hs'
  · cases hs'
  rename_i hfresh
  obtain ⟨objects, hobjects, rfl⟩ := Option.map_eq_some_iff.mp hs'
  obtain ⟨-, rfl⟩ := SceneHierarchy.create_eq hobjects
  have hparents : ∀ d, d ≠ c → (s.objects.put c
      { entityId, hasScene := false, entityPath := [entityId] }).parentOf d =
        s.objects.parentOf d := fun d hd => by
    rw [SceneHierarchy.parentOf_put, Function.update_of_ne hd]
  have hsame : ∀ d, d ≠ c → s.objects.put c
      { entityId, hasScene := false, entityPath := [entityId] } d = s.objects d :=
    fun d hd => SceneHierarchy.put_of_ne hd
  refine ⟨h.registry.create hfresh SceneHierarchy.sceneOf_put rfl rfl rfl rfl rfl, ?_,
    fun hfalse => ?_⟩
  · intro d q hq
    rcases eq_or_ne d c with rfl | hdc
    · simp [SceneHierarchy.parentOf_put] at hq
    · exact List.mem_cons_of_mem _ (h.parents d q (hparents d hdc ▸ hq))
  · change s.root = _
    rw [h.fresh hfalse]
    symm
    refine currentRoots_congr rfl (fun i d _ q hq => ?_) (fun i d hd => ?_)
      fun i d hd => hparents d (h.ne_of_holds hd hfresh)
    · have hqc : q ≠ c := fun heq => hfresh (heq ▸ h.parents d q hq)
      exact iff_of_eq (congrArg (fun o => Option.isSome o = true) (hsame q hqc))
    · have hdc := h.ne_of_holds hd hfresh
      exact iff_of_eq (congrArg (fun o => Option.isSome o = true) (hsame d hdc))

theorem RootCache.addChild {ok : Bool} (h : s.RootCache)
    (hs' : addChild fuel s p c = some (s', ok)) : s'.RootCache := by
  have hregistry := (h.registry.addChild hs').1
  obtain ⟨⟨objects, added⟩, hobjects, hs'⟩ := Option.map_eq_some_iff.mp hs'
  have hscene := SceneHierarchy.sceneOf_addChild hobjects
  obtain ⟨hp, hparents⟩ := SceneHierarchy.parentOf_addChild hobjects
  have hknown : ∀ d q, objects.parentOf d = some q → q ∈ s.created := fun d q hq => by
    rcases hparents with ⟨-, hlinked⟩ | ⟨-, hsame⟩
    · rw [hlinked] at hq
      rcases eq_or_ne d c with rfl | hdc
      · rw [Function.update_self] at hq
        cases hq
        exact h.registry.known _ (.inl (SceneHierarchy.isSome_sceneOf.trans hp))
      · rw [Function.update_of_ne hdc] at hq
        exact h.parents d q hq
    · exact h.parents d q (hsame ▸ hq)
  dsimp only at hs'
  split at hs'
  · cases hs'
    exact ⟨hregistry, hknown, fun hfalse => by cases hfalse⟩
  · rename_i hquiet
    cases hs'
    refine ⟨hregistry, hknown, fun hfalse => ?_⟩
    change s.root = _
    rw [h.fresh hfalse]
    symm
    refine currentRoots_of_sceneOf rfl hscene fun i d hd => ?_
    rcases hparents with ⟨rfl, hlinked⟩ | ⟨-, hsame⟩
    · -- the new child has no scene, so it is in no slot
      have hdc : d ≠ c := by
        rintro rfl
        exact hquiet ⟨rfl, .inl (owns_iff.mpr (h.registry.held i d hd).1.1)⟩
      exact (congrFun hlinked d).trans (Function.update_of_ne hdc ..)
    · exact congrFun hsame d

theorem RootCache.removeChild (h : s.RootCache) (hs' : removeChild fuel s p c = some s') :
    s'.RootCache := by
  have hshrinks := Shrinks.removeChild h.registry hs'
  obtain ⟨⟨objects₁, isSet⟩, hobjects₁, hs'⟩ := Option.bind_eq_some_iff.mp hs'
  obtain ⟨objects, hobjects, rfl⟩ := Option.map_eq_some_iff.mp hs'
  have hparents := SceneHierarchy.parentOf_removeChild hobjects hobjects₁
  by_cases htold : isSet = true ∧ s.owns c = true
  · exact h.of_shrinks hshrinks (by rw [if_pos htold]; rfl)
  · rw [if_neg htold] at hshrinks ⊢
    refine ⟨hshrinks.registry, fun d q hq => h.parents d q (hshrinks.parentOf d q hq),
      fun hfalse => ?_⟩
    change s.root = _
    rw [h.fresh hfalse]
    symm
    refine currentRoots_of_sceneOf rfl (SceneHierarchy.sceneOf_removeChild hobjects)
      fun i d hd => (congrFun hparents d).trans ?_
    cases isSet with
    | true =>
        have hdc : d ≠ c := by
          rintro rfl
          exact htold ⟨rfl, owns_iff.mpr (h.registry.held i d hd).1.1⟩
        rw [SceneHierarchy.parentOf_setParent hobjects₁, Function.update_of_ne hdc]
    | false =>
        rw [SceneHierarchy.parentOf_of_rootless (SceneHierarchy.rootless_of_setParent hobjects₁)]

theorem deleteQueue_leaveParent (hs' : leaveParent fuel s c = some s') :
    s'.deleteQueue = s.deleteQueue := by
  obtain ⟨object, -, hs'⟩ := Option.bind_eq_some_iff.mp hs'
  split at hs'
  · obtain ⟨⟨objects₁, isSet⟩, -, hs'⟩ := Option.bind_eq_some_iff.mp hs'
    obtain ⟨objects, -, rfl⟩ := Option.map_eq_some_iff.mp hs'
    split <;> rfl
  · cases hs'
    rfl

/-- The destruction of a registered object removes it from its queue or slot, and that is told. -/
theorem RootCache.destroyObject (h : s.RootCache) (hc : s.Live c)
    (hs' : destroyObject fuel s c = some s') : s'.RootCache := by
  have hshrinks := Shrinks.destroyObject h.registry hs'
  cases fuel with
  | zero => cases hs'
  | succ fuel =>
      obtain ⟨object, hobject, hs'⟩ := Option.bind_eq_some_iff.mp hs'
      split at hs'
      · cases hs'
        exact h
      refine h.of_shrinks hshrinks ?_
      have hasScene : object.hasScene = true :=
        Option.some.inj ((SceneHierarchy.sceneOf_eq hobject).symm.trans hc.1)
      obtain ⟨s₁, hs₁, hs'⟩ := Option.bind_eq_some_iff.mp hs'
      rw [if_pos hasScene] at hs'
      obtain ⟨⟨s₂, ok⟩, hs₂, hs'⟩ := Option.bind_eq_some_iff.mp hs'
      have hmarked : Registry { s with
          objects := s.objects.put c { object with isDestroyed := true } } :=
        h.registry.congr (SceneHierarchy.sceneOf_put_same hobject rfl) rfl rfl rfl rfl rfl
      have hleft := Shrinks.leaveParent hmarked hs₁
      have hlive : s₁.Live c := by
        refine ⟨?_, ?_⟩
        · rw [sceneOf_leaveParent hs₁, SceneHierarchy.sceneOf_put, Function.update_self, hasScene]
        · rw [deleteQueue_leaveParent hs₁]
          exact hc.2
      have hremoves := hleft.registry.remove hlive.1 hs₂
      have htold : s₂.isHierarchyChanged = true := hremoves.changed.resolve_right fun hdead =>
        hdead.2.2.2 hlive
      exact (Shrinks.destroyChildren (fun s c s' h hs' => .destroyObject h hs') hremoves.registry
        hs').changed htold

theorem parentOf_prepare {destroyedComponents : Bool} (h : s.Registry)
    (hs' : prepare fuel s destroyedComponents = some s') :
    (∀ d q, s'.objects.parentOf d = some q → s.objects.parentOf d = some q) ∧
      s'.created = s.created ∧
      (s'.isHierarchyChanged = false → s.newQueue = [] ∧ s.deleteQueue = []) := by
  obtain ⟨s₁, hs₁, hs'⟩ := Option.bind_eq_some_iff.mp hs'
  obtain ⟨s₂, hs₂, rfl⟩ := Option.map_eq_some_iff.mp hs'
  generalize htold : (if s.deleteQueue ≠ [] ∨ s.newQueue ≠ [] ∨ destroyedComponents = true then
    s.onChanged else s) = t at hs₁
  obtain ⟨ht, hobjects, hcreated, hchanged⟩ : t.Registry ∧ t.objects = s.objects ∧
      t.created = s.created ∧
      (t.isHierarchyChanged = true ∨ s.newQueue = [] ∧ s.deleteQueue = []) := by
    rw [← htold]
    split
    · exact ⟨h.congr rfl rfl rfl rfl rfl rfl, rfl, rfl, .inl rfl⟩
    · rename_i hquiet
      simp only [not_or, not_not] at hquiet
      exact ⟨h, rfl, rfl, .inr ⟨hquiet.2.1, hquiet.1⟩⟩
  obtain ⟨hparents₁, hcreated₁, hchanged₁⟩ :
      (∀ d q, s₁.objects.parentOf d = some q → t.objects.parentOf d = some q) ∧
        s₁.created = t.created ∧
        (t.isHierarchyChanged = true → s₁.isHierarchyChanged = true) := by
    split at hs₁
    · obtain ⟨hshrinks, -⟩ := Shrinks.destroyNewQueue ht hs₁
      exact ⟨hshrinks.parentOf, hshrinks.created, hshrinks.changed⟩
    · obtain ⟨hobjects₁, hcreated₁, hchanged₁⟩ := Steps.foldlM_invariant
        (I := fun _ t' => t'.objects = t.objects ∧ t'.created = t.created ∧
          t'.isHierarchyChanged = t.isHierarchyChanged)
        (fun c _ t₁ t₂ ht₁ ht₂ => by
          obtain ⟨hobjects, hcreated, hchanged⟩ := parentOf_placeObject ht₂
          exact ⟨hobjects.trans ht₁.1, hcreated.trans ht₁.2.1, hchanged.trans ht₁.2.2⟩)
        ⟨rfl, rfl, rfl⟩ hs₁
      exact ⟨fun _ _ hq => hobjects₁ ▸ hq, hcreated₁, hchanged₁.trans⟩
  obtain ⟨hparents₂, hcreated₂, hchanged₂⟩ := Steps.foldlM_invariant
    (I := fun _ t' =>
      (∀ d q, t'.objects.parentOf d = some q → s₁.objects.parentOf d = some q) ∧
        t'.created = s₁.created ∧ t'.isHierarchyChanged = s₁.isHierarchyChanged)
    (fun c _ t₁ t₂ ht₁ ht₂ => by
      obtain ⟨hparents, hcreated, hchanged⟩ := parentOf_destroyImpl ht₂
      exact ⟨fun d q hq => ht₁.1 d q (hparents d q hq), hcreated.trans ht₁.2.1,
        hchanged.trans ht₁.2.2⟩)
    ⟨fun _ _ hq => hq, rfl, rfl⟩ hs₂
  refine ⟨fun d q hq => hobjects ▸ hparents₁ d q (hparents₂ d q hq),
    hcreated₂.trans (hcreated₁.trans hcreated), fun hfalse => hchanged.resolve_left fun htrue => ?_⟩
  cases (hchanged₁ htrue).symm.trans (hchanged₂.symm.trans hfalse)

/-- Without anything that waits, `Prepare` changes nothing. -/
theorem prepare_of_quiet {destroyedComponents : Bool} (hnew : s.newQueue = [])
    (hdelete : s.deleteQueue = []) (hs' : prepare fuel s destroyedComponents = some s') :
    s'.objects = s.objects ∧ s'.table = s.table ∧ s'.root = s.root ∧
      (s.isHierarchyChanged = true → s'.isHierarchyChanged = true) := by
  obtain ⟨s₁, hs₁, hs'⟩ := Option.bind_eq_some_iff.mp hs'
  obtain ⟨s₂, hs₂, rfl⟩ := Option.map_eq_some_iff.mp hs'
  have hs₁ : s₁ = s ∨ s₁ = s.onChanged := by
    generalize htold : (if s.deleteQueue ≠ [] ∨ s.newQueue ≠ [] ∨ destroyedComponents = true then
      s.onChanged else s) = t at hs₁
    obtain ⟨ht, htnew⟩ : (t = s ∨ t = s.onChanged) ∧ t.newQueue = [] := by
      rw [← htold]
      split
      · exact ⟨.inr rfl, hnew⟩
      · exact ⟨.inl rfl, hnew⟩
    split at hs₁
    · cases fuel with
      | zero => cases hs₁
      | succ fuel =>
          rw [destroyNewQueue, htnew] at hs₁
          cases hs₁
          exact ht
    · rw [htnew] at hs₁
      cases hs₁
      exact ht
  have hs₂ : s₂ = { s₁ with newQueue := [], deleteQueue := [] } := by
    have hnil : s₁.deleteQueue = [] := by
      rcases hs₁ with rfl | rfl
      · exact hdelete
      · exact hdelete
    rw [hnil] at hs₂
    cases hs₂
    rfl
  subst hs₂
  rcases hs₁ with rfl | rfl
  · exact ⟨rfl, rfl, rfl, id⟩
  · exact ⟨rfl, rfl, rfl, fun _ => rfl⟩

/-- Where something waits, `Prepare` tells. -/
theorem RootCache.prepare {destroyedComponents : Bool} (h : s.RootCache)
    (hs' : prepare fuel s destroyedComponents = some s') : s'.RootCache := by
  obtain ⟨hparents, hcreated, hquiet⟩ := parentOf_prepare h.registry hs'
  refine ⟨(h.registry.prepare hs').1, fun c q hq => hcreated ▸ h.parents c q (hparents c q hq),
    fun hfalse => ?_⟩
  obtain ⟨hnew, hdelete⟩ := hquiet hfalse
  obtain ⟨hobjects, htable, hroot, hchanged⟩ := prepare_of_quiet hnew hdelete hs'
  have hfresh : s.isHierarchyChanged = false := by
    rw [← Bool.not_eq_true]
    exact fun htrue => by cases (hchanged htrue).symm.trans hfalse
  rw [hroot, h.fresh hfresh]
  exact (currentRoots_of_sceneOf htable (by rw [hobjects]) fun _ _ _ => by rw [hobjects]).symm

theorem RootCache.destroy (h : s.RootCache) (hs' : destroy fuel s = some s') : s'.RootCache := by
  have hregistry := (h.registry.destroy hs').1
  rw [Scene.destroy] at hs'
  split at hs'
  · cases hs'
    exact h
  obtain ⟨s₁, hs₁, hs'⟩ := Option.bind_eq_some_iff.mp hs'
  obtain ⟨s₂, hs₂, rfl⟩ := Option.map_eq_some_iff.mp hs'
  have hstart : RootCache { s with isPreDestroyed := true }.getRootSceneObjects.2 :=
    RootCache.getRootSceneObjects
      ⟨h.registry.congr rfl rfl rfl rfl rfl rfl, h.parents, h.fresh⟩
  have hshrinks := Shrinks.foldlM (fun s c s' h hs' => .destroyObject h hs') hstart.registry hs₁
  obtain ⟨hparents, hcreated, -⟩ := parentOf_prepare hshrinks.registry hs₂
  refine ⟨hregistry, fun c q hq => ?_, fun hfalse => by cases hfalse⟩
  have hmem := hstart.parents c q (hshrinks.parentOf c q (hparents c q hq))
  exact (hcreated.trans hshrinks.created).symm ▸ hmem

theorem RootCache.step {call : ℕ × SceneCall ι ε} {r : Scene ι ε × List ι} (h : s.RootCache)
    (hcall : s.Tells call) (hr : step s call = some r) : r.1.RootCache := by
  obtain ⟨fuel, call⟩ := call
  cases call with
  | create self entityId =>
      obtain ⟨t, ht, rfl⟩ := Option.map_eq_some_iff.mp hr
      exact h.create ht
  | addChild self pChild =>
      obtain ⟨⟨t, ok⟩, ht, rfl⟩ := Option.map_eq_some_iff.mp hr
      exact h.addChild ht
  | removeChild self pChild =>
      obtain ⟨t, ht, rfl⟩ := Option.map_eq_some_iff.mp hr
      exact h.removeChild ht
  | registerSceneObject ptr =>
      obtain ⟨t, ht, rfl⟩ := Option.map_eq_some_iff.mp hr
      exact h.registerSceneObject ht
  | remove gameObject =>
      obtain ⟨⟨t, ok⟩, ht, rfl⟩ := Option.map_eq_some_iff.mp hr
      exact h.remove (owns_iff.mp hcall) ht
  | destroyObject self =>
      obtain ⟨t, ht, rfl⟩ := Option.map_eq_some_iff.mp hr
      exact h.destroyObject hcall ht
  | prepare destroyedComponents =>
      obtain ⟨t, ht, rfl⟩ := Option.map_eq_some_iff.mp hr
      exact h.prepare ht
  | getRootSceneObjects =>
      cases hr
      exact h.getRootSceneObjects
  | destroy =>
      obtain ⟨t, ht, rfl⟩ := Option.map_eq_some_iff.mp hr
      exact h.destroy ht

end

/-- The roots are asked for before and after a child loses its parent, and once more after the
parent has been removed. -/
def detachedAndRemoved : List (ℕ × SceneCall ℕ ℕ) :=
  [(9, .create 0 10), (9, .create 1 11), (9, .addChild 0 1), (9, .registerSceneObject 0),
    (9, .prepare false), (9, .getRootSceneObjects), (9, .removeChild 0 1),
    (9, .getRootSceneObjects), (9, .remove 0), (9, .getRootSceneObjects)]

example : ((Steps.run step (empty : Scene ℕ ℕ) detachedAndRemoved).map fun r => r.2.drop 5) =
    some [[0], [], [0, 1], [], [1]] := by
  decide

end Scene

end SRCommon
