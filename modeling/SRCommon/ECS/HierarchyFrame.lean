import SRCommon.ECS.HierarchyLinks

/-!
# What the links leave alone

The operations on the links never change whether an object exists and has a
scene. The parents they change are known even where a parent has been freed.
-/

namespace SRCommon

namespace SceneHierarchy

variable {ι ε : Type}

/-- Whether an object has a scene; `none` for objects that are not there. -/
def sceneOf (s : SceneHierarchy ι ε) (i : ι) : Option Bool := (s i).map SceneObject.hasScene

theorem sceneOf_eq {s : SceneHierarchy ι ε} {i : ι} {o : SceneObject ι ε} (hi : s i = some o) :
    s.sceneOf i = some o.hasScene := by
  rw [sceneOf, hi]
  rfl

theorem isSome_of_sceneOf {s : SceneHierarchy ι ε} {i : ι} {b : Bool} (h : s.sceneOf i = some b) :
    (s i).isSome := by
  obtain ⟨o, ho, -⟩ := Option.map_eq_some_iff.mp h
  rw [ho]
  rfl

theorem isSome_sceneOf {s : SceneHierarchy ι ε} {i : ι} :
    (s.sceneOf i).isSome = (s i).isSome := Option.isSome_map

theorem sceneOf_of_rootless {s s' : SceneHierarchy ι ε} (h : s'.rootless = s.rootless) :
    s'.sceneOf = s.sceneOf := by
  have hrootless : ∀ t : SceneHierarchy ι ε, t.rootless.sceneOf = t.sceneOf := fun t => by
    funext i
    rw [sceneOf, rootless, sceneOf]
    cases t i <;> rfl
  rw [← hrootless s', h, hrootless]

section

variable [DecidableEq ι] {s s' : SceneHierarchy ι ε} {i : ι} {o o' : SceneObject ι ε}

theorem sceneOf_put : (s.put i o).sceneOf = Function.update s.sceneOf i (some o.hasScene) := by
  funext j
  rcases eq_or_ne j i with rfl | hj
  · rw [sceneOf, put_self, Function.update_self]
    rfl
  · rw [sceneOf, put_of_ne hj, Function.update_of_ne hj, sceneOf]

theorem sceneOf_put_same (hi : s i = some o) (h : o'.hasScene = o.hasScene) :
    (s.put i o').sceneOf = s.sceneOf := by
  rw [sceneOf_put, Function.update_eq_self_iff, h, sceneOf_eq hi]

theorem sceneOf_free : (s.free i).sceneOf = Function.update s.sceneOf i none := by
  funext j
  rcases eq_or_ne j i with rfl | hj
  · rw [sceneOf, free_self, Function.update_self]
    rfl
  · rw [sceneOf, free_of_ne hj, Function.update_of_ne hj, sceneOf]

theorem parentOf_free : (s.free i).parentOf = Function.update s.parentOf i none := by
  funext j
  rcases eq_or_ne j i with rfl | hj
  · rw [parentOf, free_self, Function.update_self]
    rfl
  · rw [parentOf, free_of_ne hj, Function.update_of_ne hj, parentOf]

variable [DecidableEq ε] {fuel : ℕ} {c p : ι} {np : Option ι} {ok : Bool}

theorem sceneOf_setParent (h : setParent fuel s c np = some (s', ok)) : s'.sceneOf = s.sceneOf := by
  obtain ⟨o, ho, ⟨-, rfl, -⟩ | ⟨-, s₁, o₁, hs₁, ho₁, ⟨path, -, rfl, -⟩ | ⟨-, hs', -⟩⟩⟩ :=
    setParent_cases h
  · rfl
  · have hmoved := sceneOf_of_rootless (rootless_updateRoot hs₁)
    exact Eq.trans (sceneOf_put_same ho₁ rfl) (Eq.trans hmoved (sceneOf_put_same ho rfl))
  · have hmoved := sceneOf_of_rootless (rootless_updateRoot hs₁)
    rw [sceneOf_of_rootless (rootless_updateRoot hs')]
    exact Eq.trans (sceneOf_put_same ho₁ rfl) (Eq.trans hmoved (sceneOf_put_same ho rfl))

theorem parentOf_setParent (h : setParent fuel s c np = some (s', true)) :
    s'.parentOf = Function.update s.parentOf c np := by
  obtain ⟨o, ho, ⟨-, -, hok⟩ | ⟨-, s₁, o₁, hs₁, ho₁, ⟨path, -, rfl, -⟩ | ⟨-, -, hok⟩⟩⟩ :=
    setParent_cases h
  · cases hok
  · have hmoved := parentOf_of_rootless (rootless_updateRoot hs₁)
    exact Eq.trans (parentOf_put_same ho₁ rfl) (Eq.trans hmoved parentOf_put)
  · cases hok

theorem sceneOf_removeChild (h : removeChild fuel s p c = some s') : s'.sceneOf = s.sceneOf := by
  obtain ⟨s₁, ok, o, hs₁, ho, rfl⟩ := removeChild_eq h
  exact Eq.trans (sceneOf_put_same ho rfl) (sceneOf_setParent hs₁)

/-- What `SetParent` says, `RemoveChild` does. -/
theorem parentOf_removeChild {s₁ : SceneHierarchy ι ε} (h : removeChild fuel s p c = some s')
    (hset : setParent fuel s c none = some (s₁, ok)) : s'.parentOf = s₁.parentOf := by
  obtain ⟨s₂, ok₂, o, hs₂, ho, rfl⟩ := removeChild_eq h
  cases hs₂.symm.trans hset
  exact parentOf_put_children ho _

theorem sceneOf_addChild (h : addChild fuel s p c = some (s', ok)) : s'.sceneOf = s.sceneOf := by
  obtain ⟨-, ⟨-, rfl, -⟩ | ⟨-, s₁, hs₁, ⟨-, rfl⟩ | ⟨-, o, ho, rfl⟩⟩⟩ := addChild_cases h
  · rfl
  · exact sceneOf_setParent hs₁
  · exact Eq.trans (sceneOf_put_same ho rfl) (sceneOf_setParent hs₁)

theorem parentOf_addChild (h : addChild fuel s p c = some (s', ok)) :
    (s p).isSome ∧
      (ok = true ∧ s'.parentOf = Function.update s.parentOf c (some p) ∨
        ok = false ∧ s'.parentOf = s.parentOf) := by
  obtain ⟨hp, ⟨-, rfl, hok⟩ | ⟨-, s₁, hs₁, ⟨rfl, rfl⟩ | ⟨rfl, o, ho, rfl⟩⟩⟩ := addChild_cases h
  · exact ⟨hp, .inr ⟨hok, rfl⟩⟩
  · exact ⟨hp, .inr ⟨rfl, parentOf_of_rootless (rootless_of_setParent hs₁)⟩⟩
  · exact ⟨hp, .inl ⟨rfl, (parentOf_put_children ho _).trans (parentOf_setParent hs₁)⟩⟩

end

end SceneHierarchy

end SRCommon
