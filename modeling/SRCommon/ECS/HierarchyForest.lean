import SRCommon.ECS.HierarchyLinks

/-!
# The hierarchy is a forest

Parents and children lists agree as long as `RemoveChild` is called on the
parent of the child: it cuts the child off whatever parent it has, and looks
into its own list only.
-/

namespace SRCommon

namespace SceneHierarchy

variable {ι ε : Type}

/-- A child is in the list of its parent, once, and in no other list. -/
def Forest (s : SceneHierarchy ι ε) : Prop := ParentForest.IsForest s.parentOf s.childrenOf

/-- `RemoveChild` is called on the parent, or the child has none. -/
def RemovesOwn (s : SceneHierarchy ι ε) : ℕ × SceneObjectCall ι ε → Prop
  | (_, .removeChild self pChild) => s.parentOf pChild = some self ∨ s.parentOf pChild = none
  | _ => True

theorem Forest.parentsLive {s : SceneHierarchy ι ε} (h : s.Forest) : s.ParentsLive :=
  fun i p hp => isSome_of_mem_childrenOf ((h.mem_children i p).mpr hp)

theorem forest_empty : (empty : SceneHierarchy ι ε).Forest where
  mem_children c p := by
    constructor <;> intro h <;> cases h
  nodup p := List.nodup_nil
  rooted i := .top rfl

section

variable {s s' : SceneHierarchy ι ε} {p : ι}

theorem Forest.parent_ne {c : ι} (h : s.Forest) (hc : s.parentOf c = some p) : p ≠ c := by
  obtain ⟨l, hl⟩ := h.rooted c
  exact fun heq => hl.parent_ne hl.mem_self (heq ▸ hc)

/-- What changes neither parents nor children keeps the forest. -/
theorem Forest.congr (h : s.Forest) (hparent : s'.parentOf = s.parentOf)
    (hchildren : s'.childrenOf = s.childrenOf) : s'.Forest := by
  rw [Forest, hparent, hchildren]
  exact h

theorem Forest.of_rootless (h : s.Forest) (heq : s'.rootless = s.rootless) : s'.Forest :=
  h.congr (parentOf_of_rootless heq) (childrenOf_of_rootless heq)

/-- The hierarchy as it is seen from outside. -/
structure Consistent (s : SceneHierarchy ι ε) : Prop where
  mem_children : ∀ c p, c ∈ s.childrenOf p ↔ s.parentOf c = some p
  nodup : ∀ p, (s.childrenOf p).Nodup
  not_own_ancestor : ∀ i, ¬ Relation.TransGen (fun a b => s.parentOf a = some b) i i

theorem Forest.consistent (h : s.Forest) : s.Consistent where
  mem_children := h.mem_children
  nodup := h.nodup
  not_own_ancestor := ParentForest.IsForest.not_own_ancestor h

/-- No object gets a parent. -/
def Loosens (s s' : SceneHierarchy ι ε) : Prop := ∀ i, s.parentOf i = none → s'.parentOf i = none

theorem Loosens.trans {s'' : SceneHierarchy ι ε} (h : s.Loosens s') (h' : s'.Loosens s'') :
    s.Loosens s'' := fun i hi => h' i (h i hi)

/-- Where the loop of `RemoveAllChildren` is when `rest` is ahead. -/
structure CutsAll (s : SceneHierarchy ι ε) (p : ι) (rest : List ι) (t : SceneHierarchy ι ε) :
    Prop where
  childrenOf : t.childrenOf = s.childrenOf
  ahead : ∀ j ∈ rest, s.parentOf j = some p
  kept : ∀ j, s.parentOf j ≠ some p → t.parentOf j = s.parentOf j
  cut : ∀ j, s.parentOf j = some p → t.parentOf j = none ∨ j ∈ rest ∧ t.parentOf j = some p

theorem CutsAll.parentsLive {rest : List ι} {t : SceneHierarchy ι ε} (hs : s.Forest)
    (h : CutsAll s p rest t) : t.ParentsLive := fun j q hq => by
  apply isSome_of_mem_childrenOf (c := j)
  rw [h.childrenOf, hs.mem_children]
  by_cases hj : s.parentOf j = some p
  · rcases h.cut j hj with hnone | ⟨-, hsame⟩
    · cases hnone.symm.trans hq
    · exact hj.trans (hsame.symm.trans hq)
  · exact (h.kept j hj).symm.trans hq

end

section

variable [DecidableEq ι] {s s' : SceneHierarchy ι ε} {fuel : ℕ} {c p : ι}

theorem Loosens.of_update (h : s'.parentOf = Function.update s.parentOf c none) :
    s.Loosens s' := fun i hi => by
  rw [h]
  rcases eq_or_ne i c with rfl | hne
  · exact Function.update_self ..
  · rwa [Function.update_of_ne hne]

/-- An object without links is freed. -/
theorem Forest.free (hs : s.Forest) (hparent : s.parentOf c = none)
    (hchildren : s.childrenOf c = []) :
    (s.free c).Forest ∧ (s.free c).parentOf = s.parentOf := by
  have hparents : (s.free c).parentOf = s.parentOf := by
    funext j
    rcases eq_or_ne j c with rfl | hj
    · rw [hparent, parentOf, free_self]
      rfl
    · rw [parentOf, free_of_ne hj, parentOf]
  refine ⟨hs.congr hparents ?_, hparents⟩
  funext j
  rcases eq_or_ne j c with rfl | hj
  · rw [hchildren, childrenOf, free_self]
    rfl
  · rw [childrenOf, free_of_ne hj, childrenOf]

theorem Forest.attached (hs : s.Forest) (h : Attached s p c s') : s'.Forest := by
  obtain ⟨-, hvalid, -⟩ := attaches_iff.mp h.attaches
  rw [valid_parentOf hs.parentsLive] at hvalid
  have hrooted := h.rooted
  rw [h.parentOf] at hrooted
  rw [Forest, h.parentOf, h.childrenOf]
  exact ParentForest.IsForest.link hs hvalid hrooted

/-- What `Destroy` of a child is relied on for. -/
def DestroysIn (destroyChild : SceneHierarchy ι ε → ι → Option (SceneHierarchy ι ε)) : Prop :=
  ∀ s c s', s.Forest → destroyChild s c = some s' → s'.Forest ∧ s.Loosens s'

theorem Forest.destroyChildren
    {destroyChild : SceneHierarchy ι ε → ι → Option (SceneHierarchy ι ε)}
    (hdestroy : DestroysIn destroyChild) (hs : s.Forest)
    (h : destroyChildren destroyChild fuel s p = some s') :
    s'.Forest ∧ s.Loosens s' ∧ s'.childrenOf p = [] := by
  induction fuel generalizing s with
  | zero => cases h
  | succ fuel ih =>
      obtain ⟨o, ho, h⟩ := Option.bind_eq_some_iff.mp h
      split at h
      · rename_i hnil
        cases h
        exact ⟨hs, fun i hi => hi, (childrenOf_eq ho).trans hnil⟩
      rename_i c rest hcons
      have hmem : c ∈ s.childrenOf p := by
        rw [childrenOf_eq ho, hcons]
        exact List.mem_cons_self
      -- a child has a parent, so it is not freed
      have hsome : (s c).isSome := isSome_of_parentOf ((hs.mem_children c p).mp hmem)
      rw [hsome, Bool.true_or, if_pos rfl] at h
      obtain ⟨s₁, hs₁, h⟩ := Option.bind_eq_some_iff.mp h
      obtain ⟨hforest, hloosens⟩ := hdestroy s c s₁ hs hs₁
      obtain ⟨hforest', hloosens', hnil⟩ := ih hforest h
      exact ⟨hforest', hloosens.trans hloosens', hnil⟩

end

section

variable [DecidableEq ι] [DecidableEq ε] {s s' : SceneHierarchy ι ε} {fuel : ℕ} {c p : ι}

theorem Forest.removeChild (hs : s.Forest) (hc : s.parentOf c = some p ∨ s.parentOf c = none)
    (h : removeChild fuel s p c = some s') :
    s'.Forest ∧ s'.parentOf = Function.update s.parentOf c none := by
  obtain ⟨s₁, ok, o, hs₁, ho, rfl⟩ := removeChild_eq h
  obtain ⟨hparents, hchildren⟩ := links_of_setParent_none hs.parentsLive hs₁
  have hparents' := (parentOf_put_children ho (o.children.erase c)).trans hparents
  refine ⟨?_, hparents'⟩
  have hlist : o.children = s.childrenOf p := by rw [← hchildren, childrenOf_eq ho]
  rw [Forest, hparents', childrenOf_put, hchildren, hlist]
  rcases hc with hc | hc
  · exact ParentForest.IsForest.cut hs hc
  · have habsent : c ∉ s.childrenOf p := fun hmem => by
      cases hc.symm.trans ((hs.mem_children c p).mp hmem)
    rw [List.erase_of_not_mem habsent, Function.update_eq_self_iff.mpr hc.symm,
      Function.update_eq_self]
    exact hs

theorem Forest.leaveParent (hs : s.Forest) (h : leaveParent fuel s c = some s') :
    s'.Forest ∧ s'.parentOf = Function.update s.parentOf c none := by
  rcases leaveParent_cases hs.parentsLive h with ⟨hc, rfl⟩ | ⟨p, hp, h⟩
  · exact ⟨hs, (Function.update_eq_self_iff.mpr hc.symm).symm⟩
  · exact hs.removeChild (.inl hp) h

theorem Forest.addChild {ok : Bool} (hs : s.Forest) (h : addChild fuel s p c = some (s', ok)) :
    s'.Forest := by
  rcases addChild_links hs.parentsLive h with ⟨-, hsame⟩ | ⟨-, hattached⟩
  · exact hs.of_rootless hsame
  · exact hs.attached hattached

theorem Forest.moveToTree {ok : Bool} {destination : Option ι} (hs : s.Forest)
    (h : moveToTree fuel s c destination = some (s', ok)) : s'.Forest := by
  obtain ⟨s₁, hs₁, ⟨-, rfl⟩ | ⟨p, -, hadd⟩⟩ := moveToTree_cases h
  · exact (hs.leaveParent hs₁).1
  · exact (hs.leaveParent hs₁).1.addChild hadd

theorem CutsAll.step {rest : List ι} {t t' : SceneHierarchy ι ε} (hs : s.Forest)
    (h : CutsAll s p (c :: rest) t)
    (hcut : (setParent fuel t c none).map Prod.fst = some t') : CutsAll s p rest t' := by
  obtain ⟨⟨t', ok⟩, hset, rfl⟩ := Option.map_eq_some_iff.mp hcut
  obtain ⟨hparents, hchildren⟩ := links_of_setParent_none (h.parentsLive hs) hset
  refine ⟨hchildren.trans h.childrenOf, fun j hj => h.ahead j (List.mem_cons_of_mem _ hj),
    fun j hj => ?_, fun j hj => ?_⟩
  · have hne : j ≠ c := fun heq => hj (heq ▸ h.ahead c List.mem_cons_self)
    rw [hparents, Function.update_of_ne hne, h.kept j hj]
  · rw [hparents]
    rcases eq_or_ne j c with rfl | hne
    · exact .inl (Function.update_self ..)
    · rw [Function.update_of_ne hne]
      refine (h.cut j hj).imp_right fun hmem => ⟨?_, hmem.2⟩
      exact (List.mem_cons.mp hmem.1).resolve_left hne

theorem Forest.removeAllChildren (hs : s.Forest) (h : removeAllChildren fuel s p = some s') :
    s'.Forest := by
  obtain ⟨o, ho, h⟩ := Option.bind_eq_some_iff.mp h
  obtain ⟨t, ht, h⟩ := Option.bind_eq_some_iff.mp h
  obtain ⟨o', ho', rfl⟩ := Option.map_eq_some_iff.mp h
  have hstart : CutsAll s p o.children s := by
    refine ⟨rfl, fun j hj => ?_, fun j _ => rfl, fun j hj => .inr ⟨?_, hj⟩⟩
    · rwa [← childrenOf_eq ho, hs.mem_children] at hj
    · rwa [← childrenOf_eq ho, hs.mem_children]
  have hend := Steps.foldlM_invariant (fun c rest t t' h hcut => h.step hs hcut) hstart ht
  rw [Forest, parentOf_put_children ho', childrenOf_put, hend.childrenOf]
  refine ParentForest.IsForest.cutAll hs fun j => ?_
  split
  · rename_i hj
    exact (hend.cut j hj).resolve_right (by simp)
  · rename_i hj
    exact hend.kept j hj

theorem Forest.destroy : DestroysIn (destroy (ι := ι) (ε := ε) fuel) := by
  induction fuel with
  | zero =>
      intro s c s' _ h
      cases h
  | succ fuel ih =>
      intro s c s' hs h
      obtain ⟨o, ho, h⟩ := Option.bind_eq_some_iff.mp h
      split at h
      · cases h
        exact ⟨hs, fun i hi => hi⟩
      obtain ⟨s₁, hs₁, h⟩ := Option.bind_eq_some_iff.mp h
      obtain ⟨s₂, hs₂, rfl⟩ := Option.map_eq_some_iff.mp h
      have hparents := parentOf_put_same (s := s) (i := c) ho
        (rfl : ({ o with isDestroyed := true } : SceneObject ι ε).parent = o.parent)
      have hmarked := hs.congr hparents (childrenOf_put_same ho rfl)
      obtain ⟨hforest₁, hparents₁⟩ := hmarked.leaveParent hs₁
      rw [hparents] at hparents₁
      obtain ⟨hforest₂, hloosens, hnil⟩ := hforest₁.destroyChildren ih hs₂
      have hloosens' : s.Loosens s₂ := (Loosens.of_update hparents₁).trans hloosens
      split
      · exact ⟨hforest₂, hloosens'⟩
      · have hnone : s₂.parentOf c = none :=
          hloosens c (by rw [hparents₁, Function.update_self])
        obtain ⟨hforest, hsame⟩ := hforest₂.free hnone hnil
        exact ⟨hforest, fun i hi => hsame ▸ hloosens' i hi⟩

theorem Forest.create {entityId : ε} {hasScene : Bool} (hs : s.Forest)
    (h : create fuel s c entityId hasScene = some s') : s'.Forest := by
  obtain ⟨hc, rfl⟩ := create_eq h
  exact hs.congr (parentOf_put_new hc rfl) (childrenOf_put_new hc rfl)

theorem Forest.step {r : SceneHierarchy ι ε × Option Bool} {call : ℕ × SceneObjectCall ι ε}
    (hs : s.Forest) (hcall : s.RemovesOwn call) (h : s.step call = some r) : r.1.Forest := by
  obtain ⟨fuel, call⟩ := call
  cases call with
  | create self entityId hasScene =>
      obtain ⟨t, ht, rfl⟩ := Option.map_eq_some_iff.mp h
      exact hs.create ht
  | addChild self pChild =>
      obtain ⟨t, ht, rfl⟩ := Option.map_eq_some_iff.mp h
      exact hs.addChild ht
  | removeChild self pChild =>
      obtain ⟨t, ht, rfl⟩ := Option.map_eq_some_iff.mp h
      exact (hs.removeChild hcall ht).1
  | moveToTree self destination =>
      obtain ⟨t, ht, rfl⟩ := Option.map_eq_some_iff.mp h
      exact hs.moveToTree ht
  | removeAllChildren self =>
      obtain ⟨t, ht, rfl⟩ := Option.map_eq_some_iff.mp h
      exact hs.removeAllChildren ht
  | destroy self =>
      obtain ⟨t, ht, rfl⟩ := Option.map_eq_some_iff.mp h
      exact (Forest.destroy s self t hs ht).1

/-- In a run that removes children from their own parents only, every state is a forest. -/
theorem consistent_of_removesOwn {calls : List (ℕ × SceneObjectCall ι ε)}
    (h : Steps.Along step RemovesOwn empty calls) :
    Steps.Throughout step (fun _ _ (s : SceneHierarchy ι ε) => s.Consistent) empty calls :=
  h.throughout (fun _ _ _ hs hcall hr => ⟨(hs.step hcall hr).consistent, hs.step hcall hr⟩)
    forest_empty

end

/-- Three objects, one of them put below another, then taken from the third. -/
def assembled : List (ℕ × SceneObjectCall ℕ ℕ) :=
  [(9, .create 0 10 false), (9, .create 1 11 false), (9, .create 2 12 false), (9, .addChild 0 1)]

theorem consistent_of_removesOwn_sample :
    Steps.Along step RemovesOwn empty (assembled ++ [(9, .removeChild 0 1), (9, .destroy 0)]) ∧
      Steps.Throughout step (fun _ _ (s : SceneHierarchy ℕ ℕ) => s.Consistent) empty
        (assembled ++ [(9, .removeChild 0 1), (9, .destroy 0)]) := by
  have h : Steps.Along step RemovesOwn (empty : SceneHierarchy ℕ ℕ)
      (assembled ++ [(9, .removeChild 0 1), (9, .destroy 0)]) := by
    refine ⟨trivial, fun r₁ h₁ => ⟨trivial, fun r₂ h₂ => ⟨trivial, fun r₃ h₃ => ⟨trivial,
      fun r₄ h₄ => ⟨?_, fun r₅ h₅ => ⟨trivial, fun r₆ h₆ => trivial⟩⟩⟩⟩⟩⟩
    cases h₁
    cases h₂
    cases h₃
    cases h₄
    exact .inl rfl
  exact ⟨h, consistent_of_removesOwn h⟩

/-- The child is in the list of an object that is not its parent. -/
theorem not_consistent_of_removeChild :
    ¬ ∀ calls, Steps.Throughout step (fun _ _ (s : SceneHierarchy ℕ ℕ) => s.Consistent) empty
      calls := by
  intro h
  have hrun : ∃ r r', Steps.run step empty assembled = some r ∧
      step r.1 (9, .removeChild 2 1) = some r' ∧ 1 ∈ r'.1.childrenOf 0 ∧
        r'.1.parentOf 1 = none := ⟨_, _, rfl, rfl, by decide, rfl⟩
  obtain ⟨r, r', hr, hr', hmem, hparent⟩ := hrun
  have hlast := (h (assembled ++ [(9, .removeChild 2 1)])).last hr hr'
  cases hparent.symm.trans ((hlast.mem_children 1 0).mp hmem)

end SceneHierarchy

end SRCommon
