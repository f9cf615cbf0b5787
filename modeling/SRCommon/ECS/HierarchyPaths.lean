import SRCommon.ECS.HierarchyForest
import SRCommon.ECS.HierarchyRoots

/-!
# Entity paths of the hierarchy

`SetParent` computes the path of the object that it is called on, and of no
other. The paths are exact as long as the objects whose parent changes have
nothing below them, unless they are moved to the parent that they have.
-/

namespace SRCommon

namespace SceneHierarchy

variable {ι ε : Type}

section

variable {s s' : SceneHierarchy ι ε} {T : ι → Bool} {c p i : ι}

def Topmost (s : SceneHierarchy ι ε) (i t : ι) : Prop :=
  ∃ l, ParentForest.Lineage s.parentOf i l ∧ l.getLast? = some t

/-- `GetRoot` is the topmost ancestor. -/
def RootExact (s : SceneHierarchy ι ε) (i : ι) : Prop := ∃ t, s.Topmost i t ∧ s.rootOf i = some t

/-- The entity path is the list of ids from the topmost ancestor down. -/
def PathExact (s : SceneHierarchy ι ε) (i : ι) : Prop :=
  ∃ l path, ParentForest.Lineage s.parentOf i l ∧ s.pathOf i = some path ∧
    path.map some = (l.map s.idOf).reverse

def PathsKnown (s : SceneHierarchy ι ε) : Prop := ∀ i, (s i).isSome → s.Traced i

def Childless (s : SceneHierarchy ι ε) (c : ι) : Prop := ∀ d, s.parentOf d ≠ some c

/-- `p` or an object above it has the id of `c`, as when `p` is below `c`. -/
def Clashes (s : SceneHierarchy ι ε) (p c : ι) : Prop :=
  ∃ l, ParentForest.Lineage s.parentOf p l ∧ ∃ a ∈ l, s.idOf a = s.idOf c

theorem Traced.congr (h : s.Traced i) (hparents : s'.parentOf = s.parentOf)
    (hpath : s'.pathOf i = s.pathOf i) (hids : s'.idOf = s.idOf) : s'.Traced i := by
  rw [Traced, hparents, hpath, hids]
  exact h

theorem PathsKnown.of_rootless (h : s.PathsKnown) (heq : s'.rootless = s.rootless) :
    s'.PathsKnown := fun i hi => by
  rw [isSome_of_rootless heq] at hi
  exact (h i hi).congr (parentOf_of_rootless heq) (congrFun (pathOf_of_rootless heq) i)
    (idOf_of_rootless heq)

theorem Traced.pathExact {i : ι} (h : s.Traced i) : s.PathExact i := by
  obtain ⟨l, path, hl, hpath, heq, -⟩ := h
  exact ⟨l, path, hl, hpath, heq⟩

/-- The root is exact below the objects that came to `SetParent`. -/
theorem RootsKnown.rootExact_iff (h : s.RootsKnown T fun _ => False) (i : ι) :
    s.RootExact i ↔ ∃ t, s.Topmost i t ∧ T t = true := by
  obtain ⟨l, hl⟩ := h.rooted i
  have hroot := rootOf_lineage hl (fun j _ => h.follows j) i hl.mem_self
  constructor
  · rintro ⟨t, ⟨l', hl', hlast⟩, ht⟩
    cases hl.unique hl'
    rw [hroot, hlast, Option.filter_eq_some_iff] at ht
    exact ⟨t, ⟨l, hl, hlast⟩, ht.2⟩
  · rintro ⟨t, ⟨l', hl', hlast⟩, ht⟩
    cases hl.unique hl'
    refine ⟨t, ⟨l, hl, hlast⟩, ?_⟩
    rw [hroot, hlast, Option.filter_some, if_pos ht]

end

section

variable [DecidableEq ι]

/-- `AddChild` of `p` does not take `c`. -/
def Refuses (s : SceneHierarchy ι ε) (p c : ι) : Prop := s.attaches p c = false ∨ s.Clashes p c

/-- A call of `create`, `AddChild`, `RemoveChild` or `MoveToTree` under which no object with
something below it gets another parent. -/
def MovesLeaves (s : SceneHierarchy ι ε) : SceneObjectCall ι ε → Prop
  | .create .. => True
  | .addChild self pChild => s.Childless pChild ∨ s.Refuses self pChild
  | .removeChild _ pChild => s.Childless pChild ∨ s.parentOf pChild = none
  | .moveToTree self destination =>
      s.Childless self ∨ s.valid destination = s.parentOf self ∨
        s.parentOf self = none ∧ ∀ p, s.valid destination = some p → s.Refuses p self
  | _ => False

variable {s s' : SceneHierarchy ι ε} {T : ι → Bool} {c p : ι} {np : Option ι} {o : SceneObject ι ε}
  {fuel : ℕ}

theorem PathsKnown.put_children (hs : s.PathsKnown) (ho : s p = some o) (children : List ι) :
    (s.put p { o with children := children }).PathsKnown := fun i hi => by
  have hsome : (s i).isSome := by
    rcases isSome_put_iff.mp hi with rfl | hi
    · rw [ho]
      rfl
    · exact hi
  refine (hs i hsome).congr (parentOf_put_children ho children) ?_ (idOf_put_same ho rfl)
  rcases eq_or_ne i p with rfl | hne
  · rw [pathOf, put_self, pathOf, ho]
    rfl
  · exact pathOf_put_of_ne hne

/-- Only what is below an object has it among the ancestors. -/
theorem PathsKnown.of_linked (hs : s.PathsKnown) (hc : s.Childless c)
    (hlinked : Linked s c np s') : s'.PathsKnown := fun i hi => by
  rcases eq_or_ne i c with rfl | hne
  · exact hlinked.traced
  obtain ⟨l, path, hl, hpath, heq, hids⟩ := hs i (by rwa [← hlinked.isSome])
  refine ⟨l, path, hl.congr fun j hj => ?_, (hlinked.pathOf i hne).trans hpath, ?_, ?_⟩
  · rw [hlinked.parentOf]
    refine Function.update_of_ne (fun heq => ?_) ..
    rcases hl.eq_or_child (heq ▸ hj) with rfl | ⟨d, hd⟩
    · exact hne rfl
    · exact hc d hd
  · rw [hlinked.idOf]
    exact heq
  · rw [hlinked.idOf]
    exact hids

theorem not_clashes_of_linked (hlinked : Linked s c (some p) s') : ¬ s.Clashes p c := by
  rintro ⟨l, hl, a, ha, hid⟩
  obtain ⟨l', -, hl', -, -, hids⟩ := hlinked.traced
  rw [hlinked.idOf] at hids
  have hparent : s'.parentOf c = some p := by rw [hlinked.parentOf, Function.update_self]
  cases hl' with
  | top hnone => cases hnone.symm.trans hparent
  | step hsome htail =>
      cases hsome.symm.trans hparent
      have hback : ParentForest.Lineage s.parentOf p _ := htail.congr fun j hj => by
        rw [hlinked.parentOf, Function.update_of_ne fun heq => hids j hj (congrArg s.idOf heq)]
      exact hids a (hl.unique hback ▸ ha) hid

/-- What `RemoveChild` of the parent leaves. -/
structure Detached (s : SceneHierarchy ι ε) (p c : ι) (s' : SceneHierarchy ι ε) : Prop where
  parentOf : s'.parentOf = Function.update s.parentOf c none
  childrenOf : s'.childrenOf p = (s.childrenOf p).erase c
  idOf : s'.idOf = s.idOf
  pathOf : ∀ i, i ≠ c → s'.pathOf i = s.pathOf i
  isSome : (s' p).isSome

/-- The parent takes back a child that it has just lost. -/
theorem Detached.not_refuses (h : Detached s p c s') (hc : s.parentOf c = some p)
    (htraced : s.Traced c) (hnodup : (s.childrenOf p).Nodup) :
    s'.attaches p c = true ∧ ∃ l, ParentForest.Lineage s'.parentOf p l ∧ ¬ s'.Clashes p c := by
  obtain ⟨l, -, hl, -, -, hids⟩ := htraced
  have hne : c ≠ p := fun heq => hl.parent_ne hl.mem_self (heq ▸ hc)
  cases hl with
  | top hnone => cases hnone.symm.trans hc
  | step hsome htail =>
      cases hsome.symm.trans hc
      have hsame : ParentForest.Lineage s'.parentOf p _ := htail.congr fun j hj => by
        rw [h.parentOf, Function.update_of_ne fun heq => hids j hj (congrArg s.idOf heq)]
      refine ⟨attaches_iff.mpr ⟨hne, ?_, ?_⟩, _, hsame, ?_⟩
      · rw [h.parentOf, Function.update_self]
        rfl
      · rw [h.childrenOf]
        exact hnodup.not_mem_erase
      · rintro ⟨l', hl', a, ha, hid⟩
        rw [h.idOf] at hid
        exact hids a (hl'.unique hsame ▸ ha) hid

theorem MovesLeaves.assembles {call : SceneObjectCall ι ε} (h : s.MovesLeaves call) :
    Assembles call := by
  cases call <;> trivial

variable [DecidableEq ε]

theorem clashes_of_setParent (hlive : s.ParentsLive) (hp : (s p).isSome)
    (hne : s.parentOf c ≠ some p) {l : List ι} (hl : ParentForest.Lineage s.parentOf p l)
    (h : setParent fuel s c (some p) = some (s', false)) : s.Clashes p c := by
  by_cases hmem : c ∈ l
  · exact ⟨l, hl, c, hmem, rfl⟩
  obtain ⟨o, ho, ⟨heq, -, -⟩ | ⟨-, s₁, o₁, hs₁, ho₁, ⟨-, -, -, hok⟩ | ⟨hwalk, -, -⟩⟩⟩ :=
    setParent_cases h
  · exact absurd ((parentOf_eq ho).trans heq.symm) hne
  · cases hok
  obtain ⟨hparents, -, hids, hlive₁⟩ :=
    links_of_updateRoot hlive (fun q hq => Option.some.inj hq ▸ hp) ho hs₁
  have htail : ParentForest.Lineage s₁.parentOf p l := hl.congr fun j hj => by
    rw [hparents]
    exact Function.update_of_ne (fun heq : j = c => hmem (heq ▸ hj)) ..
  have hself : ParentForest.Lineage s₁.parentOf c (c :: l) :=
    .step (by rw [hparents, Function.update_self]) htail
  obtain ⟨a, ha, hid⟩ := walkEntityPath_none hlive₁ hself hwalk
  refine ⟨l, hl, a, ha, ?_⟩
  rw [← hids, hid, idOf_eq ho₁]

theorem PathsKnown.removeChild (hs : s.PathsKnown) (hlive : s.ParentsLive)
    (hc : s.Childless c ∨ s.parentOf c = none) (h : removeChild fuel s p c = some s') :
    s'.PathsKnown := by
  obtain ⟨s₁, ok, o, hs₁, ho, rfl⟩ := removeChild_eq h
  refine PathsKnown.put_children ?_ ho _
  by_cases hnone : s.parentOf c = none
  · rw [setParent_same hnone.symm hs₁]
    exact hs
  · cases setParent_none hnone hs₁
    exact hs.of_linked (hc.resolve_right hnone) (linked_of_setParent hlive (by simp) hs₁)

theorem PathsKnown.addChild {ok : Bool} (hs : s.PathsKnown) (hlive : s.ParentsLive)
    (hc : s.Childless c ∨ s.Refuses p c) (h : addChild fuel s p c = some (s', ok)) :
    s'.PathsKnown := by
  obtain ⟨hp, ⟨-, rfl, -⟩ | ⟨hattaches, s₁, hs₁, ⟨rfl, rfl⟩ | ⟨rfl, o, ho, rfl⟩⟩⟩ :=
    addChild_cases h
  · exact hs
  · exact hs.of_rootless (rootless_of_setParent hs₁)
  have hlinked := linked_of_setParent hlive (fun q hq => Option.some.inj hq ▸ hp) hs₁
  refine PathsKnown.put_children ?_ ho _
  rcases hc with hc | hc | hc
  · exact hs.of_linked hc hlinked
  · cases hattaches.symm.trans hc
  · exact absurd hc (not_clashes_of_linked hlinked)

theorem detached_of_removeChild (hlive : s.ParentsLive) (hc : s.parentOf c = some p)
    (h : removeChild fuel s p c = some s') : Detached s p c s' := by
  obtain ⟨s₁, ok, o, hs₁, ho, rfl⟩ := removeChild_eq h
  cases setParent_none (by simp [hc]) hs₁
  have hlinked := linked_of_setParent hlive (by simp) hs₁
  refine ⟨?_, ?_, ?_, fun i hi => ?_, by simp⟩
  · rw [parentOf_put_children ho, hlinked.parentOf]
  · rw [childrenOf_put, Function.update_self, ← hlinked.childrenOf, childrenOf_eq ho]
  · rw [← hlinked.idOf]
    exact idOf_put_same ho rfl
  · rw [← hlinked.pathOf i hi]
    rcases eq_or_ne i p with rfl | hne
    · rw [pathOf, put_self, pathOf, ho]
      rfl
    · exact pathOf_put_of_ne hne

/-- A child that has left its parent finds its new one as it was, and is taken unless its id is met
there. -/
theorem takes_of_leaveParent {s₁ : SceneHierarchy ι ε} {destination : Option ι}
    (hs : s.Forest) (hc : s.parentOf c ≠ none)
    (hp : s.valid destination = some p) (hclash : ¬ s.Clashes p c)
    (hleave : leaveParent fuel s c = some s₁) :
    s₁.valid destination = some p ∧
      ∀ r ok, addChild fuel s₁ p c = some (r, ok) → ok = true := by
  obtain ⟨hforest, -⟩ := hs.leaveParent hleave
  rcases leaveParent_cases hs.parentsLive hleave with ⟨hnone, -⟩ | ⟨q, hq, hremoved⟩
  · exact absurd hnone hc
  have hdetached := detached_of_removeChild hs.parentsLive hq hremoved
  have hlive : ∀ i, (s₁ i).isSome = (s i).isSome := fun i => by
    have hid := congrArg Option.isSome (congrFun hdetached.idOf i)
    rwa [idOf, idOf, Option.isSome_map, Option.isSome_map] at hid
  have hvalid : s₁.valid destination = s.valid destination := by
    simp only [valid, hlive]
  refine ⟨hvalid.trans hp, fun r ok hadd => ?_⟩
  have hparent : s₁.parentOf c = none := by rw [hdetached.parentOf, Function.update_self]
  obtain ⟨l, hl⟩ := hs.rooted p
  have hmem : c ∉ l := fun hmem => hclash ⟨l, hl, c, hmem, rfl⟩
  have hl₁ : ParentForest.Lineage s₁.parentOf p l := hl.congr fun j hj => by
    rw [hdetached.parentOf, Function.update_of_ne fun heq : j = c => hmem (heq ▸ hj)]
  obtain ⟨hsome, ⟨hrefused, -, -⟩ | ⟨-, s₂, hs₂, ⟨rfl, -⟩ | ⟨hok, -⟩⟩⟩ :=
    addChild_cases hadd
  · have hattaches : s₁.attaches p c = true := by
      refine attaches_iff.mpr ⟨fun heq => hmem (heq ▸ hl.mem_self), ?_, ?_⟩
      · rw [hparent]
        rfl
      · rw [hforest.mem_children, hparent]
        simp
    cases hattaches.symm.trans hrefused
  · have hne : s₁.parentOf c ≠ some p := by simp [hparent]
    obtain ⟨l', hl', a, ha, hid⟩ :=
      clashes_of_setParent hforest.parentsLive hsome hne hl₁ hs₂
    rw [hdetached.idOf] at hid
    exact absurd ⟨l, hl, a, hl'.unique hl₁ ▸ ha, hid⟩ hclash
  · exact hok

/-- A child that is moved to its own parent keeps all paths exact, whatever is below it. -/
theorem PathsKnown.moveBack {s₁ : SceneHierarchy ι ε} {ok : Bool} (hs : s.PathsKnown)
    (hlive₁ : s₁.ParentsLive) (hnodup : (s.childrenOf p).Nodup) (hc : s.parentOf c = some p)
    (hdetached : Detached s p c s₁) (h : SceneHierarchy.addChild fuel s₁ p c = some (s', ok)) :
    s'.PathsKnown := by
  obtain ⟨hattaches, l, hl, hclash⟩ :=
    hdetached.not_refuses hc (hs c (isSome_of_parentOf hc)) hnodup
  have hparent : s₁.parentOf c ≠ some p := by
    rw [hdetached.parentOf, Function.update_self]
    simp
  obtain ⟨hp, ⟨hfalse, -, -⟩ | ⟨-, s₂, hs₂, ⟨rfl, rfl⟩ | ⟨rfl, o, ho, rfl⟩⟩⟩ := addChild_cases h
  · cases hattaches.symm.trans hfalse
  · exact absurd (clashes_of_setParent hlive₁ hp hparent hl hs₂) hclash
  have hlinked := linked_of_setParent hlive₁ (fun q hq => Option.some.inj hq ▸ hp) hs₂
  have hparents : s₂.parentOf = s.parentOf := by
    rw [hlinked.parentOf, hdetached.parentOf, Function.update_idem, ← hc, Function.update_eq_self]
  have hids : s₂.idOf = s.idOf := hlinked.idOf.trans hdetached.idOf
  refine PathsKnown.put_children (fun i hi => ?_) ho _
  rcases eq_or_ne i c with rfl | hne
  · exact hlinked.traced
  · have hsome : (s i).isSome := by
      have hid := congrArg Option.isSome (congrFun hids i)
      rw [SceneHierarchy.idOf, SceneHierarchy.idOf, Option.isSome_map, Option.isSome_map] at hid
      rwa [← hid]
    exact (hs i hsome).congr hparents
      ((hlinked.pathOf i hne).trans (hdetached.pathOf i hne)) hids

theorem PathsKnown.moveToTree {ok : Bool} {destination : Option ι} (hs : s.PathsKnown)
    (hknown : s.RootsKnown T fun _ => False) (hc : s.MovesLeaves (.moveToTree c destination))
    (h : moveToTree fuel s c destination = some (s', ok)) : s'.PathsKnown := by
  obtain ⟨s₁, hs₁, hmove⟩ := moveToTree_cases h
  have hlive := hknown.wired.live
  have hlive₁ := (hknown.leaveParent hs₁).wired.live
  rcases leaveParent_cases hlive hs₁ with ⟨hnone, rfl⟩ | ⟨q, hq, hremoved⟩
  · rcases hmove with ⟨-, rfl⟩ | ⟨p, hp, hadd⟩
    · exact hs
    refine hs.addChild hlive ?_ hadd
    rcases hc with hc | hc | ⟨-, hc⟩
    · exact .inl hc
    · cases hp.symm.trans (hc.trans hnone)
    · exact .inr (hc p hp)
  have hdetached := detached_of_removeChild hlive hq hremoved
  rcases hc with hc | hc | ⟨hnone, -⟩
  · have hleft := hs.removeChild hlive (.inl hc) hremoved
    rcases hmove with ⟨-, rfl⟩ | ⟨p, -, hadd⟩
    · exact hleft
    refine hleft.addChild hlive₁ (.inl fun d hd => ?_) hadd
    rw [hdetached.parentOf] at hd
    rcases eq_or_ne d c with rfl | hne
    · cases (Function.update_self ..).symm.trans hd
    · rw [Function.update_of_ne hne] at hd
      exact hc d hd
  · rw [hq] at hc
    obtain ⟨rfl, -⟩ := Option.filter_eq_some_iff.mp hc
    rw [valid_some hdetached.isSome] at hmove
    rcases hmove with ⟨hfalse, -⟩ | ⟨p, hp, hadd⟩
    · cases hfalse
    · cases hp
      exact hs.moveBack hlive₁ (hknown.nodup q) hq hdetached hadd
  · cases hnone.symm.trans hq

theorem PathsKnown.create {entityId : ε} {hasScene : Bool} (hs : s.PathsKnown)
    (hlive : s.ParentsLive) (h : create fuel s c entityId hasScene = some s') : s'.PathsKnown := by
  obtain ⟨hc, rfl⟩ := create_eq h
  have hparents : (s.put c { entityId, hasScene, entityPath := [entityId] }).parentOf =
      s.parentOf := parentOf_put_new hc rfl
  have hids : ∀ a, a ≠ c →
      (s.put c { entityId, hasScene, entityPath := [entityId] }).idOf a = s.idOf a := fun a ha => by
    rw [idOf, put_of_ne ha, idOf]
  intro i hi
  rcases eq_or_ne i c with rfl | hne
  · refine ⟨[i], [entityId], .top ?_, ?_, ?_, by simp⟩
    · rw [parentOf, put_self]
      rfl
    · rw [pathOf, put_self]
      rfl
    · rw [List.map_singleton, List.map_singleton, List.reverse_singleton, idOf, put_self]
      rfl
  · obtain ⟨l, path, hl, hpath, heq, hne'⟩ := hs i ((isSome_put_iff.mp hi).resolve_left hne)
    -- the new object is nobody's parent yet
    have hnew : ∀ a ∈ l, a ≠ c := by
      rintro a ha rfl
      rcases hl.eq_or_child ha with rfl | ⟨d, hd⟩
      · exact hne rfl
      · have hsome := hlive d a hd
        rw [hc] at hsome
        cases hsome
    refine ⟨l, path, hparents ▸ hl, ?_, ?_, fun a ha => ?_⟩
    · rw [pathOf_put_of_ne hne]
      exact hpath
    · rw [heq, List.map_congr_left fun a ha => hids a (hnew a ha)]
    · rw [hids a (hnew a (List.mem_of_mem_tail ha)), hids i hne]
      exact hne' a ha

theorem PathsKnown.step {r : SceneHierarchy ι ε × Option Bool} {call : ℕ × SceneObjectCall ι ε}
    (hs : s.PathsKnown) (hknown : s.RootsKnown T fun _ => False) (hcall : s.MovesLeaves call.2)
    (h : s.step call = some r) : r.1.PathsKnown := by
  obtain ⟨fuel, call⟩ := call
  cases call with
  | create self entityId hasScene =>
      obtain ⟨t, ht, rfl⟩ := Option.map_eq_some_iff.mp h
      exact hs.create hknown.wired.live ht
  | addChild self pChild =>
      obtain ⟨t, ht, rfl⟩ := Option.map_eq_some_iff.mp h
      exact hs.addChild hknown.wired.live hcall ht
  | removeChild self pChild =>
      obtain ⟨t, ht, rfl⟩ := Option.map_eq_some_iff.mp h
      exact hs.removeChild hknown.wired.live hcall ht
  | moveToTree self destination =>
      obtain ⟨t, ht, rfl⟩ := Option.map_eq_some_iff.mp h
      exact hs.moveToTree hknown hcall ht
  | removeAllChildren self => exact hcall.elim
  | destroy self => exact hcall.elim

/-- In a run that moves only objects with nothing below them, all entity paths are exact, and the
roots of the objects whose topmost ancestor came to `SetParent`. -/
theorem derived_of_movesLeaves {calls : List (ℕ × SceneObjectCall ι ε)}
    (h : Steps.Along watch (fun w call => w.1.MovesLeaves call.2)
      ((empty : SceneHierarchy ι ε), fun _ => false) calls) :
    Steps.Throughout watch (fun _ _ w => ∀ i, (w.1 i).isSome →
        w.1.PathExact i ∧ (w.1.RootExact i ↔ ∃ t, w.1.Topmost i t ∧ w.2 t = true))
      ((empty : SceneHierarchy ι ε), fun _ => false) calls := by
  refine h.throughout (I := fun w => w.1.RootsKnown w.2 (fun _ => False) ∧ w.1.PathsKnown)
    (fun w call r ⟨hknown, hpaths⟩ hcall hr => ?_)
    ⟨rootsKnown_empty, fun i hi => by cases hi⟩
  obtain ⟨q, hq, rfl⟩ := Option.map_eq_some_iff.mp hr
  have hknown' := hknown.step hcall.assembles hq
  have hpaths' := hpaths.step hknown hcall hq
  exact ⟨fun i hi => ⟨(hpaths' i hi).pathExact, hknown'.rootExact_iff i⟩, hknown', hpaths'⟩

end

/-- Objects that are put together from the top, and a leaf that is moved to the third. -/
def assembledTopDown : List (ℕ × SceneObjectCall (Fin 4) ℕ) :=
  [(9, .create 0 10 false), (9, .create 1 11 false), (9, .addChild 0 1), (9, .create 2 12 false),
    (9, .moveToTree 1 (some 2)), (9, .moveToTree 1 (some 2))]

theorem derived_of_movesLeaves_sample :
    Steps.Along watch (fun w call => w.1.MovesLeaves call.2)
        ((empty : SceneHierarchy (Fin 4) ℕ), fun _ => false) assembledTopDown ∧
      Steps.Throughout watch (fun _ _ w => ∀ i, (w.1 i).isSome →
          w.1.PathExact i ∧ (w.1.RootExact i ↔ ∃ t, w.1.Topmost i t ∧ w.2 t = true))
        ((empty : SceneHierarchy (Fin 4) ℕ), fun _ => false) assembledTopDown := by
  have h : Steps.Along watch (fun w call => w.1.MovesLeaves call.2)
      ((empty : SceneHierarchy (Fin 4) ℕ), fun _ => false) assembledTopDown := by
    refine ⟨trivial, fun r₁ h₁ => ⟨trivial, fun r₂ h₂ => ⟨.inl ?_, fun r₃ h₃ => ⟨trivial,
      fun r₄ h₄ => ⟨.inl ?_, fun r₅ h₅ => ⟨.inr (.inl ?_), fun r₆ h₆ => trivial⟩⟩⟩⟩⟩⟩
    · cases h₁
      cases h₂
      intro d
      revert d
      decide
    · cases h₁
      cases h₂
      cases h₃
      cases h₄
      intro d
      revert d
      decide
    · cases h₁
      cases h₂
      cases h₃
      cases h₄
      cases h₅
      rfl
  exact ⟨h, derived_of_movesLeaves h⟩

/-- The lower pair is put together first. -/
def assembledBottomUp : List (ℕ × SceneObjectCall ℕ ℕ) :=
  [(9, .create 0 10 false), (9, .create 1 11 false), (9, .create 2 12 false), (9, .addChild 1 2)]

/-- A new object has no root, and a path is not computed again when an ancestor gets a parent. -/
theorem not_derived_of_create_addChild :
    (¬ ∀ calls, (∀ call ∈ calls, Assembles call.2) →
      Steps.Throughout step (fun _ _ (s : SceneHierarchy ℕ ℕ) => ∀ i, (s i).isSome → s.RootExact i)
        empty calls) ∧
    ¬ ∀ calls, (∀ call ∈ calls, Assembles call.2) →
      Steps.Throughout step (fun _ _ (s : SceneHierarchy ℕ ℕ) => ∀ i, (s i).isSome → s.PathExact i)
        empty calls := by
  constructor
  · intro h
    have hcreated : ∃ r, step (empty : SceneHierarchy ℕ ℕ) (9, .create 0 10 false) = some r ∧
        (r.1 0).isSome ∧ r.1.rootOf 0 = none := ⟨_, rfl, rfl, rfl⟩
    obtain ⟨r, hr, hsome, hroot⟩ := hcreated
    obtain ⟨t, -, ht⟩ := (h [(9, .create 0 10 false)] (by simp [Assembles]) r hr).1 0 hsome
    cases hroot.symm.trans ht
  · intro h
    have hrun : ∃ r r', Steps.run step empty assembledBottomUp = some r ∧
        step r.1 (9, .addChild 0 1) = some r' ∧ r'.1.parentOf 2 = some 1 ∧
          r'.1.parentOf 1 = some 0 ∧ r'.1.parentOf 0 = none ∧ r'.1.pathOf 2 = some [11, 12] :=
      ⟨_, _, rfl, rfl, rfl, rfl, rfl, rfl⟩
    obtain ⟨r, r', hr, hr', h₂, h₁, h₀, hpath⟩ := hrun
    have hlast := (h (assembledBottomUp ++ [(9, .addChild 0 1)])
      (by simp [assembledBottomUp, Assembles])).last hr hr'
    obtain ⟨l, path, hl, hpath', heq⟩ := hlast 2 (isSome_of_parentOf h₂)
    cases hl.unique (.step h₂ (.step h₁ (.top h₀)))
    cases hpath.symm.trans hpath'
    have hlength := congrArg List.length heq
    simp at hlength

end SceneHierarchy

end SRCommon
