import SRCommon.ECS.EntityPaths
import SRCommon.ECS.EntityRefSaving

/-!
# Targets of references

A reference that has a target keeps it: neither `Load` nor the getters ask where
the path leads that was loaded. A copy has no target, and the path that it gets
is the one that was stored last.
-/

namespace SRCommon

open MarshalUtils LittleEndian

namespace SceneTree

open ParentForest (Lineage)

theorem forall₂_concat {α β : Type} {R : α → β → Prop} {xs : List α} {ys : List β} {y : β} :
    List.Forall₂ R xs (ys ++ [y]) ↔ ∃ xs' x, xs = xs' ++ [x] ∧ List.Forall₂ R xs' ys ∧ R x y := by
  rw [← List.forall₂_reverse_iff, List.reverse_append, List.reverse_singleton,
    List.singleton_append, List.forall₂_cons_right_iff]
  constructor
  · rintro ⟨x, us, hx, hus, hxs⟩
    refine ⟨us.reverse, x, ?_, ?_, hx⟩
    · rw [← xs.reverse_reverse, hxs, List.reverse_cons]
    · rwa [← List.forall₂_reverse_iff, List.reverse_reverse]
  · rintro ⟨xs', x, rfl, hxs, hx⟩
    exact ⟨x, xs'.reverse, hx, List.forall₂_reverse_iff.mpr hxs, by simp⟩

section

variable {ι κ ν : Type} {t : SceneTree ι κ ν} {i : ι} {r : List ι} {e : Entity ι κ}

theorem here_ofScene (o : Option ι) : t.here .ofScene (o.map .object) = some o := by
  cases o <;> rfl

theorem holder_ofScene (o : Option ι) : t.holder .ofScene (o.map .object) = some o := by
  cases o <;> rfl

/-- The names on the way to an entity. -/
def namesTo (t : SceneTree ι κ ν) (r : List ι) : Entity ι κ → List ν
  | .object _ => r.map t.name
  | .component c => r.map t.name ++ [t.componentName c]

theorem forall_namesTo_iff {P : ν → Prop} : (∀ name ∈ t.namesTo r e, P name) ↔
    (∀ i ∈ r, P (t.name i)) ∧ ∀ c, e = .component c → P (t.componentName c) := by
  cases e with
  | object i => simp [namesTo]
  | component c => simp [namesTo, or_imp, forall_and]

theorem isWay_some : t.IsWay (some i) r ↔ ∃ r', r = r' ++ [i] ∧ t.IsWay (t.parent i) r' := by
  constructor
  · intro h
    have hlineage : Lineage t.parent i r.reverse := h
    rw [← r.reverse_reverse]
    generalize r.reverse = l at hlineage
    cases hlineage with
    | top hi => exact ⟨[], rfl, by rw [hi]; rfl⟩
    | @step _ p l hi hl =>
        refine ⟨l.reverse, List.reverse_cons, ?_⟩
        rw [hi, IsWay, List.reverse_reverse]
        exact hl
  · rintro ⟨r', rfl, h⟩
    rw [IsWay, List.reverse_append]
    cases hi : t.parent i with
    | none =>
        rw [hi] at h
        cases h
        exact .top hi
    | some p =>
        rw [hi] at h
        exact .step hi h

section

variable [DecidableEq ν] {owner : OwnerRef ι κ} {e : Option (Entity ι κ)} {item : PathItem ν}
  {path : RefPath ν} {o : Option ι}

theorem follow_child (hitem : item.action = .child) :
    t.follow owner e item = t.actionChild owner e item := by
  rw [follow, hitem]

theorem follow_child_object {e' : Option (Entity ι κ)} (hitem : item.action = .child)
    (h : t.follow owner e item = .ok e') : ∃ j, e' = some (.object j) := by
  rw [follow_child hitem, actionChild] at h
  split at h
  · cases h
  split at h
  · cases h
    exact ⟨_, rfl⟩
  · cases h

/-- Steps to children lead to objects. -/
theorem foldlM_children {e' : Option (Entity ι κ)} (hpath : ∀ item ∈ path, item.action = .child)
    (h : path.foldlM (t.follow .ofScene) none = .ok e') :
    ∃ o : Option ι, e' = o.map .object := by
  induction path using List.reverseRecOn generalizing e' with
  | nil =>
      cases h
      exact ⟨none, rfl⟩
  | append_singleton path item ih =>
      rw [List.foldlM_append] at h
      obtain ⟨e₁, -, h⟩ := bind_eq_ok_iff.mp h
      rw [foldlM_singleton] at h
      obtain ⟨j, rfl⟩ := follow_child_object
        (hpath item (List.mem_append_right _ List.mem_cons_self)) h
      exact ⟨some j, rfl⟩

section

variable [DecidableEq κ] {c : κ}

theorem follow_component_iff (hitem : item.action = .component) :
    t.follow .ofScene (o.map .object) item = .ok (some (.component c)) ↔
      t.owner c = o ∧ t.componentName c = item.name ∧ item.index.toNat = t.ordinal c := by
  rw [follow, hitem]
  dsimp only
  rw [actionComponent, componentsOf_eq, holder_ofScene, Option.map_some]
  have hnth : ListSearch.nth t.componentName item.name (t.components o) item.index.toNat =
      some c ↔ _ := ListSearch.nth_eq_some (t.nodup_components o)
  have hmem := t.mem_components c o
  have hobject : (some (.component c) : Option (Entity ι κ)) ≠ o.map .object := by
    cases o <;> simp
  cases hcomponents : t.components o with
  | nil =>
      rw [hcomponents] at hmem
      refine iff_of_false (fun h => by cases h) fun h => ?_
      cases hmem.mpr h.1
  | cons d ds =>
      dsimp only
      rw [← hcomponents]
      constructor
      · intro h
        split at h
        · rename_i hfound
          cases h
          obtain ⟨hc, hname, hindex⟩ := hnth.mp hfound
          obtain rfl := hmem.mp hc
          exact ⟨rfl, hname, hindex⟩
        · exact absurd (Except.ok.inj h).symm hobject
      · rintro ⟨ho, hname, hindex⟩
        subst ho
        rw [hnth.mpr ⟨hmem.mpr rfl, hname, hindex⟩]

end

variable [DecidableEq ι]

/-- The number of siblings of the same name before the object. -/
def place (t : SceneTree ι κ ν) (i : ι) : ℕ :=
  ListSearch.ordinal t.name i (t.siblings (t.parent i))

/-- A step to a child with this item finds the object. -/
def Spells (t : SceneTree ι κ ν) (i : ι) (item : PathItem ν) : Prop :=
  t.name i = item.name ∧ t.LastNamed i ∧ item.index.toNat ≤ t.place i

theorem follow_child_iff (hitem : item.action = .child) :
    t.follow owner e item = .ok (some (.object i)) ↔
      t.here owner e = some (t.parent i) ∧ t.Spells i item := by
  rw [follow_child hitem, actionChild, tree_eq]
  cases hhere : t.here owner e with
  | none => simp
  | some o =>
      rw [Option.map_some]
      have hlast : ListSearch.last t.name item.name none (t.siblings o) item.index.toNat =
          some i ↔ _ := ListSearch.last_eq_some nodup_siblings
      dsimp only
      constructor
      · intro h
        split at h
        · rename_i j hj
          cases h
          obtain ⟨hmem, hname, hislast, hindex⟩ := hlast.mp hj
          obtain rfl := mem_siblings.mp hmem
          exact ⟨rfl, hname, hislast, hindex⟩
        · cases h
      · rintro ⟨ho, hname, hislast, hindex⟩
        cases ho
        rw [hlast.mpr ⟨mem_siblings.mpr rfl, hname, hislast, hindex⟩]

/-- Steps to children lead to an object if they spell its way. -/
theorem leads_object_iff (hpath : ∀ item ∈ path, item.action = .child) (hr : t.IsWay o r) :
    path.foldlM (t.follow .ofScene) none = .ok (o.map .object) ↔
      List.Forall₂ t.Spells r path := by
  induction path using List.reverseRecOn generalizing o r with
  | nil =>
      rw [List.forall₂_nil_right_iff]
      cases o with
      | none =>
          cases hr
          exact iff_of_true rfl rfl
      | some i =>
          obtain ⟨r', rfl, -⟩ := isWay_some.mp hr
          refine iff_of_false (fun h => ?_) (by simp)
          cases h
  | append_singleton path item ih =>
      have hitem := hpath item (List.mem_append_right _ List.mem_cons_self)
      have hfront : ∀ item ∈ path, item.action = .child := fun item h =>
        hpath item (List.mem_append_left _ h)
      rw [List.foldlM_append, bind_eq_ok_iff]
      constructor
      · rintro ⟨e', he', h⟩
        rw [foldlM_singleton] at h
        obtain ⟨o', rfl⟩ := foldlM_children hfront he'
        cases o with
        | none =>
            obtain ⟨j, hj⟩ := follow_child_object hitem h
            cases hj
        | some i =>
            obtain ⟨hhere, hspells⟩ := (follow_child_iff hitem).mp h
            rw [here_ofScene] at hhere
            cases hhere
            obtain ⟨r', rfl, hr'⟩ := isWay_some.mp hr
            exact forall₂_concat.mpr ⟨r', i, rfl, (ih hfront hr').mp he', hspells⟩
      · intro h
        obtain ⟨r', i, rfl, hr', hspells⟩ := forall₂_concat.mp h
        obtain rfl : o = some i := by rw [← hr.getLast?, List.getLast?_concat]
        obtain ⟨r₁, heq, hway⟩ := isWay_some.mp hr
        obtain rfl := List.append_cancel_right heq
        refine ⟨(t.parent i).map .object, (ih hfront hway).mpr hr', ?_⟩
        rw [foldlM_singleton]
        exact (follow_child_iff hitem).mpr ⟨here_ofScene _, hspells⟩

variable [DecidableEq κ] {c : κ}

/-- Steps to children and one to a component. -/
theorem leads_component_iff (hpath : ∀ item ∈ path, item.action = .child)
    (hitem : item.action = .component) (hr : t.IsWay (t.owner c) r) :
    (path ++ [item]).foldlM (t.follow .ofScene) none = .ok (some (.component c)) ↔
      List.Forall₂ t.Spells r path ∧ t.componentName c = item.name ∧
        item.index.toNat = t.ordinal c := by
  rw [List.foldlM_append, bind_eq_ok_iff, ← leads_object_iff hpath hr]
  constructor
  · rintro ⟨e', he', h⟩
    rw [foldlM_singleton] at h
    obtain ⟨o, rfl⟩ := foldlM_children hpath he'
    obtain ⟨rfl, hname, hindex⟩ := (follow_component_iff hitem).mp h
    exact ⟨he', hname, hindex⟩
  · rintro ⟨he', hname, hindex⟩
    refine ⟨_, he', ?_⟩
    rw [foldlM_singleton]
    exact (follow_component_iff hitem).mpr ⟨rfl, hname, hindex⟩

end

end

/-! ## Paths of another moment -/

section

variable {ι κ ν : Type} [DecidableEq ν] {old t : SceneTree ι κ ν} {r r' : List ι}
  {e : Entity ι κ} {f : ν → ν}

theorem toNat_index_componentItem [DecidableEq κ] (c : κ) :
    (t.componentItem c).index.toNat = t.ordinal c % 65536 := by
  rw [componentItem, UInt16.toNat_ofNat']
  rfl

variable [DecidableEq ι]

/-- An item whose name is not read as it was written. -/
def renamed (f : ν → ν) (item : PathItem ν) : PathItem ν := { item with name := f item.name }

/-- The name and the number of an object as they were written lead to an object. -/
def LeadsTo (old t : SceneTree ι κ ν) (f : ν → ν) (i j : ι) : Prop :=
  t.name i = f (old.name j) ∧ t.LastNamed i ∧ old.place j % 65536 ≤ t.place i

theorem toNat_index_objectItem (i : ι) : (t.objectItem i).index.toNat = t.place i % 65536 := by
  rw [objectItem, UInt16.toNat_ofNat']
  rfl

theorem action_of_mem_map {item : PathItem ν}
    (h : item ∈ (r.map old.objectItem).map (renamed f)) : item.action = .child := by
  obtain ⟨item, hitem, rfl⟩ := List.mem_map.mp h
  obtain ⟨i, -, rfl⟩ := List.mem_map.mp hitem
  rfl

theorem forall₂_spells_iff :
    List.Forall₂ t.Spells r ((r'.map old.objectItem).map (renamed f)) ↔
      List.Forall₂ (LeadsTo old t f) r r' := by
  rw [List.map_map, List.forall₂_map_right_iff]
  refine Iff.of_eq (congrArg (fun R => List.Forall₂ R r r') ?_)
  funext i j
  rw [Spells, LeadsTo, ← toNat_index_objectItem]
  rfl

variable [DecidableEq κ]

/-- Where a path leads that was written in another tree. -/
theorem leads_renamed_iff (hr : t.IsWay (t.objectOf e) r) :
    ((old.pathOf r' e).map (renamed f)).foldlM (t.follow .ofScene) none = .ok (some e) ↔
      List.Forall₂ (LeadsTo old t f) r r' ∧ ∀ c, e = .component c →
        t.componentName c = f (old.componentName c) ∧ old.ordinal c % 65536 = t.ordinal c := by
  rw [← forall₂_spells_iff]
  cases e with
  | object i =>
      rw [pathOf, ← leads_object_iff (fun _ => action_of_mem_map) hr]
      simp [objectOf]
  | component c =>
      rw [pathOf, List.map_append, List.map_singleton,
        leads_component_iff (fun _ => action_of_mem_map) rfl hr]
      have hindex := toNat_index_componentItem (t := old) c
      constructor
      · rintro ⟨hobjects, hname, hordinal⟩
        refine ⟨hobjects, fun d hd => ?_⟩
        cases hd
        exact ⟨hname, hindex.symm.trans hordinal⟩
      · rintro ⟨hobjects, hc⟩
        obtain ⟨hname, hordinal⟩ := hc c rfl
        exact ⟨hobjects, hname, hindex.trans hordinal⟩

/-- The front part of a path does not lead to its end. -/
theorem not_leads_take {n : ℕ} (hr : t.IsWay (t.objectOf e) r) (hn : n < (t.pathOf r e).length) :
    (((t.pathOf r e).map (renamed f)).take n).foldlM (t.follow .ofScene) none ≠ .ok (some e) := by
  have hfront : ((t.pathOf r e).map (renamed f)).take n =
      ((r.take n).map t.objectItem).map (renamed f) := by
    cases e with
    | object i => rw [pathOf, List.map_take, List.map_take]
    | component c =>
        rw [pathOf, List.length_append, List.length_map, List.length_singleton] at hn
        rw [pathOf, ← List.map_take, List.take_append_of_le_length (by rw [List.length_map]; omega),
          ← List.map_take]
  rw [hfront]
  intro h
  cases e with
  | component c =>
      obtain ⟨o, ho⟩ := foldlM_children (fun _ => action_of_mem_map) h
      cases o <;> cases ho
  | object i =>
      have hlength := ((leads_object_iff (fun _ => action_of_mem_map) hr).mp h).length_eq
      rw [pathOf, List.length_map] at hn
      rw [List.length_map, List.length_map, List.length_take] at hlength
      omega

/-- Without a scene no path down leads to an entity. -/
theorem not_leads_of_no_scene {n : ℕ} :
    (((old.pathOf r e).map (renamed f)).take n).foldlM (t.follow ⟨none, false⟩) none ≠
      .ok (some e) := by
  intro h
  have hfirst : ∀ item, item.action = .child ∨ item.action = .component →
      ∃ halt, t.follow ⟨none, false⟩ none item = .error halt := by
    rintro item (hitem | hitem)
    · refine ⟨.nullptr, ?_⟩
      rw [follow, hitem]
      rfl
    · refine ⟨.crash, ?_⟩
      rw [follow, hitem]
      rfl
  cases hpath : ((old.pathOf r e).map (renamed f)).take n with
  | nil =>
      rw [hpath] at h
      cases h
  | cons item path =>
      have hmem : item ∈ (old.pathOf r e).map (renamed f) :=
        List.mem_of_mem_take (hpath ▸ List.mem_cons_self)
      obtain ⟨item₀, hitem, rfl⟩ := List.mem_map.mp hmem
      have haction : item₀.action = .child ∨ item₀.action = .component := by
        cases e with
        | object i =>
            obtain ⟨j, -, rfl⟩ := List.mem_map.mp hitem
            exact .inl rfl
        | component c =>
            rcases List.mem_append.mp hitem with hitem | hitem
            · obtain ⟨j, -, rfl⟩ := List.mem_map.mp hitem
              exact .inl rfl
            · rw [List.mem_singleton.mp hitem]
              exact .inr rfl
      obtain ⟨halt, hhalt⟩ := hfirst (renamed f item₀) haction
      rw [hpath, List.foldlM_cons, hhalt] at h
      cases h

theorem map_name_pathOf : (t.pathOf r e).map PathItem.name = t.namesTo r e := by
  cases e with
  | object i =>
      rw [pathOf, List.map_map]
      rfl
  | component c =>
      rw [pathOf, List.map_append, List.map_map]
      rfl

theorem length_namesTo : (t.namesTo r e).length = (t.pathOf r e).length := by
  rw [← map_name_pathOf, List.length_map]

/-- Where a path leads that was written in the same tree. -/
theorem leads_back_iff (hr : t.IsWay (t.objectOf e) r) :
    ((t.pathOf r e).map (renamed f)).foldlM (t.follow .ofScene) none = .ok (some e) ↔
      t.Unshadowed e ∧ ∀ name ∈ t.namesTo r e, name = f name := by
  rw [leads_renamed_iff hr, List.forall₂_same, Unshadowed, forall_namesTo_iff]
  simp only [onWay_iff hr]
  constructor
  · rintro ⟨hobjects, hcomponent⟩
    refine ⟨⟨fun i hi => (hobjects i hi).2.1, fun c hc => ?_⟩, fun i hi => (hobjects i hi).1,
      fun c hc => (hcomponent c hc).1⟩
    rw [← (hcomponent c hc).2]
    exact Nat.mod_lt _ (by decide)
  · rintro ⟨⟨hlast, hordinal⟩, hnames, hname⟩
    exact ⟨fun i hi => ⟨hnames i hi, hlast i hi, Nat.mod_le _ _⟩,
      fun c hc => ⟨hname c hc, Nat.mod_eq_of_lt (hordinal c hc)⟩⟩

/-! ## Enough fuel -/

theorem climb_mono {n m : ℕ} {e : Option (Entity ι κ)} {path q : RefPath ν} (hle : n ≤ m)
    (h : t.climb n e path = some q) : t.climb m e path = some q := by
  induction n generalizing m e path with
  | zero => cases h
  | succ n ih =>
      obtain ⟨m, rfl⟩ := Nat.exists_eq_succ_of_ne_zero (by omega : m ≠ 0)
      have hle := Nat.le_of_succ_le_succ hle
      rcases e with _ | i | c
      · exact h
      · change t.climb m ((t.parent i).map .object) _ = _
        exact ih hle h
      · change t.climb m ((t.owner c).map .object) _ = _
        exact ih hle h

/-- What `CalculatePath` gives is the path on the way. -/
theorem calculatePath_some {fuel : ℕ} {path : RefPath ν} (hr : t.IsWay (t.objectOf e) r)
    (h : t.calculatePath fuel (.ofEntity e) = some path) : path = t.pathOf r e := by
  have hfuel : r.length + 1 < max fuel (r.length + 2) := by omega
  rw [calculatePath, if_neg (by simp [OwnerRef.ofEntity])] at h
  have hmore := calculatePath_eq hr hfuel
  rw [calculatePath, if_neg (by simp [OwnerRef.ofEntity]), climb_mono (Nat.le_max_left ..) h]
    at hmore
  exact Option.some.inj hmore

end

/-! ## Paths as they are kept -/

section

variable {ι κ : Type} {t : SceneTree ι κ StringAtom} {owner : OwnerRef ι κ}

theorem followStored_stored (item : PathItem StringAtom) :
    (fun e => t.followStored owner e item.stored) = fun e => t.follow owner e item := by
  funext e
  obtain ⟨name, index, action⟩ := item
  cases action <;> rfl

theorem getStoredEntity_map_stored (path : RefPath StringAtom) :
    t.getStoredEntity owner (path.map PathItem.stored) = t.getEntity owner path := by
  have hstep : (fun e item => t.followStored owner e (PathItem.stored item)) = t.follow owner := by
    funext e item
    exact congrFun (followStored_stored item) e
  rw [getStoredEntity, List.foldlM_map, hstep]
  rfl

end

end SceneTree

namespace EntityRef

open SceneTree Marshal StoredItem

variable {ι κ : Type} [DecidableEq ι] [DecidableEq κ]

/-- The getter for an entity of this kind returns it. -/
def Returns (t : SceneTree ι κ StringAtom) (fuel : ℕ) (ref : EntityRef ι κ) : Entity ι κ → Prop
  | .object i => ∃ ref', ref.getSceneObject t fuel = some (ref', some i)
  | .component c => ∃ ref', ref.getComponent t fuel = some (ref', some c)

/-- After `r.Load` of what `s.Save` has written, the getter of `r` returns the entity. -/
def Retargets (t : SceneTree ι κ StringAtom) (s r : EntityRef ι κ) (e : Entity ι κ) : Prop :=
  ∃ n, ∀ fuel ≥ n, ∃ s' marshal r' marshal', s.save t fuel Stream.empty = some (s', marshal) ∧
    r.load (marshal.setPosition 0) = some (r', marshal') ∧ r'.Returns t fuel e

/-- The getter of the copy returns the entity. -/
def Copies (t : SceneTree ι κ StringAtom) (s : EntityRef ι κ) (owner : OwnerRef ι κ)
    (e : Entity ι κ) : Prop :=
  ∃ n, ∀ fuel ≥ n, (s.copy owner).Returns t fuel e

section

variable {t : SceneTree ι κ StringAtom} {ref ref' : EntityRef ι κ} {e x : Entity ι κ} {fuel : ℕ}
  {way : List ι}

theorem returns_iff :
    ref.Returns t fuel e ↔ ∃ ref', ref.refresh t fuel = some ref' ∧ ref'.target = some e := by
  cases e with
  | object i =>
      constructor
      · rintro ⟨out, h⟩
        obtain ⟨ref', hrefresh, heq⟩ := Option.map_eq_some_iff.mp h
        refine ⟨ref', hrefresh, ?_⟩
        rcases htarget : ref'.target with _ | j | c <;> rw [htarget] at heq <;> cases heq
        rfl
      · rintro ⟨ref', hrefresh, htarget⟩
        refine ⟨ref', ?_⟩
        rw [getSceneObject, hrefresh, Option.map_some, htarget]
  | component c =>
      constructor
      · rintro ⟨out, h⟩
        obtain ⟨ref', hrefresh, heq⟩ := Option.map_eq_some_iff.mp h
        refine ⟨ref', hrefresh, ?_⟩
        rcases htarget : ref'.target with _ | j | d <;> rw [htarget] at heq <;> cases heq
        rfl
      · rintro ⟨ref', hrefresh, htarget⟩
        refine ⟨ref', ?_⟩
        rw [getComponent, hrefresh, Option.map_some, htarget]

theorem updatePath_target (h : ref.updatePath t fuel = some ref') : ref'.target = ref.target := by
  rw [updatePath] at h
  cases htarget : ref.target with
  | none =>
      rw [htarget] at h
      cases h
      exact htarget
  | some x =>
      rw [htarget] at h
      dsimp only at h
      split at h
      · obtain ⟨path, -, rfl⟩ := Option.map_eq_some_iff.mp h
        rfl
      · cases h
        exact htarget

/-- A target that is kept is what the getters see. -/
theorem refresh_target (h : ref.refresh t fuel = some ref') (htarget : ref.target = some x) :
    ref'.target = some x := by
  obtain ⟨ref₁, h₁, h₂⟩ := Option.bind_eq_some_iff.mp h
  have htarget₁ : ref₁.target = some x := by
    split at h₁
    · rw [updatePath_target h₁, htarget]
    · cases h₁
      exact htarget
  rw [if_neg (by rw [htarget₁]; exact Bool.false_ne_true)] at h₂
  cases h₂
  exact htarget₁

theorem updatePath_eq (hrelative : ref.relative = false) (htarget : ref.target = some e)
    (howner : ref.owner.isValid) (hway : t.IsWay (t.objectOf e) way)
    (hfuel : way.length + 2 ≤ fuel) :
    ref.updatePath t fuel = some { ref with path := (t.pathOf way e).map PathItem.stored } := by
  rw [updatePath, htarget]
  dsimp only
  rw [if_pos howner, calculate, if_neg (by rw [hrelative]; exact Bool.false_ne_true),
    calculatePath_eq hway hfuel, Option.map_some]

theorem refresh_of_target (hrelative : ref.relative = false) (htarget : ref.target = some e)
    (hway : t.IsWay (t.objectOf e) way) (hfuel : way.length + 2 ≤ fuel) :
    ∃ ref', ref.refresh t fuel = some ref' ∧ ref'.target = some e := by
  have hkeeps : ∃ ref₁, (if ref.path.isEmpty ∧ ref.target.isSome then ref.updatePath t fuel
      else some ref) = some ref₁ := by
    split
    · by_cases howner : ref.owner.isValid
      · exact ⟨_, updatePath_eq hrelative htarget howner hway hfuel⟩
      · refine ⟨ref, ?_⟩
        rw [updatePath, htarget]
        exact if_neg howner
    · exact ⟨ref, rfl⟩
  obtain ⟨ref₁, h₁⟩ := hkeeps
  have htarget₁ : ref₁.target = some e := by
    split at h₁
    · rw [updatePath_target h₁, htarget]
    · cases h₁
      exact htarget
  refine ⟨ref₁, ?_, htarget₁⟩
  rw [refresh, h₁, Option.bind_some, if_neg (by rw [htarget₁]; exact Bool.false_ne_true)]

/-- Without a target the getters follow the path from the scene of the owner. -/
theorem returns_of_no_target (hrelative : ref.relative = false) (htarget : ref.target = none) :
    ref.Returns t fuel e ↔
      t.getStoredEntity ⟨none, t.getSceneFromOwner ref.owner⟩ ref.path = some (some e) := by
  have hrefresh : ref.refresh t fuel = (t.getStoredEntity ⟨none, t.getSceneFromOwner ref.owner⟩
      ref.path).map fun target => { ref with target } := by
    rw [refresh, if_neg (by rw [htarget]; simp), Option.bind_some, htarget,
      if_pos Option.isNone_none, updateTarget, hrelative]
    rfl
  rw [returns_iff, hrefresh]
  constructor
  · rintro ⟨ref', h, he⟩
    obtain ⟨target, htarget, rfl⟩ := Option.map_eq_some_iff.mp h
    exact htarget.trans (congrArg some he)
  · intro h
    refine ⟨{ ref with target := some e }, ?_, rfl⟩
    rw [h]
    rfl

/-- Where the path leads that is loaded. -/
theorem leads_loaded_iff {scene : Bool} (hway : t.IsWay (t.objectOf e) way)
    (hwritten : ∀ name ∈ t.namesTo way e, name.length % 65536 < 32768) :
    t.getStoredEntity ⟨none, scene⟩ ((((t.pathOf way e).map PathItem.stored).take
        (((t.pathOf way e).map PathItem.stored).length % 65536)).map asRead) = some (some e) ↔
      scene ∧ t.Unshadowed e ∧ (t.namesTo way e).length < 65536 ∧
        ∀ name ∈ t.namesTo way e, name.length < 32768 := by
  have hloaded : (((t.pathOf way e).map PathItem.stored).take
      (((t.pathOf way e).map PathItem.stored).length % 65536)).map asRead =
        (((t.pathOf way e).map (renamed counted)).take ((t.pathOf way e).length % 65536)).map
          PathItem.stored := by
    rw [List.length_map, ← List.map_take, List.map_map, ← List.map_take, List.map_map]
    rfl
  rw [hloaded, getStoredEntity_map_stored, getEntity_eq_some_iff]
  cases scene with
  | false => exact iff_of_false not_leads_of_no_scene fun h => Bool.false_ne_true h.1
  | true =>
      rw [and_iff_right rfl, length_namesTo]
      rcases lt_or_ge (t.pathOf way e).length 65536 with hlength | hlength
      · rw [Nat.mod_eq_of_lt hlength, List.take_of_length_le (List.length_map _).le]
        refine (leads_back_iff hway).trans (and_congr_right fun _ => ?_)
        rw [and_iff_right hlength]
        refine forall₂_congr fun name hname => ?_
        refine ⟨fun h => lt_of_counted_eq (hwritten name hname) h.symm, fun h => ?_⟩
        exact (counted_of_lt (h.trans (by decide))).symm
      · refine iff_of_false (not_leads_take hway ?_) fun h => h.2.1.not_ge hlength
        exact (Nat.mod_lt _ (by decide)).trans_le hlength

theorem forall_written_iff : (∀ item ∈ (t.pathOf way e).map PathItem.stored, item.Written) ↔
    ∀ name ∈ t.namesTo way e, name.length % 65536 < 32768 := by
  rw [← map_name_pathOf, List.forall_mem_map, List.forall_mem_map]
  rfl

/-- A reference whose path is the one on the way. -/
theorem size_of_pathOf (hpath : ref.path = (t.pathOf way e).map PathItem.stored) :
    ref.size = 3 + ((t.namesTo way e).map fun name => 5 + name.length).sum := by
  rw [size, hpath, ← map_name_pathOf, List.map_map, List.map_map]
  rfl

/-- A reference that has a target keeps it, one that has none gets the entity if its path can be
written and leads back to it. -/
theorem retargets_iff {s r : EntityRef ι κ} (hrelative : s.relative = false)
    (htarget : s.target = some e) (howner : s.owner.isValid)
    (hway : t.IsWay (t.objectOf e) way)
    (hsize : 3 + ((t.namesTo way e).map fun name => 5 + name.length).sum < 2 ^ 63) :
    Retargets t s r e ↔ (∀ name ∈ t.namesTo way e, name.length % 65536 < 32768) ∧
      (r.target = some e ∨ r.target = none ∧ t.getSceneFromOwner r.owner ∧ t.Unshadowed e ∧
        (t.namesTo way e).length < 65536 ∧ ∀ name ∈ t.namesTo way e, name.length < 32768) := by
  have hsave : ∀ fuel ≥ way.length + 2, s.save t fuel Stream.empty =
      (writeAll Stream.empty
        { s with path := (t.pathOf way e).map PathItem.stored : EntityRef ι κ }.items).map
          fun m => ({ s with path := (t.pathOf way e).map PathItem.stored }, m) := by
    intro fuel hfuel
    rw [save_eq, updatePath_eq hrelative htarget howner hway hfuel]
    rfl
  generalize hsaved : { s with path := (t.pathOf way e).map PathItem.stored : EntityRef ι κ } =
    saved at hsave
  have hpath : saved.path = (t.pathOf way e).map PathItem.stored := by rw [← hsaved]
  have hloadedRelative : (r.loadedFrom saved).relative = false := by
    rw [← hrelative, ← hsaved]
    rfl
  rw [← size_of_pathOf hpath, ← totalSize_items] at hsize
  constructor
  · rintro ⟨n, hn⟩
    obtain ⟨s', marshal, r', marshal', hs', hr', hreturns⟩ :=
      hn (max n (way.length + 2)) (Nat.le_max_left ..)
    rw [hsave _ (Nat.le_max_right ..)] at hs'
    obtain ⟨m, hm, heq⟩ := Option.map_eq_some_iff.mp hs'
    cases heq
    have hwritten := written_items.mp (written_of_writeAll hsize hm)
    have hnames := hwritten
    rw [hpath] at hnames
    have hnames := forall_written_iff.mp hnames
    refine ⟨hnames, ?_⟩
    obtain ⟨m₁, hm₁, hholds⟩ := writeAll_eq Stream.holds_empty (written_items.mpr hwritten)
      (length_nil_append_lt hsize)
    obtain rfl := Option.some.inj (hm.symm.trans hm₁)
    obtain ⟨m₂, hload⟩ := load_eq r hwritten hholds.rewind
    rw [hload] at hr'
    cases hr'
    cases hr : r.target with
    | some x =>
        left
        obtain ⟨ref', hrefresh, he⟩ := returns_iff.mp hreturns
        exact (refresh_target hrefresh hr).symm.trans he
    | none =>
        rw [returns_of_no_target hloadedRelative hr, loadedFrom, hpath] at hreturns
        exact .inr ⟨rfl, (leads_loaded_iff hway hnames).mp hreturns⟩
  · rintro ⟨hnames, hcase⟩
    have hwritten : ∀ item ∈ saved.path, item.Written := by
      rw [hpath]
      exact forall_written_iff.mpr hnames
    obtain ⟨m, hm, hholds⟩ := writeAll_eq Stream.holds_empty (written_items.mpr hwritten)
      (length_nil_append_lt hsize)
    obtain ⟨m₂, hload⟩ := load_eq r hwritten hholds.rewind
    refine ⟨way.length + 2, fun fuel hfuel => ⟨saved, m, _, m₂, ?_, hload, ?_⟩⟩
    · rw [hsave fuel hfuel, hm]
      rfl
    · rcases hcase with hr | ⟨hr, hleads⟩
      · exact returns_iff.mpr (refresh_of_target hloadedRelative hr hway hfuel)
      · rw [returns_of_no_target hloadedRelative hr, loadedFrom, hpath]
        exact (leads_loaded_iff hway hnames).mpr hleads

/-- A copy has no target and follows the path that is kept. -/
theorem copies_iff {s : EntityRef ι κ} {owner : OwnerRef ι κ} (hrelative : s.relative = false) :
    Copies t s owner e ↔
      t.getStoredEntity ⟨none, t.getSceneFromOwner owner⟩ s.path = some (some e) := by
  have hcopy : (s.copy owner).relative = false := hrelative
  constructor
  · rintro ⟨n, hn⟩
    exact (returns_of_no_target hcopy rfl).mp (hn n le_rfl)
  · intro h
    exact ⟨0, fun fuel _ => (returns_of_no_target hcopy rfl).mpr h⟩

/-- A path that was calculated at another moment. -/
theorem copies_iff_leadsTo {old : SceneTree ι κ StringAtom} {s : EntityRef ι κ}
    {owner : OwnerRef ι κ} {oldWay : List ι} {oldFuel : ℕ} (hrelative : s.relative = false)
    (hway : t.IsWay (t.objectOf e) way) (hold : old.IsWay (old.objectOf e) oldWay)
    (hpath : (old.calculatePath oldFuel (.ofEntity e)).map (List.map PathItem.stored) =
      some s.path) :
    Copies t s owner e ↔ t.getSceneFromOwner owner ∧ List.Forall₂ (LeadsTo old t id) way oldWay ∧
      ∀ c, e = .component c → t.componentName c = old.componentName c ∧
        old.ordinal c % 65536 = t.ordinal c := by
  obtain ⟨path, hcalculate, hstored⟩ := Option.map_eq_some_iff.mp hpath
  have hrenamed : (old.pathOf oldWay e).map (renamed id) = old.pathOf oldWay e :=
    List.map_id _
  rw [copies_iff hrelative, ← hstored, calculatePath_some hold hcalculate,
    getStoredEntity_map_stored, getEntity_eq_some_iff]
  cases t.getSceneFromOwner owner with
  | false =>
      refine iff_of_false (fun h => ?_) fun h => Bool.false_ne_true h.1
      rw [← hrenamed, ← List.take_length (l := (old.pathOf oldWay e).map (renamed id))] at h
      exact not_leads_of_no_scene h
  | true =>
      rw [and_iff_right rfl, ← hrenamed]
      exact leads_renamed_iff hway

/-- When the getters return the target of a reference, from another one that has loaded what the
reference saved and from a copy. -/
theorem reaches_iff {s : EntityRef ι κ} (hrelative : s.relative = false)
    (htarget : s.target = some e) (howner : s.owner.isValid)
    (hway : t.IsWay (t.objectOf e) way)
    (hsize : 3 + ((t.namesTo way e).map fun name => 5 + name.length).sum < 2 ^ 63) :
    (∀ r, Retargets t s r e ↔ (∀ name ∈ t.namesTo way e, name.length % 65536 < 32768) ∧
      (r.target = some e ∨ r.target = none ∧ t.getSceneFromOwner r.owner ∧ t.Unshadowed e ∧
        (t.namesTo way e).length < 65536 ∧ ∀ name ∈ t.namesTo way e, name.length < 32768)) ∧
    (∀ owner, Copies t s owner e ↔
      t.getStoredEntity ⟨none, t.getSceneFromOwner owner⟩ s.path = some (some e)) ∧
    ∀ (old : SceneTree ι κ StringAtom) (oldWay : List ι) (oldFuel : ℕ),
      old.IsWay (old.objectOf e) oldWay →
      (old.calculatePath oldFuel (.ofEntity e)).map (List.map PathItem.stored) = some s.path →
      ∀ owner, Copies t s owner e ↔ t.getSceneFromOwner owner ∧
        List.Forall₂ (LeadsTo old t id) way oldWay ∧ ∀ c, e = .component c →
          t.componentName c = old.componentName c ∧ old.ordinal c % 65536 = t.ordinal c :=
  ⟨fun _ => retargets_iff hrelative htarget howner hway hsize,
    fun _ => copies_iff hrelative,
    fun _ _ _ hold hpath _ => copies_iff_leadsTo hrelative hway hold hpath⟩

end

/-- Two roots, the first of this name. -/
def rootsNamed (first : StringAtom) : SceneTree Bool Empty StringAtom where
  roots := [false, true]
  children _ := []
  parent _ := none
  name i := cond i [98] first
  components _ := []
  owner := Empty.elim
  componentName := Empty.elim
  forest := {
    mem_children := by simp
    nodup := fun _ => List.nodup_nil
    rooted := fun _ => .top rfl }
  mem_roots := by decide
  nodup_roots := by decide
  mem_components := fun c => c.elim
  nodup_components := fun _ => List.nodup_nil

def rootRef (path : List StoredItem) (target : Option Bool) : EntityRef Bool Empty where
  path := path
  relative := false
  owner := .ofScene
  target := target.map .object

theorem reaches_iff_sample :
    Retargets (rootsNamed [97]) (rootRef [] (some false)) (rootRef [] none) (.object false) ∧
      ¬Copies (rootsNamed [97]) (rootRef [] (some false)) .ofScene (.object false) := by
  have hway : (rootsNamed [97]).IsWay (some false) [false] := .top rfl
  have h := reaches_iff (t := rootsNamed [97]) (s := rootRef [] (some false)) rfl rfl rfl hway
    (by decide)
  refine ⟨(h.1 _).mpr ⟨by decide, .inr ⟨rfl, rfl, ?_, by decide, by decide⟩⟩, fun hcopies => ?_⟩
  · rw [← resolves_iff]
    exact ⟨3, fun fuel hfuel => by
      obtain ⟨fuel, rfl⟩ := Nat.exists_eq_add_of_le hfuel
      rw [Nat.add_comm]
      rfl⟩
  · exact absurd ((h.2.1 _).mp hcopies) (by decide)

/-- A reference to another root keeps its target over `Load`, and the copy of a reference whose
target was renamed follows the old name. -/
theorem not_reaches :
    ¬Retargets (rootsNamed [97]) (rootRef [] (some false)) (rootRef [] (some true))
        (.object false) ∧
      ((rootsNamed [97]).calculatePath 3 (.ofEntity (.object false))).map
          (List.map PathItem.stored) = some (rootRef [⟨[97], 0, 1⟩] (some false)).path ∧
      ¬Copies (rootsNamed [99]) (rootRef [⟨[97], 0, 1⟩] (some false)) .ofScene
        (.object false) := by
  have hway : (rootsNamed [97]).IsWay (some false) [false] := .top rfl
  refine ⟨fun h => ?_, rfl, fun h => ?_⟩
  · have h := (retargets_iff (s := rootRef [] (some false)) rfl rfl rfl hway (by decide)).mp h
    rcases h.2 with htarget | ⟨htarget, -⟩ <;> cases htarget
  · exact absurd ((copies_iff rfl).mp h) (by decide)

end EntityRef

end SRCommon
