import SRCommon.ECS.SceneObject
import SRCommon.Lib.ParentForest
import SRCommon.Lib.PartialRun

/-!
# Links of the hierarchy

What the operations on scene objects do to parents and children. `UpdateRoot`
changes roots only, so a rejected `SetParent` leaves all but the roots as it was.
-/

namespace SRCommon

namespace SceneHierarchy

variable {ι ε : Type}

def parentOf (s : SceneHierarchy ι ε) (i : ι) : Option ι := (s i).bind SceneObject.parent

def childrenOf (s : SceneHierarchy ι ε) (i : ι) : List ι := (s i).elim [] SceneObject.children

def idOf (s : SceneHierarchy ι ε) (i : ι) : Option ε := (s i).map SceneObject.entityId

def pathOf (s : SceneHierarchy ι ε) (i : ι) : Option (List ε) := (s i).map SceneObject.entityPath

/-- All but the roots. -/
def rootless (s : SceneHierarchy ι ε) : SceneHierarchy ι ε :=
  fun i => (s i).map fun object => { object with root := none }

section

variable (s : SceneHierarchy ι ε)

@[simp] theorem parentOf_rootless : s.rootless.parentOf = s.parentOf := by
  funext i
  rw [parentOf, rootless, parentOf]
  cases s i <;> rfl

@[simp] theorem childrenOf_rootless : s.rootless.childrenOf = s.childrenOf := by
  funext i
  rw [childrenOf, rootless, childrenOf]
  cases s i <;> rfl

@[simp] theorem idOf_rootless : s.rootless.idOf = s.idOf := by
  funext i
  rw [idOf, rootless, idOf]
  cases s i <;> rfl

@[simp] theorem pathOf_rootless : s.rootless.pathOf = s.pathOf := by
  funext i
  rw [pathOf, rootless, pathOf]
  cases s i <;> rfl

@[simp] theorem isSome_rootless (i : ι) : (s.rootless i).isSome = (s i).isSome := Option.isSome_map

end

theorem parentOf_eq {s : SceneHierarchy ι ε} {i : ι} {o : SceneObject ι ε} (hi : s i = some o) :
    s.parentOf i = o.parent := by
  rw [parentOf, hi]
  rfl

theorem childrenOf_eq {s : SceneHierarchy ι ε} {i : ι} {o : SceneObject ι ε} (hi : s i = some o) :
    s.childrenOf i = o.children := by
  rw [childrenOf, hi]
  rfl

theorem idOf_eq {s : SceneHierarchy ι ε} {i : ι} {o : SceneObject ι ε} (hi : s i = some o) :
    s.idOf i = some o.entityId := by
  rw [idOf, hi]
  rfl

theorem isSome_of_parentOf {s : SceneHierarchy ι ε} {i p : ι} (h : s.parentOf i = some p) :
    (s i).isSome := by
  obtain ⟨object, hobject, -⟩ := Option.bind_eq_some_iff.mp h
  rw [hobject]
  rfl

theorem isSome_of_mem_childrenOf {s : SceneHierarchy ι ε} {i c : ι} (h : c ∈ s.childrenOf i) :
    (s i).isSome := by
  rw [childrenOf] at h
  cases hi : s i with
  | none => simp [hi] at h
  | some => rfl

section

variable {s s' : SceneHierarchy ι ε} {p : ι}

theorem parentOf_of_rootless (h : s'.rootless = s.rootless) : s'.parentOf = s.parentOf := by
  rw [← parentOf_rootless, h, parentOf_rootless]

theorem childrenOf_of_rootless (h : s'.rootless = s.rootless) : s'.childrenOf = s.childrenOf := by
  rw [← childrenOf_rootless, h, childrenOf_rootless]

theorem idOf_of_rootless (h : s'.rootless = s.rootless) : s'.idOf = s.idOf := by
  rw [← idOf_rootless, h, idOf_rootless]

theorem pathOf_of_rootless (h : s'.rootless = s.rootless) : s'.pathOf = s.pathOf := by
  rw [← pathOf_rootless, h, pathOf_rootless]

theorem isSome_of_rootless (h : s'.rootless = s.rootless) (j : ι) :
    (s' j).isSome = (s j).isSome := by
  rw [← isSome_rootless, h, isSome_rootless]

/-- No parent is freed. -/
def ParentsLive (s : SceneHierarchy ι ε) : Prop :=
  ∀ i p, s.parentOf i = some p → (s p).isSome

theorem valid_some (h : (s p).isSome) : s.valid (some p) = some p := by
  rw [valid, Option.filter_some, if_pos h]

theorem valid_parentOf (hlive : s.ParentsLive) (i : ι) : s.valid (s.parentOf i) = s.parentOf i := by
  cases hp : s.parentOf i with
  | none => rfl
  | some p => exact valid_some (hlive i p hp)

/-- The entity path of an object is the ids down to it, and its id is met once. -/
def Traced (s : SceneHierarchy ι ε) (i : ι) : Prop :=
  ∃ l path, ParentForest.Lineage s.parentOf i l ∧ s.pathOf i = some path ∧
    path.map some = (l.map s.idOf).reverse ∧ ∀ a ∈ l.tail, s.idOf a ≠ s.idOf i

end

section

variable [DecidableEq ε] {s : SceneHierarchy ι ε} {fuel : ℕ}

/-- A walk that comes to an end has met the ancestors. -/
theorem walkEntityPath_some (hlive : s.ParentsLive) {entityId : ε} {current : ι}
    {path path' : List ε} (h : s.walkEntityPath entityId fuel current path = some (some path')) :
    ∃ l, ParentForest.Lineage s.parentOf current l ∧
      path'.map some = (l.map s.idOf).reverse ++ path.map some ∧
      ∀ a ∈ l.tail, s.idOf a ≠ some entityId := by
  induction fuel generalizing current path with
  | zero => cases h
  | succ fuel ih =>
      obtain ⟨o, ho, h⟩ := Option.bind_eq_some_iff.mp h
      have hid := idOf_eq ho
      rw [← parentOf_eq ho, valid_parentOf hlive] at h
      cases hp : s.parentOf current with
      | none =>
          rw [hp] at h
          cases h
          refine ⟨[current], .top hp, ?_, by simp⟩
          simp [hid]
      | some p =>
          rw [hp] at h
          obtain ⟨q, hq, h⟩ := Option.bind_eq_some_iff.mp h
          split at h
          · cases h
          rename_i hne
          obtain ⟨l, hl, hpath, hids⟩ := ih h
          refine ⟨current :: l, .step hp hl, ?_, fun a ha => ?_⟩
          · simp [hpath, hid]
          · rw [List.tail_cons, hl.eq_cons] at ha
            rcases List.mem_cons.mp ha with rfl | ha
            · rw [idOf_eq hq]
              exact fun heq => hne (Option.some.inj heq)
            · exact hids a ha

/-- A walk that is broken off has met the id. -/
theorem walkEntityPath_none (hlive : s.ParentsLive) {entityId : ε} {current : ι}
    {path : List ε} {l : List ι} (hl : ParentForest.Lineage s.parentOf current l)
    (h : s.walkEntityPath entityId fuel current path = some none) :
    ∃ a ∈ l.tail, s.idOf a = some entityId := by
  induction fuel generalizing current path l with
  | zero => cases h
  | succ fuel ih =>
      obtain ⟨o, ho, h⟩ := Option.bind_eq_some_iff.mp h
      rw [← parentOf_eq ho, valid_parentOf hlive] at h
      cases hl with
      | top hp =>
          rw [hp] at h
          cases h
      | step hp hl =>
          rw [hp] at h
          obtain ⟨q, hq, h⟩ := Option.bind_eq_some_iff.mp h
          split at h
          · rename_i heq
            exact ⟨_, hl.mem_self, heq ▸ idOf_eq hq⟩
          · obtain ⟨a, ha, hid⟩ := ih hl h
            exact ⟨a, List.mem_of_mem_tail ha, hid⟩

end

section

variable [DecidableEq ι] {s s' s₁ : SceneHierarchy ι ε} {i : ι} {o o' : SceneObject ι ε}

@[simp] theorem put_self : s.put i o i = some o := Function.update_self ..

theorem put_of_ne {j : ι} (h : j ≠ i) : s.put i o j = s j := Function.update_of_ne h ..

@[simp] theorem free_self : s.free i i = none := Function.update_self ..

theorem free_of_ne {j : ι} (h : j ≠ i) : s.free i j = s j := Function.update_of_ne h ..

theorem put_eq_self (h : s i = some o) : s.put i o = s := Function.update_eq_self_iff.mpr h.symm

theorem put_put : (s.put i o).put i o' = s.put i o' := Function.update_idem ..

theorem isSome_put_iff {j : ι} : (s.put i o j).isSome ↔ j = i ∨ (s j).isSome := by
  rcases eq_or_ne j i with rfl | hj
  · simp
  · rw [put_of_ne hj]
    simp [hj]

theorem parentOf_put : (s.put i o).parentOf = Function.update s.parentOf i o.parent := by
  funext j
  rcases eq_or_ne j i with rfl | hj
  · rw [parentOf, put_self, Function.update_self]
    rfl
  · rw [parentOf, put_of_ne hj, Function.update_of_ne hj]
    rfl

theorem childrenOf_put : (s.put i o).childrenOf = Function.update s.childrenOf i o.children := by
  funext j
  rcases eq_or_ne j i with rfl | hj
  · rw [childrenOf, put_self, Function.update_self]
    rfl
  · rw [childrenOf, put_of_ne hj, Function.update_of_ne hj]
    rfl

theorem rootless_put :
    (s.put i o).rootless = s.rootless.put i { o with root := none } := by
  funext j
  rcases eq_or_ne j i with rfl | hj
  · rw [rootless, put_self, put_self]
    rfl
  · rw [rootless, put_of_ne hj, put_of_ne hj]
    rfl

theorem parentOf_put_same (hi : s i = some o) (h : o'.parent = o.parent) :
    (s.put i o').parentOf = s.parentOf := by
  rw [parentOf_put, Function.update_eq_self_iff, h, parentOf, hi]
  rfl

theorem childrenOf_put_same (hi : s i = some o) (h : o'.children = o.children) :
    (s.put i o').childrenOf = s.childrenOf := by
  rw [childrenOf_put, Function.update_eq_self_iff, h, childrenOf, hi]
  rfl

/-- A new object without links. -/
theorem parentOf_put_new (hi : s i = none) (h : o.parent = none) :
    (s.put i o).parentOf = s.parentOf := by
  rw [parentOf_put, Function.update_eq_self_iff, h, parentOf, hi]
  rfl

theorem childrenOf_put_new (hi : s i = none) (h : o.children = []) :
    (s.put i o).childrenOf = s.childrenOf := by
  rw [childrenOf_put, Function.update_eq_self_iff, h, childrenOf, hi]
  rfl

/-- A put that changes the children only. -/
theorem parentOf_put_children (hi : s i = some o) (children : List ι) :
    (s.put i { o with children := children }).parentOf = s.parentOf :=
  parentOf_put_same hi rfl

theorem idOf_put_same (hi : s i = some o) (h : o'.entityId = o.entityId) :
    (s.put i o').idOf = s.idOf := by
  funext j
  rcases eq_or_ne j i with rfl | hj
  · rw [idOf, put_self, idOf, hi, Option.map_some, Option.map_some, h]
  · rw [idOf, put_of_ne hj, idOf]

theorem pathOf_put_of_ne {j : ι} (hj : j ≠ i) : (s.put i o).pathOf j = s.pathOf j := by
  rw [pathOf, put_of_ne hj, pathOf]

/-- A put that changes the root only. -/
theorem rootless_put_same (hi : s i = some o)
    (h : { o' with root := none } = ({ o with root := none } : SceneObject ι ε)) :
    (s.put i o').rootless = s.rootless := by
  rw [rootless_put, h]
  apply put_eq_self
  rw [rootless, hi]
  rfl

/-- The assignment of `UpdateRoot` to one object. -/
def assignRoot (s : SceneHierarchy ι ε) (i : ι) (o : SceneObject ι ε) : SceneHierarchy ι ε :=
  s.put i { o with root := (s.valid o.parent).elim (some i) s.rootOf }

theorem rootless_assignRoot (hi : s i = some o) : (s.assignRoot i o).rootless = s.rootless :=
  rootless_put_same hi rfl

/-- A property that the first assignment of `UpdateRoot` brings about and the others keep. -/
theorem updateRoot_induction {P : SceneHierarchy ι ε → Prop} {V : ι → Prop}
    (hchildren : ∀ t k, P t → ∀ c ∈ t.childrenOf k, V c)
    (hassign : ∀ t k o, P t → V k → t k = some o → P (t.assignRoot k o))
    {fuel : ℕ} (hfirst : ∀ o, s i = some o → P (s.assignRoot i o))
    (h : updateRoot fuel s i = some s') : P s' := by
  induction fuel generalizing s s' i with
  | zero => cases h
  | succ fuel ih =>
      obtain ⟨o, ho, hloop⟩ := Option.bind_eq_some_iff.mp h
      have hvisited : ∀ c ∈ o.children, V c := fun c hc =>
        hchildren _ i (hfirst o ho) c (by rwa [assignRoot, childrenOf, put_self])
      exact (Steps.foldlM_invariant (I := fun rest t => (∀ c ∈ rest, V c) ∧ P t)
        (fun c rest t t' ht hc => ⟨fun d hd => ht.1 d (List.mem_cons_of_mem _ hd),
          ih (fun o ho => hassign t c o ht.2 (ht.1 c List.mem_cons_self) ho) hc⟩)
        ⟨hvisited, hfirst o ho⟩ hloop).2

theorem rootless_updateRoot {fuel : ℕ} (h : updateRoot fuel s i = some s') :
    s'.rootless = s.rootless :=
  updateRoot_induction (P := fun t => t.rootless = s.rootless) (V := fun _ => True)
    (fun _ _ _ _ _ => trivial) (fun _ _ _ ht _ hk => (rootless_assignRoot hk).trans ht)
    (fun _ ho => rootless_assignRoot ho) h

end

section

variable [DecidableEq ι] {s s' : SceneHierarchy ι ε} {fuel : ℕ} {c p : ι} {np : Option ι}

/-- What `SetParent` has done when it succeeds. -/
structure Linked (s : SceneHierarchy ι ε) (c : ι) (np : Option ι) (s' : SceneHierarchy ι ε) :
    Prop where
  parentOf : s'.parentOf = Function.update s.parentOf c np
  childrenOf : s'.childrenOf = s.childrenOf
  idOf : s'.idOf = s.idOf
  pathOf : ∀ i, i ≠ c → s'.pathOf i = s.pathOf i
  traced : s'.Traced c

theorem Linked.isSome (h : Linked s c np s') (i : ι) : (s' i).isSome = (s i).isSome := by
  have hid := congrArg Option.isSome (congrFun h.idOf i)
  rwa [SceneHierarchy.idOf, SceneHierarchy.idOf, Option.isSome_map, Option.isSome_map] at hid

/-- The links after the parent is changed and the roots are updated. -/
theorem links_of_updateRoot {s₁ : SceneHierarchy ι ε} {o : SceneObject ι ε} (hlive : s.ParentsLive)
    (hnp : ∀ p, np = some p → (s p).isSome) (ho : s c = some o)
    (hs₁ : updateRoot fuel (s.put c { o with parent := np }) c = some s₁) :
    s₁.parentOf = Function.update s.parentOf c np ∧ s₁.childrenOf = s.childrenOf ∧
      s₁.idOf = s.idOf ∧ s₁.ParentsLive := by
  have hrootless := rootless_updateRoot hs₁
  have hparents : s₁.parentOf = Function.update s.parentOf c np :=
    (parentOf_of_rootless hrootless).trans parentOf_put
  refine ⟨hparents, (childrenOf_of_rootless hrootless).trans (childrenOf_put_same ho rfl),
    (idOf_of_rootless hrootless).trans (idOf_put_same ho rfl), fun i p hp => ?_⟩
  · rw [isSome_of_rootless hrootless, isSome_put_iff]
    rw [hparents] at hp
    rcases eq_or_ne i c with rfl | hi
    · exact .inr (hnp p (by rwa [Function.update_self] at hp))
    · exact .inr (hlive i p (by rwa [Function.update_of_ne hi] at hp))

/-- The checks of `AddChild` before it calls `SetParent`. -/
def attaches (s : SceneHierarchy ι ε) (p c : ι) : Bool :=
  c ≠ p && (s.valid (s.parentOf c)).isNone && c ∉ s.childrenOf p

theorem attaches_iff : s.attaches p c = true ↔
    c ≠ p ∧ s.valid (s.parentOf c) = none ∧ c ∉ s.childrenOf p := by
  simp [attaches, and_assoc]

end

section

variable [DecidableEq ι] [DecidableEq ε] {s s' : SceneHierarchy ι ε} {fuel : ℕ} {c p : ι}
  {np : Option ι} {ok : Bool}

/-- The two ways through `SetParent` past its first check. -/
theorem setParent_cases (h : setParent fuel s c np = some (s', ok)) :
    ∃ o, s c = some o ∧
      ((np = o.parent ∧ s' = s ∧ ok = false) ∨
        np ≠ o.parent ∧ ∃ s₁ o₁,
          updateRoot fuel (s.put c { o with parent := np }) c = some s₁ ∧ s₁ c = some o₁ ∧
          ((∃ path, s₁.walkEntityPath o₁.entityId fuel c [] = some (some path) ∧
              s' = s₁.put c { o₁ with entityPath := path } ∧ ok = true) ∨
            s₁.walkEntityPath o₁.entityId fuel c [] = some none ∧
              updateRoot fuel (s₁.put c { o₁ with parent := o.parent }) c = some s' ∧
              ok = false)) := by
  obtain ⟨o, ho, h⟩ := Option.bind_eq_some_iff.mp h
  refine ⟨o, ho, ?_⟩
  split at h
  · rename_i heq
    cases h
    exact .inl ⟨heq, rfl, rfl⟩
  rename_i hne
  refine .inr ⟨hne, ?_⟩
  obtain ⟨s₁, hs₁, h⟩ := Option.bind_eq_some_iff.mp h
  obtain ⟨⟨s₂, updated⟩, hpath, h⟩ := Option.bind_eq_some_iff.mp h
  obtain ⟨o₁, ho₁, hwalk⟩ := Option.bind_eq_some_iff.mp hpath
  obtain ⟨walked, hwalked, hr⟩ := Option.map_eq_some_iff.mp hwalk
  refine ⟨s₁, o₁, hs₁, ho₁, ?_⟩
  cases walked with
  | none =>
      cases hr
      obtain ⟨o₂, ho₂, h⟩ := Option.bind_eq_some_iff.mp h
      obtain ⟨s₃, hs₃, hr⟩ := Option.map_eq_some_iff.mp h
      cases hr
      cases ho₁.symm.trans ho₂
      exact .inr ⟨hwalked, hs₃, rfl⟩
  | some path =>
      cases hr
      cases h
      exact .inl ⟨path, hwalked, rfl, rfl⟩

theorem linked_of_setParent (hlive : s.ParentsLive) (hnp : ∀ p, np = some p → (s p).isSome)
    (h : setParent fuel s c np = some (s', true)) : Linked s c np s' := by
  obtain ⟨o, ho, ⟨-, -, hok⟩ | ⟨-, s₁, o₁, hs₁, ho₁, ⟨path, hwalk, hs', -⟩ | ⟨-, -, hok⟩⟩⟩ :=
    setParent_cases h
  · cases hok
  · have hrootless := rootless_updateRoot hs₁
    obtain ⟨hparents, hchildren, hids, hlive₁⟩ := links_of_updateRoot hlive hnp ho hs₁
    obtain ⟨l, hl, hpath, hne⟩ := walkEntityPath_some hlive₁ hwalk
    have hid := idOf_eq ho₁
    have hparents' : s'.parentOf = s₁.parentOf := by
      rw [hs']
      exact parentOf_put_same ho₁ rfl
    have hchildren' : s'.childrenOf = s₁.childrenOf := by
      rw [hs']
      exact childrenOf_put_same ho₁ rfl
    have hids' : s'.idOf = s₁.idOf := by
      rw [hs']
      exact idOf_put_same ho₁ rfl
    refine ⟨hparents'.trans hparents, hchildren'.trans hchildren, hids'.trans hids,
      fun i hi => ?_, l, path, hparents' ▸ hl, ?_, ?_, ?_⟩
    · rw [hs', pathOf_put_of_ne hi, pathOf_of_rootless hrootless, pathOf_put_of_ne hi]
    · rw [hs', pathOf, put_self]
      rfl
    · rw [hids', hpath, List.map_nil, List.append_nil]
    · rw [hids', hid]
      exact hne
  · cases hok

theorem rootless_of_setParent (h : setParent fuel s c np = some (s', false)) :
    s'.rootless = s.rootless := by
  obtain ⟨o, ho, ⟨-, rfl, -⟩ | ⟨-, s₁, o₁, hs₁, ho₁, ⟨-, -, -, hok⟩ | ⟨-, hs', -⟩⟩⟩ :=
    setParent_cases h
  · rfl
  · cases hok
  · have hrootless := rootless_updateRoot hs₁
    have ho₁' : { o₁ with root := none } = { o with parent := np, root := none } := by
      have heq := congrFun hrootless c
      rw [rootless_put, put_self, rootless, ho₁] at heq
      exact Option.some.inj heq
    have hback : { o₁ with parent := o.parent, root := none } = { o with root := none } :=
      congrArg (fun object => { object with parent := o.parent }) ho₁'
    have hself : s.rootless c = some { o with root := none } := by rw [rootless, ho]; rfl
    rw [rootless_updateRoot hs', rootless_put, hrootless, rootless_put, put_put]
    exact (congrArg (s.rootless.put c) hback).trans (put_eq_self hself)

/-- `SetParent` does nothing when it is given the present parent. -/
theorem setParent_same (hnp : np = s.parentOf c) (h : setParent fuel s c np = some (s', ok)) :
    s' = s := by
  obtain ⟨o, ho, ⟨-, rfl, -⟩ | ⟨hne, -⟩⟩ := setParent_cases h
  · rfl
  · exact absurd (hnp.trans (parentOf_eq ho)) hne

/-- Without a parent the walk does not meet the id again. -/
theorem setParent_none (hc : s.parentOf c ≠ none) (h : setParent fuel s c none = some (s', ok)) :
    ok = true := by
  obtain ⟨o, ho, ⟨heq, -, -⟩ | ⟨-, s₁, o₁, hs₁, ho₁, ⟨-, -, -, hok⟩ | ⟨hwalk, -, -⟩⟩⟩ :=
    setParent_cases h
  · exact absurd ((parentOf_eq ho).trans heq.symm) hc
  · exact hok
  · have hparent : o₁.parent = none := by
      rw [← parentOf_eq ho₁, parentOf_of_rootless (rootless_updateRoot hs₁), parentOf_put,
        Function.update_self]
    cases fuel with
    | zero => cases hwalk
    | succ fuel =>
        rw [walkEntityPath, ho₁, Option.bind_some, hparent] at hwalk
        cases hwalk

/-- Cutting off the parent changes nothing else, and nothing when there is none. -/
theorem links_of_setParent_none (hlive : s.ParentsLive)
    (h : setParent fuel s c none = some (s', ok)) :
    s'.parentOf = Function.update s.parentOf c none ∧ s'.childrenOf = s.childrenOf := by
  cases hc : s.parentOf c with
  | none =>
      rw [setParent_same hc.symm h]
      exact ⟨(Function.update_eq_self_iff.mpr hc.symm).symm, rfl⟩
  | some p =>
      cases setParent_none (by simp [hc]) h
      have hlinked := linked_of_setParent hlive (by simp) h
      exact ⟨hlinked.parentOf, hlinked.childrenOf⟩

theorem removeChild_eq (h : removeChild fuel s p c = some s') :
    ∃ s₁ ok o, setParent fuel s c none = some (s₁, ok) ∧ s₁ p = some o ∧
      s' = s₁.put p { o with children := o.children.erase c } := by
  obtain ⟨⟨s₁, ok⟩, hs₁, h⟩ := Option.bind_eq_some_iff.mp h
  obtain ⟨o, ho, h⟩ := Option.bind_eq_some_iff.mp h
  refine ⟨s₁, ok, o, hs₁, ho, ?_⟩
  split at h
  · cases h
    rfl
  split at h
  · rename_i hmem hlength
    cases h
    rw [List.take_of_length_le (Nat.le_of_lt hlength)] at hmem
    rw [List.erase_of_not_mem hmem]
    exact (put_eq_self ho).symm
  · cases h

theorem leaveParent_cases (hlive : s.ParentsLive) (h : leaveParent fuel s c = some s') :
    (s.parentOf c = none ∧ s' = s) ∨
      ∃ p, s.parentOf c = some p ∧ removeChild fuel s p c = some s' := by
  obtain ⟨o, ho, h⟩ := Option.bind_eq_some_iff.mp h
  rw [← parentOf_eq ho, valid_parentOf hlive] at h
  cases hp : s.parentOf c with
  | none =>
      rw [hp] at h
      exact .inl ⟨rfl, (Option.some.inj h).symm⟩
  | some p =>
      rw [hp] at h
      exact .inr ⟨p, rfl, h⟩

/-- `AddChild` stops at its checks, or answers what `SetParent` answers. -/
theorem addChild_cases (h : addChild fuel s p c = some (s', ok)) : (s p).isSome ∧
    ((s.attaches p c = false ∧ s' = s ∧ ok = false) ∨
      s.attaches p c = true ∧ ∃ s₁, setParent fuel s c (some p) = some (s₁, ok) ∧
        (ok = false ∧ s' = s₁ ∨ ok = true ∧ ∃ o, s₁ p = some o ∧
          s' = s₁.put p { o with children := o.children ++ [c] })) := by
  obtain ⟨object, hobject, h⟩ := Option.bind_eq_some_iff.mp h
  refine ⟨by rw [hobject]; rfl, ?_⟩
  rw [← Bool.not_eq_true, attaches_iff]
  split at h
  · rename_i heq
    cases h
    exact .inl ⟨fun hall => hall.1 heq, rfl, rfl⟩
  rename_i hne
  obtain ⟨child, hchild, h⟩ := Option.bind_eq_some_iff.mp h
  rw [← childrenOf_eq hobject, ← parentOf_eq hchild] at h
  split at h
  · rename_i hparent
    cases h
    refine .inl ⟨fun hall => ?_, rfl, rfl⟩
    rw [hall.2.1] at hparent
    cases hparent
  rename_i hparent
  split at h
  · rename_i hmem
    cases h
    exact .inl ⟨fun hall => hall.2.2 hmem, rfl, rfl⟩
  rename_i hmem
  refine .inr ⟨⟨hne, by simpa using hparent, hmem⟩, ?_⟩
  obtain ⟨⟨s₁, isSet⟩, hs₁, h⟩ := Option.bind_eq_some_iff.mp h
  cases isSet with
  | false =>
      cases h
      exact ⟨s', hs₁, .inl ⟨rfl, rfl⟩⟩
  | true =>
      obtain ⟨o, ho, hr⟩ := Option.map_eq_some_iff.mp h
      cases hr
      exact ⟨s₁, hs₁, .inr ⟨rfl, o, ho, rfl⟩⟩

/-- What `AddChild` has done when it succeeds. -/
structure Attached (s : SceneHierarchy ι ε) (p c : ι) (s' : SceneHierarchy ι ε) : Prop where
  attaches : s.attaches p c = true
  parentOf : s'.parentOf = Function.update s.parentOf c (some p)
  childrenOf : s'.childrenOf = Function.update s.childrenOf p (s.childrenOf p ++ [c])
  rooted : ParentForest.Rooted s'.parentOf c

theorem addChild_links (hlive : s.ParentsLive) (h : addChild fuel s p c = some (s', ok)) :
    (ok = false ∧ s'.rootless = s.rootless) ∨ (ok = true ∧ Attached s p c s') := by
  obtain ⟨hp, ⟨-, rfl, hok⟩ | ⟨hattaches, s₁, hs₁, ⟨rfl, rfl⟩ | ⟨rfl, o, ho, rfl⟩⟩⟩ :=
    addChild_cases h
  · exact .inl ⟨hok, rfl⟩
  · exact .inl ⟨rfl, rootless_of_setParent hs₁⟩
  have hlinked := linked_of_setParent hlive (fun q hq => Option.some.inj hq ▸ hp) hs₁
  obtain ⟨l, -, hl, -⟩ := hlinked.traced
  have hlist : o.children = s.childrenOf p := by rw [← hlinked.childrenOf, childrenOf_eq ho]
  have hparents := parentOf_put_children ho (o.children ++ [c])
  refine .inr ⟨rfl, hattaches, hparents.trans hlinked.parentOf, ?_, l, hparents ▸ hl⟩
  rw [childrenOf_put, hlinked.childrenOf, hlist]

theorem moveToTree_cases {destination : Option ι}
    (h : moveToTree fuel s c destination = some (s', ok)) :
    ∃ s₁, leaveParent fuel s c = some s₁ ∧ ((s₁.valid destination = none ∧ s' = s₁) ∨
      ∃ p, s₁.valid destination = some p ∧ addChild fuel s₁ p c = some (s', ok)) := by
  obtain ⟨s₁, hs₁, hmove⟩ := Option.bind_eq_some_iff.mp h
  refine ⟨s₁, hs₁, ?_⟩
  split at hmove
  · rename_i p hp
    exact .inr ⟨p, hp, hmove⟩
  · rename_i hnone
    obtain ⟨o, -, hr⟩ := Option.map_eq_some_iff.mp hmove
    cases hr
    exact .inl ⟨hnone, rfl⟩

theorem create_eq {entityId : ε} {hasScene : Bool}
    (h : create fuel s c entityId hasScene = some s') :
    s c = none ∧ s' = s.put c { entityId, hasScene, entityPath := [entityId] } := by
  rw [create] at h
  split at h
  · cases h
  rename_i hc
  refine ⟨by simpa using hc, ?_⟩
  obtain ⟨r, hr, rfl⟩ := Option.map_eq_some_iff.mp h
  rw [updateEntityPath, put_self, Option.bind_some] at hr
  cases fuel with
  | zero => cases hr
  | succ fuel =>
      rw [walkEntityPath, put_self] at hr
      cases hr
      exact put_put

end

end SceneHierarchy

end SRCommon
