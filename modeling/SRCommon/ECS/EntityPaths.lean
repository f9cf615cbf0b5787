import Mathlib.Data.List.Induction
import SRCommon.ECS.EntityRefUtils

/-!
# Paths from the scene

Where a path leads that `CalculatePath` has written. At every level the loop of
`GetEntity` goes on to the last child of the name, so the entity comes back
exactly when no object on its way has a later sibling of the same name.
-/

namespace SRCommon

namespace SceneTree

open ParentForest (Descends Lineage descends_append)

section

variable {ι κ ν : Type} {t : SceneTree ι κ ν} {o : Option ι} {i j : ι} {r : List ι}

/-- The object that an entity is or belongs to; a component of the scene has none. -/
def objectOf (t : SceneTree ι κ ν) : Entity ι κ → Option ι
  | .object i => some i
  | .component c => t.owner c

/-- The objects from a root down to `o`. -/
def IsWay (t : SceneTree ι κ ν) : Option ι → List ι → Prop
  | none, r => r = []
  | some i, r => Lineage t.parent i r.reverse

/-- The object is the entity, the one it belongs to, or above them. -/
def OnWay (t : SceneTree ι κ ν) (e : Entity ι κ) (i : ι) : Prop :=
  ∃ r, t.IsWay (t.objectOf e) r ∧ i ∈ r

theorem exists_isWay (t : SceneTree ι κ ν) (o : Option ι) : ∃ r, t.IsWay o r := by
  cases o with
  | none => exact ⟨[], rfl⟩
  | some i =>
      obtain ⟨l, hl⟩ := t.forest.rooted i
      exact ⟨l.reverse, by rwa [IsWay, List.reverse_reverse]⟩

theorem IsWay.unique {r' : List ι} (h : t.IsWay o r) (h' : t.IsWay o r') :
    r = r' := by
  cases o with
  | none => exact h.trans h'.symm
  | some i => exact List.reverse_injective (Lineage.unique h h')

theorem onWay_iff {e : Entity ι κ} (h : t.IsWay (t.objectOf e) r) : t.OnWay e i ↔ i ∈ r :=
  ⟨fun ⟨_, h', hi⟩ => h'.unique h ▸ hi, fun hi => ⟨r, h, hi⟩⟩

theorem IsWay.descends (h : t.IsWay o r) : Descends t.parent none r := by
  cases o with
  | none =>
      cases h
      trivial
  | some i => exact r.reverse_reverse ▸ Lineage.descends h

theorem IsWay.getLast? (h : t.IsWay o r) : r.getLast? = o := by
  cases o with
  | none =>
      cases h
      rfl
  | some i =>
      rw [← List.head?_reverse, Lineage.eq_cons h]
      rfl

theorem IsWay.nodup (h : t.IsWay o r) : r.Nodup := by
  cases o with
  | none =>
      cases h
      exact List.nodup_nil
  | some i => exact List.nodup_reverse.mp (Lineage.nodup h)

theorem mem_siblings : i ∈ t.siblings o ↔ t.parent i = o := by
  cases o with
  | none => exact t.mem_roots i
  | some p => exact t.forest.mem_children i p

theorem nodup_siblings : (t.siblings o).Nodup := by
  cases o with
  | none => exact t.nodup_roots
  | some p => exact t.forest.nodup p

/-- Below what a step to a child looks. -/
def here (t : SceneTree ι κ ν) (owner : OwnerRef ι κ) : Option (Entity ι κ) → Option (Option ι)
  | some (.object i) => some (some i)
  | some (.component _) => none
  | none => match owner.pEntity with
      | some e => (t.objectOf e).map some
      | none => if owner.pScene then some none else none

/-- Whose components a step to a component looks at. -/
def holder (t : SceneTree ι κ ν) (owner : OwnerRef ι κ) : Option (Entity ι κ) → Option (Option ι)
  | some (.object i) => some (some i)
  | some (.component _) => none
  | none => if t.getSceneFromOwner owner then some none else none

variable {owner : OwnerRef ι κ} {e : Option (Entity ι κ)}

theorem tree_eq : t.tree owner e = (t.here owner e).map t.siblings := by
  obtain - | i | c := e
  · obtain ⟨- | i | c, pScene⟩ := owner
    · cases pScene <;> rfl
    · rfl
    · change (t.owner c).map t.children = ((t.owner c).map some).map t.siblings
      cases t.owner c <;> rfl
  · rfl
  · rfl

theorem componentsOf_eq : t.componentsOf owner e = (t.holder owner e).map t.components := by
  obtain - | i | c := e
  · rw [componentsOf, holder]
    split <;> rfl
  · rfl
  · rfl

theorem bind_eq_ok_iff {α β ε : Type} {x : Except ε α} {f : α → Except ε β} {b : β} :
    x >>= f = .ok b ↔ ∃ a, x = .ok a ∧ f a = .ok b := by
  constructor
  · intro h
    cases x with
    | error => cases h
    | ok a => exact ⟨a, rfl, h⟩
  · rintro ⟨a, rfl, h⟩
    exact h

theorem foldlM_singleton {α β ε : Type} {f : β → α → Except ε β} {a : α} {b : β} :
    [a].foldlM f b = f b a := by
  rw [List.foldlM_cons]
  exact bind_pure _

variable [DecidableEq ν]

theorem getEntity_eq_some_iff {path : RefPath ν} {target : Entity ι κ} :
    t.getEntity owner path = some (some target) ↔
      path.foldlM (t.follow owner) none = .ok (some target) := by
  rw [getEntity]
  rcases path.foldlM (t.follow owner) none with (- | -) | pEntity <;> simp

end

section

variable {ι κ ν : Type} {t : SceneTree ι κ ν} {i : ι} {r : List ι}
  {owner : OwnerRef ι κ} {e : Option (Entity ι κ)} [DecidableEq ι] [DecidableEq ν]

def LastNamed (t : SceneTree ι κ ν) (i : ι) : Prop :=
  ListSearch.IsLast t.name i (t.siblings (t.parent i))

theorem follow_objectItem {e' : Option (Entity ι κ)}
    (h : t.follow owner e (t.objectItem i) = .ok e') : ∃ j, e' = some (.object j) := by
  change t.actionChild owner e (t.objectItem i) = _ at h
  rw [actionChild] at h
  split at h
  · cases h
  split at h
  · cases h
    exact ⟨_, rfl⟩
  · cases h

theorem follow_objectItem_iff : t.follow owner e (t.objectItem i) = .ok (some (.object i)) ↔
    t.here owner e = some (t.parent i) ∧ t.LastNamed i := by
  have hindex : (t.objectItem i).index.toNat ≤
      ListSearch.ordinal t.name i (t.siblings (t.parent i)) := by
    rw [objectItem, UInt16.toNat_ofNat']
    exact Nat.mod_le _ _
  have hiff := ListSearch.last_eq_some_iff (mem_siblings.mpr rfl) hindex
  rw [LastNamed, ← hiff]
  change t.actionChild owner e (t.objectItem i) = _ ↔ _
  rw [actionChild, tree_eq]
  cases hhere : t.here owner e with
  | none => simp
  | some o =>
      dsimp only [Option.map_some, objectItem]
      constructor
      · intro h
        split at h
        · rename_i hlast
          cases h
          have ho : t.parent i = o := mem_siblings.mp (ListSearch.mem_of_last hlast)
          subst ho
          exact ⟨rfl, hlast⟩
        · cases h
      · rintro ⟨ho, hlast⟩
        cases ho
        rw [hlast]

theorem foldlM_objectItem_append {e' : Option (Entity ι κ)}
    (h : ((r ++ [i]).map t.objectItem).foldlM (t.follow owner) e = .ok e') :
    ∃ j, e' = some (.object j) := by
  rw [List.map_append, List.foldlM_append] at h
  obtain ⟨e₁, -, h⟩ := bind_eq_ok_iff.mp h
  obtain ⟨e₂, h, hnil⟩ := bind_eq_ok_iff.mp h
  cases hnil
  exact follow_objectItem h

/-- A way down leads to its last object if it is taken from where it starts and every object on it
is the last of its name. -/
theorem foldlM_descends {b : Option ι} (h : Descends t.parent b (r ++ [i])) :
    ((r ++ [i]).map t.objectItem).foldlM (t.follow owner) e = .ok (some (.object i)) ↔
      t.here owner e = some b ∧ ∀ j ∈ r ++ [i], t.LastNamed j := by
  have hsingle : ∀ (e : Option (Entity ι κ)) (i : ι),
      ([i].map t.objectItem).foldlM (t.follow owner) e = .ok (some (.object i)) ↔
        t.here owner e = some (t.parent i) ∧ t.LastNamed i := fun e i => by
    rw [List.map_singleton, foldlM_singleton]
    exact follow_objectItem_iff
  induction r using List.reverseRecOn generalizing i with
  | nil =>
      obtain ⟨hi, -⟩ := h
      rw [List.nil_append, hsingle, hi]
      simp
  | append_singleton r p ih =>
      obtain ⟨hr, hi, -⟩ := descends_append.mp h
      have hp : t.parent i = some p := by simpa using hi
      rw [List.map_append, List.foldlM_append, bind_eq_ok_iff]
      have hsplit : (∀ j ∈ r ++ [p] ++ [i], t.LastNamed j) ↔
          (∀ j ∈ r ++ [p], t.LastNamed j) ∧ t.LastNamed i := by
        simp only [List.mem_append, List.mem_singleton, or_imp, forall_and, forall_eq]
      have hfront : _ ↔ _ := ih hr
      rw [hsplit, ← and_assoc, ← hfront]
      constructor
      · rintro ⟨e', he', h⟩
        obtain ⟨hhere, hlast⟩ := (hsingle e' i).mp h
        obtain ⟨q, rfl⟩ := foldlM_objectItem_append he'
        rw [hp] at hhere
        cases hhere
        exact ⟨he', hlast⟩
      · rintro ⟨he', hlast⟩
        exact ⟨_, he', (hsingle _ i).mpr ⟨hp ▸ rfl, hlast⟩⟩

end

section

variable {ι κ ν : Type} {t : SceneTree ι κ ν} {c : κ} {owner : OwnerRef ι κ}
  {e : Option (Entity ι κ)} [DecidableEq κ] [DecidableEq ν]

/-- The number of components of the same name before the component. -/
def ordinal (t : SceneTree ι κ ν) (c : κ) : ℕ :=
  ListSearch.ordinal t.componentName c (t.components (t.owner c))

theorem follow_componentItem_iff :
    t.follow owner e (t.componentItem c) = .ok (some (.component c)) ↔
      t.holder owner e = some (t.owner c) ∧ t.ordinal c < 2 ^ 16 := by
  have hmem : c ∈ t.components (t.owner c) := (t.mem_components c _).mpr rfl
  have hindex : (t.componentItem c).index.toNat = t.ordinal c ↔ t.ordinal c < 2 ^ 16 := by
    rw [componentItem, UInt16.toNat_ofNat']
    exact Nat.mod_eq_iff_lt (by decide)
  have hiff : ListSearch.nth t.componentName (t.componentName c) (t.components (t.owner c))
      (t.componentItem c).index.toNat = some c ↔ _ :=
    ListSearch.nth_eq_some_iff (t.nodup_components _) hmem
  rw [← hindex, ordinal, ← hiff]
  change t.actionComponent owner e (t.componentItem c) = _ ↔ _
  rw [actionComponent, componentsOf_eq]
  cases hholder : t.holder owner e with
  | none => simp
  | some o =>
      rw [Option.map_some]
      cases hcomponents : t.components o with
      | nil =>
          have hne : o ≠ t.owner c := by
            rintro rfl
            rw [hcomponents] at hmem
            cases hmem
          simp [hne]
      | cons d ds =>
          dsimp only [componentItem]
          rw [← hcomponents]
          constructor
          · intro h
            split at h
            · rename_i hnth
              cases h
              have ho : t.owner c = o := (t.mem_components c o).mp (ListSearch.mem_of_nth hnth)
              subst ho
              exact ⟨rfl, hnth⟩
            · cases h
              cases hholder
          · rintro ⟨ho, hnth⟩
            cases ho
            rw [hnth]

end

section

variable {ι κ ν : Type} {t : SceneTree ι κ ν} {i : ι} {r : List ι} [DecidableEq ι] [DecidableEq κ]
  [DecidableEq ν]

def pathOf (t : SceneTree ι κ ν) (r : List ι) : Entity ι κ → RefPath ν
  | .object _ => r.map t.objectItem
  | .component c => r.map t.objectItem ++ [t.componentItem c]

theorem climb_lineage {l : List ι} {fuel : ℕ} {refPath : RefPath ν} (h : Lineage t.parent i l)
    (hfuel : l.length < fuel) :
    t.climb fuel (some (.object i)) refPath = some (refPath ++ l.map t.objectItem).reverse := by
  induction h generalizing fuel refPath with
  | top hi =>
      obtain _ | _ | fuel := fuel
      · exact absurd hfuel (Nat.not_lt_zero _)
      · exact absurd hfuel (Nat.lt_irrefl 1)
      · rw [climb, hi]
        rfl
  | step hi hl ih =>
      obtain _ | fuel := fuel
      · exact absurd hfuel (Nat.not_lt_zero _)
      · rw [climb, hi]
        refine (ih (Nat.lt_of_succ_lt_succ hfuel)).trans ?_
        rw [List.append_assoc]
        rfl

/-- With enough fuel the path of an entity is the way to its object, and its own step. -/
theorem calculatePath_eq {source : Entity ι κ} {fuel : ℕ} (h : t.IsWay (t.objectOf source) r)
    (hfuel : r.length + 1 < fuel) :
    t.calculatePath fuel (.ofEntity source) = some (t.pathOf r source) := by
  rw [calculatePath, if_neg (by simp [OwnerRef.ofEntity])]
  have hlength : r.reverse.length = r.length := List.length_reverse
  cases source with
  | object i =>
      refine (climb_lineage h (by omega)).trans ?_
      rw [List.nil_append, List.map_reverse, List.reverse_reverse]
      rfl
  | component c =>
      obtain _ | fuel := fuel
      · exact absurd hfuel (Nat.not_lt_zero _)
      change t.climb fuel ((t.owner c).map .object) ([] ++ [t.componentItem c]) = _
      rw [objectOf] at h
      cases hc : t.owner c with
      | none =>
          rw [hc] at h
          cases h
          obtain _ | fuel := fuel
          · exact absurd hfuel (Nat.lt_irrefl 1)
          · rfl
      | some i =>
          rw [hc] at h
          refine (climb_lineage h (by omega)).trans ?_
          rw [List.nil_append, List.reverse_append, List.map_reverse, List.reverse_reverse]
          rfl

/-! ## The way back -/

/-- `GetEntity` finds the entity on the path that `CalculatePath` gives with enough fuel. -/
def Resolves (t : SceneTree ι κ ν) (e : Entity ι κ) : Prop :=
  ∃ n, ∀ fuel ≥ n, (t.calculatePath fuel (.ofEntity e)).bind (t.getEntity .ofScene) =
    some (some e)

/-- No object on the way has a later sibling of its name, and the number of components of the same
name before a component fits into `uint16_t`. -/
def Unshadowed (t : SceneTree ι κ ν) (e : Entity ι κ) : Prop :=
  (∀ i, t.OnWay e i → t.LastNamed i) ∧ ∀ c, e = .component c → t.ordinal c < 2 ^ 16

/-- A path that goes down at least once is followed to its end if it is taken from where it starts
and nothing on it is shadowed. -/
theorem foldlM_pathOf {owner : OwnerRef ι κ} {e : Option (Entity ι κ)} {target : Entity ι κ}
    {b : Option ι} (h : Descends t.parent b r) (hlast : r.getLast? = t.objectOf target)
    (hr : r ≠ []) :
    (t.pathOf r target).foldlM (t.follow owner) e = .ok (some target) ↔
      t.here owner e = some b ∧ (∀ i ∈ r, t.LastNamed i) ∧
        ∀ c, target = .component c → t.ordinal c < 2 ^ 16 := by
  obtain ⟨r, i, rfl⟩ : ∃ r' i, r = r' ++ [i] := ⟨_, _, (List.dropLast_append_getLast hr).symm⟩
  rw [List.getLast?_concat] at hlast
  rw [← and_assoc, ← foldlM_descends h]
  cases target with
  | object j =>
      cases hlast
      simp [pathOf]
  | component c =>
      have hc : t.owner c = some i := hlast.symm
      rw [pathOf, List.foldlM_append, bind_eq_ok_iff]
      simp only [foldlM_singleton, follow_componentItem_iff, Entity.component.injEq, forall_eq', hc]
      constructor
      · rintro ⟨e', he', hholder, hordinal⟩
        obtain ⟨j, rfl⟩ := foldlM_objectItem_append he'
        cases hholder
        exact ⟨he', hordinal⟩
      · rintro ⟨he', hordinal⟩
        exact ⟨_, he', rfl, hordinal⟩

/-- A path that only goes to a component. -/
theorem foldlM_pathOf_nil {owner : OwnerRef ι κ} {e : Option (Entity ι κ)} {c : κ} :
    (t.pathOf [] (.component c)).foldlM (t.follow owner) e = .ok (some (.component c)) ↔
      t.holder owner e = some (t.owner c) ∧ t.ordinal c < 2 ^ 16 :=
  (iff_of_eq (congrArg (· = _) foldlM_singleton)).trans follow_componentItem_iff

theorem follow_pathOf_iff {e : Entity ι κ} (h : t.IsWay (t.objectOf e) r) :
    (t.pathOf r e).foldlM (t.follow .ofScene) none = .ok (some e) ↔
      (∀ i ∈ r, t.LastNamed i) ∧ ∀ c, e = .component c → t.ordinal c < 2 ^ 16 := by
  rcases eq_or_ne r [] with rfl | hr
  · have hnone : t.objectOf e = none := h.getLast?.symm
    cases e with
    | object i => cases hnone
    | component c =>
        have hc : t.owner c = none := hnone
        rw [foldlM_pathOf_nil, hc]
        simp [holder, getSceneFromOwner, OwnerRef.ofScene]
  · rw [foldlM_pathOf h.descends h.getLast? hr]
    exact and_iff_right rfl

/-- The path from the scene leads back to an entity exactly when it is not shadowed. -/
theorem resolves_iff {e : Entity ι κ} : t.Resolves e ↔ t.Unshadowed e := by
  obtain ⟨r, hr⟩ := t.exists_isWay (t.objectOf e)
  rw [Unshadowed]
  simp only [onWay_iff hr]
  rw [← follow_pathOf_iff hr, ← getEntity_eq_some_iff]
  constructor
  · rintro ⟨n, hn⟩
    have h := hn (n + r.length + 2) (by omega)
    rwa [calculatePath_eq hr (by omega)] at h
  · intro h
    refine ⟨r.length + 2, fun fuel hfuel => ?_⟩
    rwa [calculatePath_eq hr hfuel]

end

/-- Two roots of one name. -/
def twoRoots : SceneTree (Fin 2) Empty ℕ where
  roots := [0, 1]
  children _ := []
  parent _ := none
  name _ := 7
  components _ := []
  owner := Empty.elim
  componentName := Empty.elim
  forest := {
    mem_children := by simp
    nodup := fun _ => List.nodup_nil
    rooted := fun _ => .top rfl }
  mem_roots := by decide
  nodup_roots := by decide
  mem_components := fun c => c.elim
  nodup_components := fun _ => List.nodup_nil

/-- The path of the first of two roots of one name leads to the second. -/
theorem not_resolves_of_twoRoots :
    (∀ fuel, twoRoots.calculatePath (fuel + 2) (.ofEntity (.object 0)) =
      some [⟨7, 0, .child⟩]) ∧
    twoRoots.getEntity .ofScene [⟨7, 0, .child⟩] = some (some (.object 1)) ∧
    ¬ twoRoots.Resolves (.object 0) := by
  refine ⟨fun _ => rfl, rfl, ?_⟩
  rintro ⟨n, hn⟩
  have hother : (twoRoots.calculatePath (n + 2) (.ofEntity (.object 0))).bind
      (twoRoots.getEntity .ofScene) = some (some (.object 1)) := rfl
  rw [hn (n + 2) (Nat.le_add_right n 2)] at hother
  cases hother

end SceneTree

end SRCommon
