import SRCommon.ECS.Activity
import SRCommon.ECS.HierarchyForest
import SRCommon.ECS.HierarchyFrame
import SRCommon.Lib.TreeVisit

/-!
# Effective activity

After a build an object is active if it and all objects above it are enabled, as
long as the build finds no clean root with the wrong activity and no active
object below one that is off and has been off before.
-/

namespace SRCommon

namespace ActiveScene

open ParentForest (Covers CoversAll Under)

section

variable {ι ε : Type}

/-- The object and all objects above it are enabled. -/
def On (s : ActiveScene ι ε) (i : ι) : Prop :=
  ∀ j, Under s.objects.parentOf i j → s.isEnabled j = true

/-- What is reached from the roots by the lists of children is active if it is on. -/
def EffectiveActivity (s : ActiveScene ι ε) : Prop :=
  ∀ r ∈ s.rootSceneObjects, ∀ i,
    Relation.ReflTransGen (fun a b => b ∈ s.objects.childrenOf a) r i →
      (s.isActive i = true ↔ s.On i)

/-- Children are removed from their own parents. A build finds every clean root as active as it is
enabled, and nothing active below an inactive object that is off. -/
def Builds (s : ActiveScene ι ε) : ℕ × ActivityCall ι ε → Prop
  | (_, .removeChild self pChild) =>
      s.objects.parentOf pChild = some self ∨ s.objects.parentOf pChild = none
  | (_, .build _) =>
      (∀ r ∈ s.rootSceneObjects, s.isDirty r = false → s.isActive r = s.isEnabled r) ∧
        ∀ p c, s.objects.parentOf c = some p → s.isActive p = false → ¬ s.On p →
          s.isActive c = false
  | _ => True

/-- Dirty flags are passed up, but perhaps not yet from the nodes in `B`. -/
def PassedUp (s : ActiveScene ι ε) (B : ι → Prop) : Prop :=
  ∀ c p, ¬ B c → s.objects.parentOf c = some p → s.isDirty c = true → s.isDirty p = true

/-- What holds between the calls. -/
structure Flags (s : ActiveScene ι ε) : Prop where
  forest : s.objects.Forest
  inScene : ∀ i, s.objects.sceneOf i ≠ some false
  nodup : s.sceneObjects.Nodup
  placed : ∀ i, i ∈ s.sceneObjects ↔ (s.objects i).isSome
  known : ∀ i, s.isDirty i = true → (s.objects i).isSome
  passedUp : s.PassedUp fun _ => False
  told : ∀ i, s.isDirty i = true → s.isUpdaterDirty = true
  settled : ∀ c p, s.objects.parentOf c = some p → s.isDirty p = false →
    s.isActive c = (s.isEnabled c && s.isActive p)
  attached : ∀ i, s.hasNotAttachedComponents i = true →
    s.isDirty i = true ∧ s.hasComponents i = true

variable {s s' : ActiveScene ι ε} {i p x : ι} {fuel : ℕ} {force : Bool}

theorem on_iff : s.On i ↔ s.isEnabled i = true ∧ ∀ p, s.objects.parentOf i = some p → s.On p := by
  constructor
  · intro h
    exact ⟨h i (.refl i), fun p hp j hj => h j (Relation.ReflTransGen.head hp hj)⟩
  · rintro ⟨hi, hp⟩ j hj
    rcases hj.eq_or_parent with rfl | ⟨p, hparent, hj⟩
    · exact hi
    · exact hp p hparent j hj

theorem On.of_under (h : s.On i) (hx : Under s.objects.parentOf i x) : s.On x :=
  fun j hj => h j (Relation.ReflTransGen.trans hx hj)

/-- Nothing below an object that is off and has nothing active below it is active. -/
theorem inactive_of_under (hoff : ∀ p c, Under s.objects.parentOf p x →
      s.objects.parentOf c = some p → s.isActive p = false → ¬ s.On p → s.isActive c = false)
    (hx : s.isActive x = false) (hnot : ¬ s.On x) (hi : Under s.objects.parentOf i x) :
    s.isActive i = false ∧ ¬ s.On i := by
  refine ⟨?_, fun hon => hnot (hon.of_under hi)⟩
  induction hi using Relation.ReflTransGen.head_induction_on with
  | refl => exact hx
  | head hparent hunder ih =>
      exact hoff _ _ hunder hparent ih fun hon => hnot (hon.of_under hunder)

/-- Below a clean object everything is clean. -/
theorem clean_of_under (hup : ∀ c p, Under s.objects.parentOf p x → s.objects.parentOf c = some p →
      s.isDirty c = true → s.isDirty p = true)
    (hx : s.isDirty x = false) (hi : Under s.objects.parentOf i x) : s.isDirty i = false := by
  induction hi using Relation.ReflTransGen.head_induction_on with
  | refl => exact hx
  | head hparent hunder ih =>
      rw [← Bool.not_eq_true] at ih ⊢
      exact fun hdirty => ih (hup _ _ hunder hparent hdirty)

/-- The children of an object in the list that the loops go through. -/
theorem mem_children_iff (hforest : s.objects.Forest) {o : SceneObject ι ε}
    (hx : s.objects x = some o) (c : ι) : c ∈ o.children ↔ s.objects.parentOf c = some x := by
  rw [← SceneHierarchy.childrenOf_eq hx]
  exact hforest.mem_children c x

theorem nodup_children (hforest : s.objects.Forest) {o : SceneObject ι ε}
    (hx : s.objects x = some o) : o.children.Nodup := by
  rw [← SceneHierarchy.childrenOf_eq hx]
  exact hforest.nodup x

theorem mem_rootSceneObjects (h : s.Flags) :
    i ∈ s.rootSceneObjects ↔ (s.objects i).isSome ∧ s.objects.parentOf i = none := by
  rw [rootSceneObjects, List.mem_filter, h.placed]
  refine and_congr_right fun hi => ?_
  obtain ⟨o, ho⟩ := Option.isSome_iff_exists.mp hi
  rw [ho, Option.any_some, ← SceneHierarchy.parentOf_eq ho,
    SceneHierarchy.valid_parentOf h.forest.parentsLive, Option.isNone_iff_eq_none]

theorem isSome_of_under (hx : (s.objects x).isSome)
    (hi : Under s.objects.parentOf i x) : (s.objects i).isSome := by
  rcases hi.eq_or_parent with rfl | ⟨p, hp, -⟩
  · exact hx
  · exact SceneHierarchy.isSome_of_parentOf hp

/-- Every object is below a root. -/
theorem exists_root (h : s.Flags) (hi : (s.objects i).isSome) :
    ∃ r ∈ s.rootSceneObjects, Under s.objects.parentOf i r := by
  obtain ⟨r, hr, hunder⟩ := ParentForest.Rooted.exists_top (h.forest.rooted i)
  refine ⟨r, (mem_rootSceneObjects h).mpr ⟨?_, hr⟩, hunder⟩
  rcases hunder.eq_or_child with rfl | ⟨c, -, hc⟩
  · exact hi
  · exact h.forest.parentsLive c r hc

/-- From a root that is active if it is enabled on, the activity is right where every object
follows its parent. -/
theorem active_iff_on {r : ι} (hr : s.objects.parentOf r = none)
    (hactive : s.isActive r = s.isEnabled r)
    (hsettled : ∀ c p, Under s.objects.parentOf p r → s.objects.parentOf c = some p →
      s.isActive c = (s.isEnabled c && s.isActive p))
    (hi : Under s.objects.parentOf i r) : s.isActive i = true ↔ s.On i := by
  induction hi using Relation.ReflTransGen.head_induction_on with
  | refl =>
      rw [hactive, on_iff, hr]
      simp
  | @head c p hparent hunder ih =>
      rw [hsettled c p hunder hparent, Bool.and_eq_true, ih, on_iff (i := c), hparent]
      simp

theorem under_of_reached (hforest : s.objects.Forest)
    (h : Relation.ReflTransGen (fun a b => b ∈ s.objects.childrenOf a) x i) :
    Under s.objects.parentOf i x := by
  induction h with
  | refl => exact .refl x
  | tail _ hmem ih => exact Relation.ReflTransGen.head ((hforest.mem_children _ _).mp hmem) ih

theorem Flags.nodup_roots (h : s.Flags) : s.rootSceneObjects.Nodup := h.nodup.filter _

theorem Flags.parentOf_root (h : s.Flags) (r : ι) (hr : r ∈ s.rootSceneObjects) :
    s.objects.parentOf r = none :=
  ((mem_rootSceneObjects h).mp hr).2

theorem Flags.clean_of_under (h : s.Flags) (hx : s.isDirty x = false)
    (hi : Under s.objects.parentOf i x) : s.isDirty i = false :=
  ActiveScene.clean_of_under (fun c p _ => h.passedUp c p not_false) hx hi

/-- The activity below a clean root is right before the build. -/
theorem Flags.active_iff_on (h : s.Flags) {r : ι} (hr : r ∈ s.rootSceneObjects)
    (hclean : s.isDirty r = false) (hactive : s.isActive r = s.isEnabled r)
    (hi : Under s.objects.parentOf i r) : s.isActive i = true ↔ s.On i :=
  ActiveScene.active_iff_on (h.parentOf_root r hr) hactive
    (fun c p hp hc => h.settled c p hc (h.clean_of_under hclean hp)) hi

theorem flags_empty : (empty : ActiveScene ι ε).Flags where
  forest := SceneHierarchy.forest_empty
  inScene _ h := by cases h
  nodup := List.nodup_nil
  placed _ := by simp [empty, SceneHierarchy.empty]
  known _ h := by cases h
  passedUp _ _ _ h := by cases h
  told _ h := by cases h
  settled _ _ h := by cases h
  attached _ h := by cases h

/-- The flags of a state in which the links of `x`, its enabling or its components have changed and
nobody has been told. -/
structure FlagsBut (s : ActiveScene ι ε) (x : ι) : Prop where
  forest : s.objects.Forest
  inScene : ∀ i, s.objects.sceneOf i ≠ some false
  nodup : s.sceneObjects.Nodup
  placed : ∀ i, i ∈ s.sceneObjects ↔ (s.objects i).isSome
  known : ∀ i, s.isDirty i = true → (s.objects i).isSome
  passedUp : s.PassedUp fun c => s.objects.parentOf c = some x
  told : ∀ i, s.isDirty i = true → s.isUpdaterDirty = true
  settled : ∀ c p, c ≠ x → p ≠ x → s.objects.parentOf c = some p → s.isDirty p = false →
    s.isActive c = (s.isEnabled c && s.isActive p)
  attached : ∀ i, s.hasNotAttachedComponents i = true →
    (i ≠ x → s.isDirty i = true) ∧ s.hasComponents i = true

/-- Links are cut. -/
theorem Flags.cut (h : s.Flags) {objects : SceneHierarchy ι ε} (hforest : objects.Forest)
    (hscene : objects.sceneOf = s.objects.sceneOf)
    (hparents : ∀ c p, objects.parentOf c = some p → s.objects.parentOf c = some p) :
    Flags { s with objects } := by
  have hsome : ∀ i, (objects i).isSome = (s.objects i).isSome := fun i => by
    rw [← SceneHierarchy.isSome_sceneOf, hscene, SceneHierarchy.isSome_sceneOf]
  constructor
  · exact hforest
  · intro i
    rw [hscene]
    exact h.inScene i
  · exact h.nodup
  · intro i
    rw [hsome]
    exact h.placed i
  · intro i hi
    rw [hsome]
    exact h.known i hi
  · exact fun c p hc hp => h.passedUp c p hc (hparents c p hp)
  · exact h.told
  · exact fun c p hp => h.settled c p (hparents c p hp)
  · exact h.attached

end

section

variable {ι ε : Type} [DecidableEq ι] {s s' : ActiveScene ι ε} {x : ι} {fuel : ℕ} {force : Bool}

theorem postLoad_covers (hforest : s.objects.Forest)
    (hcomponents : ∀ i, Under s.objects.parentOf i x → s.hasNotAttachedComponents i = true →
      s.hasComponents i = true)
    (hskip : force = false → s.isDirty x = false →
      ∀ i, Under s.objects.parentOf i x → s.hasNotAttachedComponents i = false)
    (h : postLoad fuel force s x = some s') :
    ∃ v, s' = { s with hasNotAttachedComponents := v } ∧
      Covers s.objects.parentOf (fun _ b => b = false) x s.hasNotAttachedComponents v := by
  induction fuel generalizing s s' x force with
  | zero => cases h
  | succ fuel ih =>
      obtain ⟨o, ho, h⟩ := Option.bind_eq_some_iff.mp h
      split at h
      · rename_i hclean
        cases h
        exact ⟨_, rfl, .of_good (hskip (by simpa using hclean.1) (by simpa using hclean.2))⟩
      have hcs := mem_children_iff hforest ho
      -- the object has no components that are not attached any more
      obtain ⟨w, hw, hwx, hne⟩ : ∃ w, (if s.hasComponents x then { s with
          hasNotAttachedComponents := Function.update s.hasNotAttachedComponents x false }
          else s) = { s with hasNotAttachedComponents := w } ∧ w x = false ∧
          ∀ i, i ≠ x → w i = s.hasNotAttachedComponents i := by
        split
        · exact ⟨_, rfl, Function.update_self .., fun i hi => Function.update_of_ne hi ..⟩
        · rename_i hempty
          refine ⟨_, rfl, ?_, fun _ _ => rfl⟩
          rw [← Bool.not_eq_true]
          exact fun hx => hempty (hcomponents x (.refl x) hx)
      rw [hw] at h
      have hloop := hforest.coversAll_foldlM (G := fun _ b => b = false) hasNotAttachedComponents
        (K := fun t => ∃ v, t = { s with hasNotAttachedComponents := v })
        (nodup_children hforest ho) (fun c hc => (hcs c).mp hc)
        (fun c hc t t' ht hahead _ htt' => ?_) ⟨w, rfl⟩ h
      · obtain ⟨⟨v, rfl⟩, hcovers⟩ := hloop
        refine ⟨v, rfl, hcovers.covers hforest hcs (fun i hi => hne i ?_) hwx⟩
        exact fun heq => hi (heq ▸ .refl i)
      · obtain ⟨v, rfl⟩ := ht
        have hvisited := ih (s := { s with hasNotAttachedComponents := v }) hforest
          (fun i hi hnot => ?_) (fun hforce => by cases hforce) htt'
        · obtain ⟨v', rfl, hcovers⟩ := hvisited
          exact ⟨⟨v', rfl⟩, hcovers⟩
        · have hix : i ≠ x := fun heq =>
            hforest.not_under_of_parent ((hcs c).mp hc) (heq ▸ hi)
          refine hcomponents i (hi.of_child ((hcs c).mp hc)) ?_
          rw [← hne i hix]
          exact (hahead i hi).symm.trans hnot

/-- A visit sets the activity of everything below the object, provided that nothing active is left
where it turns back. -/
theorem checkActivity_covers (hforest : s.objects.Forest)
    (hparent : ∀ p, s.objects.parentOf x = some p → (s.isActive p = true ↔ s.On p))
    (hoff : ∀ p c, Under s.objects.parentOf p x → s.objects.parentOf c = some p →
      s.isActive p = false → ¬ s.On p → s.isActive c = false)
    (hskip : force = false → s.isDirty x = false →
      ∀ i, Under s.objects.parentOf i x → (s.isActive i = true ↔ s.On i))
    (h : checkActivity fuel force s x = some s') :
    ∃ v, s' = { s with isActive := v } ∧
      Covers s.objects.parentOf (fun i b => b = true ↔ s.On i) x s.isActive v := by
  induction fuel generalizing s s' x force with
  | zero => cases h
  | succ fuel ih =>
      obtain ⟨o, ho, h⟩ := Option.bind_eq_some_iff.mp h
      split at h
      · rename_i hclean
        cases h
        exact ⟨_, rfl, .of_good (hskip (by simpa using hclean.1) (by simpa using hclean.2))⟩
      have hcs := mem_children_iff hforest ho
      dsimp only at h
      rw [← SceneHierarchy.parentOf_eq ho, SceneHierarchy.valid_parentOf hforest.parentsLive] at h
      generalize hb : (s.isEnabled x && (s.objects.parentOf x).elim true s.isActive) = b at h
      have hx : b = true ↔ s.On x := by
        rw [← hb, on_iff, Bool.and_eq_true]
        refine and_congr_right fun _ => ?_
        cases hp : s.objects.parentOf x with
        | none => simp
        | some p =>
            rw [Option.elim_some, hparent p hp]
            exact ⟨fun hon q hq => Option.some.inj hq ▸ hon, fun hall => hall p rfl⟩
      have hw : ∀ i, i ≠ x → Function.update s.isActive x b i = s.isActive i :=
        fun i hi => Function.update_of_ne hi ..
      have hwx : Function.update s.isActive x b x = b := Function.update_self ..
      split at h
      · -- the object was off and stays off
        rename_i hturn
        cases h
        obtain ⟨hfalse, hprev⟩ := hturn
        rw [Bool.not_eq_true] at hfalse
        have hnot : ¬ s.On x := fun hon => by cases hfalse.symm.trans (hx.mpr hon)
        refine ⟨_, rfl, fun i hi => hw i fun heq => hi (heq ▸ .refl i), fun i hi => ?_⟩
        obtain ⟨hinactive, hoffi⟩ := inactive_of_under hoff (hprev.symm.trans hfalse) hnot hi
        rcases eq_or_ne i x with rfl | hne
        · rw [hwx]
          exact hx
        · rw [hw i hne, hinactive]
          exact iff_of_false Bool.false_ne_true hoffi
      · have hloop := hforest.coversAll_foldlM (G := fun i b => b = true ↔ s.On i) isActive
          (K := fun t => ∃ v, t = { s with isActive := v })
          (nodup_children hforest ho) (fun c hc => (hcs c).mp hc)
          (fun c hc t t' ht hahead hframe htt' => ?_) ⟨_, rfl⟩ h
        · obtain ⟨⟨v, rfl⟩, hcovers⟩ := hloop
          refine ⟨v, rfl, hcovers.covers hforest hcs (fun i hi => hw i ?_)
            ((iff_of_eq (congrArg (· = true) hwx)).trans hx)⟩
          exact fun heq => hi (heq ▸ .refl i)
        · obtain ⟨v, rfl⟩ := ht
          have hchild := (hcs c).mp hc
          have hvx : v x = b := (hframe x fun d hd =>
            hforest.not_under_of_parent ((hcs d).mp hd)).trans hwx
          have hvc : ∀ i, Under s.objects.parentOf i c → v i = s.isActive i := fun i hi =>
            (hahead i hi).trans (hw i fun heq => hforest.not_under_of_parent hchild (heq ▸ hi))
          have hvisited := ih (s := { s with isActive := v }) hforest (fun p hp => ?_)
            (fun p d hp hd hinactive hnot => ?_) (fun hforce => by cases hforce) htt'
          · obtain ⟨v', rfl, hcovers⟩ := hvisited
            exact ⟨⟨v', rfl⟩, hcovers⟩
          · cases hchild.symm.trans hp
            exact (iff_of_eq (congrArg (· = true) hvx)).trans hx
          · have hdc : Under s.objects.parentOf d c := Relation.ReflTransGen.head hd hp
            refine (hvc d hdc).trans ?_
            exact hoff p d (hp.of_child hchild) hd ((hvc p hp).symm.trans hinactive) hnot

/-- Where all components are attached, a dirty flag is cleared with all that are below it. -/
theorem setDirty_false_covers {stillDirty : Bool} (hforest : s.objects.Forest)
    (hattached : ∀ i, Under s.objects.parentOf i x → s.hasNotAttachedComponents i = false)
    (hup : ∀ c p, Under s.objects.parentOf p x → s.objects.parentOf c = some p →
      s.isDirty c = true → s.isDirty p = true)
    (h : setDirty fuel s x false = some (s', stillDirty)) :
    stillDirty = false ∧ ∃ v, s' = { s with isDirty := v } ∧
      Covers s.objects.parentOf (fun _ b => b = false) x s.isDirty v := by
  induction fuel generalizing s s' x stillDirty with
  | zero => cases h
  | succ fuel ih =>
      obtain ⟨o, ho, h⟩ := Option.bind_eq_some_iff.mp h
      split at h
      · rename_i hclean
        cases h
        exact ⟨rfl, _, rfl, .of_good fun i hi => clean_of_under hup hclean hi⟩
      have hcs := mem_children_iff hforest ho
      rw [componentableSetDirty, hattached x (.refl x)] at h
      simp only [Bool.or_false, Bool.false_eq_true, false_and, if_false] at h
      obtain ⟨⟨t, stays⟩, ht, h⟩ := Option.map_eq_some_iff.mp h
      have hw : ∀ i, i ≠ x → Function.update s.isDirty x false i = s.isDirty i :=
        fun i hi => Function.update_of_ne hi ..
      have hloop := hforest.coversAll_foldlM (G := fun _ b => b = false)
        (fun r : ActiveScene ι ε × Bool => r.1.isDirty)
        (K := fun r => ∃ v, r = ({ s with isDirty := v }, false))
        (nodup_children hforest ho) (fun c hc => (hcs c).mp hc)
        (fun c hc t t' ht hahead _ htt' => ?_) ⟨_, rfl⟩ ht
      · obtain ⟨⟨v, hv⟩, hcovers⟩ := hloop
        cases hv
        cases h
        refine ⟨rfl, v, rfl, hcovers.covers hforest hcs (fun i hi => hw i ?_)
          (Function.update_self ..)⟩
        exact fun heq => hi (heq ▸ .refl i)
      · obtain ⟨v, rfl⟩ := ht
        obtain ⟨t', stays'⟩ := t'
        have hchild := (hcs c).mp hc
        have hvc : ∀ i, Under s.objects.parentOf i c → v i = s.isDirty i := fun i hi =>
          (hahead i hi).trans (hw i fun heq => hforest.not_under_of_parent hchild (heq ▸ hi))
        have hvisited := ih (s := { s with isDirty := v }) hforest
          (fun i hi => hattached i (hi.of_child hchild)) (fun d p hp hd hdirty => ?_) htt'
        · obtain ⟨rfl, v', rfl, hcovers⟩ := hvisited
          exact ⟨⟨v', rfl⟩, hcovers⟩
        · have hdc : Under s.objects.parentOf d c := Relation.ReflTransGen.head hd hp
          refine (hvc p hp).trans (hup d p (hp.of_child hchild) hd ?_)
          exact (hvc d hdc).symm.trans hdirty

theorem start_covers (hforest : s.objects.Forest)
    (hattached : ∀ i, Under s.objects.parentOf i x → s.hasNotAttachedComponents i = false)
    (hup : ∀ c p, Under s.objects.parentOf p x → s.objects.parentOf c = some p →
      s.isDirty c = true → s.isDirty p = true)
    (h : start fuel force s x = some s') :
    ∃ v, s' = { s with isDirty := v } ∧
      Covers s.objects.parentOf (fun _ b => b = false) x s.isDirty v := by
  induction fuel generalizing s s' x force with
  | zero => cases h
  | succ fuel ih =>
      obtain ⟨o, ho, h⟩ := Option.bind_eq_some_iff.mp h
      split at h
      · rename_i hclean
        cases h
        refine ⟨_, rfl, .of_good fun i hi => clean_of_under hup ?_ hi⟩
        simpa using hclean.2
      have hcs := mem_children_iff hforest ho
      obtain ⟨⟨t, stays⟩, ht, h⟩ := Option.bind_eq_some_iff.mp h
      obtain ⟨-, w, rfl, hw⟩ := setDirty_false_covers hforest hattached hup ht
      have hloop := hforest.coversAll_foldlM (G := fun _ b => b = false) isDirty
        (K := fun t => ∃ v, t = { s with isDirty := v })
        (nodup_children hforest ho) (fun c hc => (hcs c).mp hc)
        (fun c hc t t' ht hahead _ htt' => ?_) ⟨w, rfl⟩ h
      · obtain ⟨⟨v, rfl⟩, hcovers⟩ := hloop
        exact ⟨v, rfl, hcovers.covers hforest hcs hw.frame (hw.good x (.refl x))⟩
      · obtain ⟨v, rfl⟩ := ht
        have hchild := (hcs c).mp hc
        have hvisited := ih (s := { s with isDirty := v }) hforest
          (fun i hi => hattached i (hi.of_child hchild)) (fun d p hp hd hdirty => ?_) htt'
        · obtain ⟨v', rfl, hcovers⟩ := hvisited
          exact ⟨⟨v', rfl⟩, hcovers⟩
        · have hdc : Under s.objects.parentOf d c := Relation.ReflTransGen.head hd hp
          have hclean := (hahead d hdc).trans (hw.good d (hdc.of_child hchild))
          cases hclean.symm.trans hdirty

/-! ## Between the builds -/

/-- A dirty flag that is set reaches the updater. -/
theorem setDirty_true (hforest : s.objects.Forest) (hscene : ∀ i, s.objects.sceneOf i ≠ some false)
    {B : ι → Prop} {stillDirty : Bool} (hup : s.PassedUp B)
    (htold : ∀ i, s.isDirty i = true → ¬ (Under s.objects.parentOf i x ∧ i ≠ x) →
      s.isUpdaterDirty = true)
    (h : setDirty fuel s x true = some (s', stillDirty)) :
    ∃ v, s' = { s with isDirty := v, isUpdaterDirty := true } ∧ v x = true ∧
      (∀ i, s.isDirty i = true → v i = true) ∧
      (∀ i, v i = true → s.isDirty i = true ∨ (s.objects i).isSome) ∧
      s'.PassedUp B := by
  induction fuel generalizing s s' x stillDirty B with
  | zero => cases h
  | succ fuel ih =>
      obtain ⟨o, ho, h⟩ := Option.bind_eq_some_iff.mp h
      split at h
      · rename_i hdirty
        cases h
        have hupdater := htold x hdirty fun hboth => hboth.2 rfl
        refine ⟨s.isDirty, ?_, hdirty, fun _ hi => hi, fun _ hi => .inl hi, hup⟩
        rw [← hupdater]
      rename_i hclean
      rw [componentableSetDirty, Bool.or_true] at h
      simp only [not_true, and_false, if_false, if_true] at h
      rw [← SceneHierarchy.parentOf_eq ho, SceneHierarchy.valid_parentOf hforest.parentsLive] at h
      have hwx : Function.update s.isDirty x true x = true := Function.update_self ..
      have hkept : ∀ i, s.isDirty i = true →
          Function.update s.isDirty x true i = true := fun i hi => by
        rcases eq_or_ne i x with rfl | hne
        · exact hwx
        · rwa [Function.update_of_ne hne]
      have hnew : ∀ i, Function.update s.isDirty x true i = true → i = x ∨ s.isDirty i = true :=
        fun i hi => by
          rcases eq_or_ne i x with rfl | hne
          · exact .inl rfl
          · exact .inr (by rwa [Function.update_of_ne hne] at hi)
      have hsome : (s.objects x).isSome := by
        rw [ho]
        rfl
      cases hp : s.objects.parentOf x with
      | none =>
          have hasScene : o.hasScene = true := by
            rw [← Bool.not_eq_false]
            exact fun hfalse => hscene x (by rw [SceneHierarchy.sceneOf_eq ho, hfalse])
          rw [hp, hasScene] at h
          cases h
          refine ⟨_, rfl, hwx, hkept, fun i hi => ?_, fun c q hc hq hdirty => ?_⟩
          · rcases hnew i hi with rfl | hi
            · exact .inr hsome
            · exact .inl hi
          · rcases hnew c hdirty with rfl | hdirty
            · cases hp.symm.trans hq
            · exact hkept q (hup c q hc hq hdirty)
      | some p =>
          rw [hp] at h
          obtain ⟨⟨t, stays⟩, ht, hr⟩ := Option.map_eq_some_iff.mp h
          cases hr
          have hraised := ih (s := { s with isDirty := Function.update s.isDirty x true })
            (B := fun i => B i ∨ i = x) hforest hscene (fun c q hc hq hdirty => ?_)
            (fun i hi hnot => ?_) ht
          · obtain ⟨v, rfl, hvp, hmono, hback, hpassed⟩ := hraised
            refine ⟨v, rfl, hmono x hwx, fun i hi => hmono i (hkept i hi), fun i hi => ?_,
              fun c q hc hq hdirty => ?_⟩
            · rcases hback i hi with hi | hi
              · rcases hnew i hi with rfl | hi
                · exact .inr hsome
                · exact .inl hi
              · exact .inr hi
            · rcases eq_or_ne c x with rfl | hne
              · cases hp.symm.trans hq
                exact hvp
              · exact hpassed c q (fun hb => hb.elim hc hne) hq hdirty
          · have hold := (hnew c hdirty).resolve_left fun heq => hc (.inr heq)
            exact hkept q (hup c q (fun hb => hc (.inl hb)) hq hold)
          · rcases hnew i hi with rfl | hi
            · refine (hnot ⟨Under.of_child (.refl i) hp, ?_⟩).elim
              exact (hforest.parent_ne hp).symm
            · refine htold i hi fun hunder => hnot ⟨hunder.1.of_child hp, ?_⟩
              rintro rfl
              exact hforest.not_under_of_parent hp hunder.1

/-- Once it is passed on that the object is dirty, the flags are as they should be. -/
theorem FlagsBut.setDirty {stillDirty : Bool} (h : s.FlagsBut x)
    (hs' : setDirty fuel s x true = some (s', stillDirty)) : s'.Flags := by
  have hx : (s.objects x).isSome := by
    cases fuel with
    | zero => cases hs'
    | succ fuel =>
        obtain ⟨o, ho, -⟩ := Option.bind_eq_some_iff.mp hs'
        rw [ho]
        rfl
  obtain ⟨v, rfl, hvx, hmono, hback, hpassed⟩ := setDirty_true h.forest h.inScene h.passedUp
    (fun i hi _ => h.told i hi) hs'
  have hup : PassedUp { s with isDirty := v, isUpdaterDirty := true } fun _ => False :=
    fun c p _ hp hdirty => by
      by_cases hc : s.objects.parentOf c = some x
      · cases hp.symm.trans hc
        exact hvx
      · exact hpassed c p hc hp hdirty
  constructor
  · exact h.forest
  · exact h.inScene
  · exact h.nodup
  · exact h.placed
  · exact fun i hi => (hback i hi).elim (h.known i) id
  · exact hup
  · exact fun _ _ => rfl
  · intro c p hp hclean
    have hpx : p ≠ x := fun heq => by cases hclean.symm.trans (heq ▸ hvx)
    have hcx : c ≠ x := fun heq => by
      cases hclean.symm.trans (hup c p not_false hp (heq ▸ hvx))
    refine h.settled c p hcx hpx hp ?_
    rw [← Bool.not_eq_true]
    exact fun hdirty => by cases hclean.symm.trans (hmono p hdirty)
  · intro i hi
    obtain ⟨hdirty, hcomponents⟩ := h.attached i hi
    refine ⟨?_, hcomponents⟩
    rcases eq_or_ne i x with rfl | hne
    · exact hvx
    · exact hmono i (hdirty hne)

theorem Flags.setEnabled {value : Bool} (h : s.Flags) (hs' : setEnabled fuel s x value = some s') :
    s'.Flags := by
  obtain ⟨o, -, hs'⟩ := Option.bind_eq_some_iff.mp hs'
  split at hs'
  · cases hs'
    exact h
  obtain ⟨⟨t, stays⟩, ht, rfl⟩ := Option.map_eq_some_iff.mp hs'
  have hbut : FlagsBut { s with isEnabled := Function.update s.isEnabled x value } x := by
    refine ⟨h.forest, h.inScene, h.nodup, h.placed, h.known, fun c p _ => h.passedUp c p not_false,
      h.told, fun c p hc _ hp hclean => ?_,
      fun i hi => ⟨fun _ => (h.attached i hi).1, (h.attached i hi).2⟩⟩
    refine (h.settled c p hp hclean).trans ?_
    exact congrArg (· && s.isActive p) (Function.update_of_ne hc ..).symm
  exact hbut.setDirty ht

theorem Flags.addComponent (h : s.Flags) (hs' : addComponent fuel s x = some s') : s'.Flags := by
  obtain ⟨⟨t, stays⟩, ht, rfl⟩ := Option.map_eq_some_iff.mp hs'
  have hbut : FlagsBut { s with
      hasComponents := Function.update s.hasComponents x true
      hasNotAttachedComponents := Function.update s.hasNotAttachedComponents x true } x := by
    refine ⟨h.forest, h.inScene, h.nodup, h.placed, h.known, fun c p _ => h.passedUp c p not_false,
      h.told, fun c p _ _ hp => h.settled c p hp, fun i hi => ?_⟩
    dsimp only at hi ⊢
    rcases eq_or_ne i x with rfl | hne
    · exact ⟨fun hne => (hne rfl).elim, Function.update_self ..⟩
    · rw [Function.update_of_ne hne] at hi ⊢
      exact ⟨fun _ => (h.attached i hi).1, (h.attached i hi).2⟩
  exact hbut.setDirty ht

/-! ## A build -/

theorem Flags.postLoad_roots (h : s.Flags) (hs' : s.rootSceneObjects.foldlM (postLoad fuel false)
      { s with isUpdaterDirty := false } = some s') :
    ∃ v, s' = { s with hasNotAttachedComponents := v, isUpdaterDirty := false } ∧
      CoversAll s.objects.parentOf (fun _ b => b = false) s.rootSceneObjects
        s.hasNotAttachedComponents v := by
  have hloop := h.forest.coversAll_foldlM (G := fun _ b => b = false) hasNotAttachedComponents
    (K := fun t => ∃ v, t = { s with hasNotAttachedComponents := v, isUpdaterDirty := false })
    h.nodup_roots h.parentOf_root (fun r hr t t' ht hahead _ htt' => ?_) ⟨_, rfl⟩ hs'
  · obtain ⟨⟨v, rfl⟩, hcovers⟩ := hloop
    exact ⟨v, rfl, hcovers⟩
  · obtain ⟨v, rfl⟩ := ht
    have hvisited := postLoad_covers (s := { s with
      hasNotAttachedComponents := v, isUpdaterDirty := false }) h.forest (fun i hi hnot => ?_)
      (fun _ hclean i hi => ?_) htt'
    · obtain ⟨v', rfl, hcovers⟩ := hvisited
      exact ⟨⟨v', rfl⟩, hcovers⟩
    · exact (h.attached i ((hahead i hi).symm.trans hnot)).2
    · refine (hahead i hi).trans ?_
      rw [← Bool.not_eq_true]
      intro hnot
      cases (h.clean_of_under hclean hi).symm.trans (h.attached i hnot).1

theorem Flags.checkActivity_roots {told : Bool} {v₁ : ι → Bool} (h : s.Flags)
    (hbuilds : s.Builds (fuel, .build told))
    (hs' : s.rootSceneObjects.foldlM (checkActivity fuel false)
      { s with hasNotAttachedComponents := v₁, isUpdaterDirty := false } = some s') :
    ∃ v, s' = { s with
        hasNotAttachedComponents := v₁, isUpdaterDirty := false, isActive := v } ∧
      CoversAll s.objects.parentOf (fun i b => b = true ↔ s.On i) s.rootSceneObjects
        s.isActive v := by
  obtain ⟨hactive, hoff⟩ := hbuilds
  have hloop := h.forest.coversAll_foldlM (G := fun i b => b = true ↔ s.On i) isActive
    (K := fun t => ∃ v, t = { s with
      hasNotAttachedComponents := v₁, isUpdaterDirty := false, isActive := v })
    h.nodup_roots h.parentOf_root (fun r hr t t' ht hahead _ htt' => ?_) ⟨_, rfl⟩ hs'
  · obtain ⟨⟨v, rfl⟩, hcovers⟩ := hloop
    exact ⟨v, rfl, hcovers⟩
  · obtain ⟨v, rfl⟩ := ht
    have hvisited := checkActivity_covers (s := { s with
      hasNotAttachedComponents := v₁, isUpdaterDirty := false, isActive := v }) h.forest
      (fun p hp => ?_) (fun p c hp hc hinactive hnot => ?_) (fun _ hclean i hi => ?_) htt'
    · obtain ⟨v', rfl, hcovers⟩ := hvisited
      exact ⟨⟨v', rfl⟩, hcovers⟩
    · cases (h.parentOf_root r hr).symm.trans hp
    · have hunder : Under s.objects.parentOf c r := Relation.ReflTransGen.head hc hp
      refine (hahead c hunder).trans (hoff p c hc ?_ hnot)
      exact (hahead p hp).symm.trans hinactive
    · refine (iff_of_eq (congrArg (· = true) (hahead i hi))).trans ?_
      exact h.active_iff_on hr hclean (hactive r hr hclean) hi

theorem Flags.start_roots {v₁ v₂ : ι → Bool} (h : s.Flags)
    (hattached : ∀ r ∈ s.rootSceneObjects, ∀ i, Under s.objects.parentOf i r → v₁ i = false)
    (hs' : s.rootSceneObjects.foldlM (start fuel false) { s with
      hasNotAttachedComponents := v₁, isUpdaterDirty := false, isActive := v₂ } = some s') :
    ∃ v, s' = { s with
        hasNotAttachedComponents := v₁, isUpdaterDirty := false, isActive := v₂, isDirty := v } ∧
      CoversAll s.objects.parentOf (fun _ b => b = false) s.rootSceneObjects s.isDirty v := by
  have hloop := h.forest.coversAll_foldlM (G := fun _ b => b = false) isDirty
    (K := fun t => ∃ v, t = { s with
      hasNotAttachedComponents := v₁, isUpdaterDirty := false, isActive := v₂, isDirty := v })
    h.nodup_roots h.parentOf_root (fun r hr t t' ht hahead _ htt' => ?_) ⟨_, rfl⟩ hs'
  · obtain ⟨⟨v, rfl⟩, hcovers⟩ := hloop
    exact ⟨v, rfl, hcovers⟩
  · obtain ⟨v, rfl⟩ := ht
    have hvisited := start_covers (s := { s with
      hasNotAttachedComponents := v₁, isUpdaterDirty := false, isActive := v₂, isDirty := v })
      h.forest (fun i hi => hattached r hr i hi) (fun c p hp hc hdirty => ?_) htt'
    · obtain ⟨v', rfl, hcovers⟩ := hvisited
      exact ⟨⟨v', rfl⟩, hcovers⟩
    · have hunder : Under s.objects.parentOf c r := Relation.ReflTransGen.head hc hp
      refine (hahead p hp).trans (h.passedUp c p not_false hc ?_)
      exact (hahead c hunder).symm.trans hdirty

/-- A build that finds what it needs sets all activities. -/
theorem Flags.build {told : Bool} (h : s.Flags) (hbuilds : s.Builds (fuel, .build told))
    (hs' : build fuel s told = some s') : s'.Flags ∧ s'.EffectiveActivity := by
  rw [ActiveScene.build] at hs'
  split at hs'
  · rename_i hquiet
    cases hs'
    have hclean : ∀ r, s.isDirty r = false := fun r => by
      rw [← Bool.not_eq_true]
      exact fun hdirty => hquiet (h.told r hdirty)
    refine ⟨h, fun r hr i hi => ?_⟩
    exact h.active_iff_on hr (hclean r) (hbuilds.1 r hr (hclean r)) (under_of_reached h.forest hi)
  obtain ⟨s₁, hs₁, hs'⟩ := Option.bind_eq_some_iff.mp hs'
  obtain ⟨s₂, hs₂, hs'⟩ := Option.bind_eq_some_iff.mp hs'
  obtain ⟨s₃, hs₃, rfl⟩ := Option.map_eq_some_iff.mp hs'
  obtain ⟨v₁, rfl, hloaded⟩ := h.postLoad_roots hs₁
  obtain ⟨v₂, rfl, hchecked⟩ := h.checkActivity_roots hbuilds hs₂
  obtain ⟨v₃, rfl, hstarted⟩ := h.start_roots hloaded.good hs₃
  -- objects that do not exist are below no root
  have hnowhere : ∀ i, (s.objects i).isSome = false →
      ∀ r ∈ s.rootSceneObjects, ¬ Under s.objects.parentOf i r := fun i hi r hr hunder => by
    cases hi.symm.trans (isSome_of_under ((mem_rootSceneObjects h).mp hr).1 hunder)
  have hclean : ∀ i, v₃ i = false := fun i => by
    cases hi : (s.objects i).isSome with
    | true =>
        obtain ⟨r, hr, hunder⟩ := exists_root h hi
        exact hstarted.good r hr i hunder
    | false =>
        rw [hstarted.frame i (hnowhere i hi), ← Bool.not_eq_true]
        exact fun hdirty => by cases hi.symm.trans (h.known i hdirty)
  have hactive : ∀ i, (s.objects i).isSome → (v₂ i = true ↔ s.On i) := fun i hi => by
    obtain ⟨r, hr, hunder⟩ := exists_root h hi
    exact hchecked.good r hr i hunder
  have hdirty : ∀ i, v₃ i = true → False := fun i hi => by cases (hclean i).symm.trans hi
  refine ⟨⟨h.forest, h.inScene, h.nodup, h.placed, fun i hi => (hdirty i hi).elim,
    fun c _ _ _ hc => (hdirty c hc).elim, fun i hi => (hdirty i hi).elim,
    fun c p hp _ => ?_, fun i hi => ?_⟩, fun r hr i hi => ?_⟩
  · have hc := hactive c (SceneHierarchy.isSome_of_parentOf hp)
    have hparent := hactive p (h.forest.parentsLive c p hp)
    change v₂ c = (s.isEnabled c && v₂ p)
    rw [Bool.eq_iff_iff, Bool.and_eq_true, hc, hparent, on_iff]
    refine and_congr_right fun _ => ⟨fun hall => hall p hp, fun hon q hq => ?_⟩
    cases hp.symm.trans hq
    exact hon
  · cases hi' : (s.objects i).isSome with
    | true =>
        obtain ⟨r, hr, hunder⟩ := exists_root h hi'
        cases (hloaded.good r hr i hunder).symm.trans hi
    | false =>
        have hbefore := (hloaded.frame i (hnowhere i hi')).symm.trans hi
        cases hi'.symm.trans (h.known i (h.attached i hbefore).1)
  · exact hchecked.good r hr i (under_of_reached h.forest hi)

end

section

variable {ι ε : Type} [DecidableEq ι] [DecidableEq ε] {s s' : ActiveScene ι ε} {p c : ι} {fuel : ℕ}

theorem Flags.create {entityId : ε} (h : s.Flags) (hs' : create fuel s c entityId = some s') :
    s'.Flags := by
  obtain ⟨objects, hobjects, rfl⟩ := Option.map_eq_some_iff.mp hs'
  have hforest := h.forest.create hobjects
  obtain ⟨hc, hput⟩ := SceneHierarchy.create_eq hobjects
  obtain ⟨o, rfl, hrootless, hasScene⟩ : ∃ o : SceneObject ι ε, objects = s.objects.put c o ∧
      o.parent = none ∧ o.hasScene = true := ⟨_, hput, rfl, rfl⟩
  have hparents := SceneHierarchy.parentOf_put_new hc hrootless
  -- the new object has no links
  have hne : ∀ i q, s.objects.parentOf i = some q → i ≠ c ∧ q ≠ c := fun i q hq => by
    have hi := SceneHierarchy.isSome_of_parentOf hq
    have hq := h.forest.parentsLive i q hq
    constructor
    · rintro rfl
      rw [hc] at hi
      cases hi
    · rintro rfl
      rw [hc] at hq
      cases hq
  have hother : ∀ i q, (s.objects.put c o).parentOf i = some q →
      s.objects.parentOf i = some q ∧ i ≠ c ∧ q ≠ c := fun i q hq => by
    rw [hparents] at hq
    exact ⟨hq, hne i q hq⟩
  constructor
  · exact hforest
  · intro i
    dsimp only
    rw [SceneHierarchy.sceneOf_put]
    rcases eq_or_ne i c with rfl | hi
    · rw [Function.update_self, hasScene]
      intro hscene
      cases hscene
    · rw [Function.update_of_ne hi]
      exact h.inScene i
  · have hnew : c ∉ s.sceneObjects := fun hmem => by
      rw [h.placed, hc] at hmem
      cases hmem
    exact List.nodup_append.mpr ⟨h.nodup, List.nodup_singleton c, fun a ha b hb hab =>
      hnew (List.mem_singleton.mp hb ▸ hab ▸ ha)⟩
  · intro i
    dsimp only
    rw [List.mem_append, List.mem_singleton, h.placed]
    rcases eq_or_ne i c with rfl | hi
    · simp [SceneHierarchy.put_self]
    · simp [SceneHierarchy.put_of_ne hi, hi]
  · intro i hi
    dsimp only at hi ⊢
    rcases eq_or_ne i c with rfl | hne
    · rw [SceneHierarchy.put_self]
      rfl
    · rw [Function.update_of_ne hne] at hi
      rw [SceneHierarchy.put_of_ne hne]
      exact h.known i hi
  · intro i q _ hq hdirty
    obtain ⟨hq, hi, hqc⟩ := hother i q hq
    dsimp only at hdirty ⊢
    rw [Function.update_of_ne hi] at hdirty
    rw [Function.update_of_ne hqc]
    exact h.passedUp i q not_false hq hdirty
  · exact fun _ _ => rfl
  · intro i q hq hclean
    obtain ⟨hq, hi, hqc⟩ := hother i q hq
    dsimp only at hclean ⊢
    rw [Function.update_of_ne hqc] at hclean
    rw [Function.update_of_ne hi, Function.update_of_ne hi, Function.update_of_ne hqc]
    exact h.settled i q hq hclean
  · intro i hi
    dsimp only at hi ⊢
    rcases eq_or_ne i c with rfl | hne
    · rw [Function.update_self] at hi
      cases hi
    · rw [Function.update_of_ne hne] at hi ⊢
      rw [Function.update_of_ne hne]
      exact h.attached i hi

theorem Flags.addChild {added : Bool} (h : s.Flags)
    (hs' : addChild fuel s p c = some (s', added)) : s'.Flags := by
  obtain ⟨⟨objects, added'⟩, hobjects, hs'⟩ := Option.bind_eq_some_iff.mp hs'
  have hforest := h.forest.addChild hobjects
  have hscene := SceneHierarchy.sceneOf_addChild hobjects
  rcases SceneHierarchy.addChild_links h.forest.parentsLive hobjects with
    ⟨rfl, hsame⟩ | ⟨rfl, hattached⟩
  · cases hs'
    refine h.cut hforest hscene fun i q hq => ?_
    rwa [SceneHierarchy.parentOf_of_rootless hsame] at hq
  obtain ⟨⟨t, stays⟩, ht, hr⟩ := Option.map_eq_some_iff.mp hs'
  cases hr
  have hsome : ∀ i, (objects i).isSome = (s.objects i).isSome := fun i => by
    rw [← SceneHierarchy.isSome_sceneOf, hscene, SceneHierarchy.isSome_sceneOf]
  have hparents : ∀ i q, objects.parentOf i = some q →
      s.objects.parentOf i = some q ∨ i = c ∧ q = p := fun i q hq => by
    rw [hattached.parentOf] at hq
    rcases eq_or_ne i c with rfl | hi
    · rw [Function.update_self] at hq
      exact .inr ⟨rfl, (Option.some.inj hq).symm⟩
    · rw [Function.update_of_ne hi] at hq
      exact .inl hq
  have hbut : FlagsBut { s with objects } p := by
    constructor
    · exact hforest
    · intro i
      dsimp only
      rw [hscene]
      exact h.inScene i
    · exact h.nodup
    · intro i
      dsimp only
      rw [hsome]
      exact h.placed i
    · intro i hi
      dsimp only
      rw [hsome]
      exact h.known i hi
    · intro i q hi hq hdirty
      rcases hparents i q hq with hq | ⟨-, rfl⟩
      · exact h.passedUp i q not_false hq hdirty
      · exact (hi hq).elim
    · exact h.told
    · intro i q _ hqp hq hclean
      rcases hparents i q hq with hq | ⟨-, heq⟩
      · exact h.settled i q hq hclean
      · exact (hqp heq).elim
    · exact fun i hi => ⟨fun _ => (h.attached i hi).1, (h.attached i hi).2⟩
  exact hbut.setDirty ht

theorem parent_of_cut {parent : ι → Option ι} {i q : ι}
    (h : Function.update parent c none i = some q) : parent i = some q := by
  rw [Function.update_apply] at h
  split at h
  · cases h
  · exact h

theorem Flags.removeChild (h : s.Flags)
    (hown : s.objects.parentOf c = some p ∨ s.objects.parentOf c = none)
    (hs' : removeChild fuel s p c = some s') : s'.Flags := by
  obtain ⟨objects, hobjects, rfl⟩ := Option.map_eq_some_iff.mp hs'
  obtain ⟨hforest, hparents⟩ := h.forest.removeChild hown hobjects
  refine h.cut hforest (SceneHierarchy.sceneOf_removeChild hobjects) fun i q hq => ?_
  rw [hparents] at hq
  exact parent_of_cut hq

theorem Flags.moveToTree {destination : Option ι} {moved : Bool} (h : s.Flags)
    (hs' : moveToTree fuel s c destination = some (s', moved)) : s'.Flags := by
  obtain ⟨objects, hobjects, hs'⟩ := Option.bind_eq_some_iff.mp hs'
  have hleft : Flags { s with objects } := by
    obtain ⟨hforest, hparents⟩ := h.forest.leaveParent hobjects
    refine h.cut hforest ?_ fun i q hq => ?_
    · rcases SceneHierarchy.leaveParent_cases h.forest.parentsLive hobjects with
        ⟨-, rfl⟩ | ⟨p, -, hremoved⟩
      · rfl
      · exact SceneHierarchy.sceneOf_removeChild hremoved
    · rw [hparents] at hq
      exact parent_of_cut hq
  split at hs'
  · exact hleft.addChild hs'
  · obtain ⟨o, -, hr⟩ := Option.map_eq_some_iff.mp hs'
    cases hr
    exact hleft

/-- One call. -/
theorem Flags.step {r : ActiveScene ι ε × Option Bool} {call : ℕ × ActivityCall ι ε} (h : s.Flags)
    (hbuilds : s.Builds call) (hr : s.step call = some r) :
    (∀ fuel told, call = (fuel, .build told) → r.1.EffectiveActivity) ∧ r.1.Flags := by
  obtain ⟨fuel, call⟩ := call
  cases call with
  | create self entityId =>
      obtain ⟨t, ht, rfl⟩ := Option.map_eq_some_iff.mp hr
      exact ⟨fun _ _ hcall => (by cases hcall), h.create ht⟩
  | addComponent self =>
      obtain ⟨t, ht, rfl⟩ := Option.map_eq_some_iff.mp hr
      exact ⟨fun _ _ hcall => (by cases hcall), h.addComponent ht⟩
  | setEnabled self value =>
      obtain ⟨t, ht, rfl⟩ := Option.map_eq_some_iff.mp hr
      exact ⟨fun _ _ hcall => (by cases hcall), h.setEnabled ht⟩
  | addChild self pChild =>
      obtain ⟨t, ht, rfl⟩ := Option.map_eq_some_iff.mp hr
      exact ⟨fun _ _ hcall => (by cases hcall), h.addChild ht⟩
  | removeChild self pChild =>
      obtain ⟨t, ht, rfl⟩ := Option.map_eq_some_iff.mp hr
      exact ⟨fun _ _ hcall => (by cases hcall), h.removeChild hbuilds ht⟩
  | moveToTree self destination =>
      obtain ⟨t, ht, rfl⟩ := Option.map_eq_some_iff.mp hr
      exact ⟨fun _ _ hcall => (by cases hcall), h.moveToTree ht⟩
  | build told =>
      obtain ⟨t, ht, rfl⟩ := Option.map_eq_some_iff.mp hr
      obtain ⟨hflags, heffective⟩ := h.build hbuilds ht
      exact ⟨fun _ _ _ => heffective, hflags⟩

theorem effectiveActivity_of_builds {calls : List (ℕ × ActivityCall ι ε)}
    (h : Steps.Along step Builds empty calls) :
    Steps.Throughout step (fun _ call (s : ActiveScene ι ε) =>
      ∀ fuel told, call = (fuel, .build told) → s.EffectiveActivity) empty calls :=
  h.throughout (fun _ _ _ hs hcall hr => hs.step hcall hr) flags_empty

end

/-- An object with a child is built and switched off. -/
def switchedOff : List (ℕ × ActivityCall Bool ℕ) :=
  [(9, .create false 10), (9, .create true 11), (9, .addChild false true), (9, .build false),
    (9, .setEnabled false false), (9, .build false)]

theorem effectiveActivity_of_builds_sample :
    Steps.Along step Builds empty switchedOff ∧
      Steps.Throughout step (fun _ call (s : ActiveScene Bool ℕ) =>
        ∀ fuel told, call = (fuel, .build told) → s.EffectiveActivity) empty switchedOff := by
  have h : Steps.Along step Builds (empty : ActiveScene Bool ℕ) switchedOff := by
    refine ⟨trivial, fun r₁ h₁ => ⟨trivial, fun r₂ h₂ => ⟨trivial, fun r₃ h₃ => ⟨?_,
      fun r₄ h₄ => ⟨trivial, fun r₅ h₅ => ⟨?_, fun _ _ => trivial⟩⟩⟩⟩⟩⟩
    · have hinactive : ∀ c, r₃.1.isActive c = false := by
        cases h₁
        cases h₂
        cases h₃
        decide
      refine ⟨?_, fun p c _ _ _ => hinactive c⟩
      cases h₁
      cases h₂
      cases h₃
      decide
    · have hbelow : ∀ p c, r₅.1.objects.parentOf c = some p → r₅.1.isActive p = true := by
        cases h₁
        cases h₂
        cases h₃
        cases h₄
        cases h₅
        decide
      refine ⟨?_, fun p c hp hinactive _ => ?_⟩
      · cases h₁
        cases h₂
        cases h₃
        cases h₄
        cases h₅
        decide
      · cases hinactive.symm.trans (hbelow p c hp)
  exact ⟨h, effectiveActivity_of_builds h⟩

/-- An active object is put below one that is off. -/
def attachedBelowOff : List (ℕ × ActivityCall ℕ ℕ) :=
  [(9, .create 0 10), (9, .create 1 11), (9, .setEnabled 0 false), (9, .build false),
    (9, .addChild 0 1)]

/-- The visit turns back at the object that is off, and the one below it stays active. -/
theorem not_effectiveActivity_of_addChild :
    ¬ ∀ calls, Steps.Throughout step (fun _ call (s : ActiveScene ℕ ℕ) =>
      ∀ fuel told, call = (fuel, .build told) → s.EffectiveActivity) empty calls := by
  intro h
  have hrun : ∃ r r', Steps.run step empty attachedBelowOff = some r ∧
      step r.1 (9, .build false) = some r' ∧ 0 ∈ r'.1.rootSceneObjects ∧
        1 ∈ r'.1.objects.childrenOf 0 ∧ r'.1.isActive 1 = true ∧
          r'.1.objects.parentOf 1 = some 0 ∧ r'.1.isEnabled 0 = false :=
    ⟨_, _, rfl, rfl, by decide, by decide, rfl, rfl, rfl⟩
  obtain ⟨r, r', hr, hr', hroot, hchild, hactive, hparent, hoff⟩ := hrun
  have hlast := (h (attachedBelowOff ++ [(9, .build false)])).last hr hr' 9 false rfl
  have hon := (hlast 0 hroot 1 (.single hchild)).mp hactive
  cases hoff.symm.trans (hon 0 (.single hparent))

/-- `RemoveChild` tells nobody: the child is enabled and on its own, and the build leaves it off. -/
example : (Steps.run step (empty : ActiveScene ℕ ℕ)
    [(9, .create 0 10), (9, .create 1 11), (9, .addChild 0 1), (9, .setEnabled 0 false),
      (9, .build false), (9, .removeChild 0 1), (9, .build false)]).map
    (fun r => (r.1.rootSceneObjects, r.1.isEnabled 1, r.1.isActive 1)) =
      some ([0, 1], true, false) := by
  decide

end ActiveScene

end SRCommon
