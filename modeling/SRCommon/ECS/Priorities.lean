import SRCommon.ECS.WorldMatrices

/-!
# Priorities

A kept priority that is not dirty is the sum along the relative transforms above.
What depends on a priority is marked when it changes, except that a transform of
another kind, put where a `Transform2D` was, does not mark the children.
-/

namespace SRCommon

namespace TransformScene

open CachedValues

variable {ι ε V Q M : Type}

/-- The priority of a game object by the transforms from it upwards. -/
inductive Priority (s : TransformScene ι ε V Q M) : ι → ℤ → Prop
  | alone {i : ι} {t : Transform2D V Q} : s.transform i = some (.space2D t) →
      (t.relativePriority = true → ∀ p u, s.objects.parentOf i = some p →
        s.transform p ≠ some (.space2D u)) → Priority s i t.localPriority
  | relative {i p : ι} {t u : Transform2D V Q} {a : ℤ} : s.transform i = some (.space2D t) →
      t.relativePriority = true → s.objects.parentOf i = some p →
      s.transform p = some (.space2D u) → Priority s p a → Priority s i (t.localPriority + a)

/-- By the relative flag and the local priority. -/
def priorityQuantity : Quantity (Bool × ℤ) ℤ where
  kept _ := true
  uses t _ := t.1
  value t _ a :=
    let localPriority := t.elim 0 Prod.snd
    a.elim localPriority (localPriority + ·)
  kept_of_uses _ _ _ := ⟨rfl, rfl⟩

def priorityKinds (transform : ι → Option (Transform V Q)) (i : ι) : Option (Bool × ℤ) :=
  ((transform i).bind Transform.as2D).map fun t => (t.relativePriority, t.localPriority)

/-- Priorities that are not dirty are right. -/
def PrioritiesRight (s : TransformScene ι ε V Q M) : Prop :=
  priorityQuantity.Right s.objects.parentOf (priorityKinds s.transform) s.isDirtyPriority s.priority

def priorityDep (s : TransformScene ι ε V Q M) : ι → Option ι :=
  priorityQuantity.dep s.objects.parentOf (priorityKinds s.transform)

def priorityOf (s : TransformScene ι ε V Q M) : ι → Option ℤ → ℤ :=
  priorityQuantity.compute s.objects.parentOf (priorityKinds s.transform)

section

variable {s s' : TransformScene ι ε V Q M} {i p x : ι} {parent : ι → Option ι}
  {transform : ι → Option (Transform V Q)}

theorem kept_iff_has2D : priorityQuantity.Kept (priorityKinds s.transform) i ↔
    s.has2D i = true := by
  rw [Quantity.Kept, priorityKinds, has2D, transform2D]
  cases (s.transform i).bind Transform.as2D <;> rfl

theorem has2D_of_dep (h : priorityQuantity.dep parent (priorityKinds s.transform) i = some p) :
    s.has2D i = true :=
  kept_iff_has2D.mp (Quantity.kept_of_dep h).1

theorem priorityDep_eq_some : s.priorityDep i = some p ↔ s.objects.parentOf i = some p ∧
    (∃ t, s.transform2D i = some t ∧ t.relativePriority = true) ∧ s.has2D p = true := by
  rw [priorityDep, Quantity.dep_eq_some, has2D, Option.isSome_iff_exists]
  constructor
  · rintro ⟨hp, a, b, ha, hb, huses⟩
    obtain ⟨t, ht, rfl⟩ := Option.map_eq_some_iff.mp ha
    obtain ⟨u, hu, rfl⟩ := Option.map_eq_some_iff.mp hb
    exact ⟨hp, ⟨t, ht, huses⟩, u, hu⟩
  · rintro ⟨hp, ⟨t, ht, huses⟩, u, hu⟩
    exact ⟨hp, _, _, Option.map_eq_some_iff.mpr ⟨t, ht, rfl⟩,
      Option.map_eq_some_iff.mpr ⟨u, hu, rfl⟩, huses⟩

theorem priorityOf_eq {t : Transform2D V Q} (ht : s.transform2D i = some t) (a : Option ℤ) :
    s.priorityOf i a = a.elim t.localPriority (t.localPriority + ·) := by
  have hkind : priorityKinds s.transform i = some (t.relativePriority, t.localPriority) :=
    Option.map_eq_some_iff.mpr ⟨t, ht, rfl⟩
  rw [priorityOf, Quantity.compute, hkind]
  rfl

theorem PrioritiesRight.above (hs : s.Formed) (h : s.PrioritiesRight) (hx : s.has2D x = true) :
    RightAbove s.priorityDep s.priorityOf s.isDirtyPriority s.priority x :=
  CachedValues.Right.above h (fun _ _ hdep => (Quantity.kept_of_dep hdep).2)
    (fun i => rooted_of_le (fun _ _ => Quantity.parent_of_dep) (hs.rooted i))
    (kept_iff_has2D.mpr hx)

section

variable [DecidableEq ι]

theorem priorityKinds_update (t : Transform V Q) :
    priorityKinds (Function.update transform x (some t)) =
      Function.update (priorityKinds transform) x
        (t.as2D.map fun t => (t.relativePriority, t.localPriority)) := by
  funext i
  rcases eq_or_ne i x with rfl | hi
  · rw [priorityKinds, Function.update_self, Function.update_self]
    rfl
  · rw [priorityKinds, Function.update_of_ne hi, Function.update_of_ne hi]
    rfl

/-! ## Changes of the hierarchy -/

theorem keptByLinks_prioritiesRight :
    KeptByLinks (PrioritiesRight (ι := ι) (ε := ε) (V := V) (Q := Q) (M := M)) where
  relisted s objects h hparents := by
    rw [PrioritiesRight, hparents]
    exact h
  linked s s' objects c np fuel h hparents hlisted hs' := by
    obtain ⟨v, w, rfl, hmarked⟩ := onHierarchyChanged_marks (fun _ => none)
      (Function.update
        (priorityQuantity.dep objects.parentOf (priorityKinds s.transform)) c none)
      (fun _ _ hdep => by cases hdep) (fun i p hdep => by
        rcases eq_or_ne i c with rfl | hi
        · rw [Function.update_self] at hdep
          cases hdep
        · rw [Function.update_of_ne hi] at hdep
          exact ⟨has2D_of_dep hdep, hlisted i p hi (Quantity.parent_of_dep hdep)⟩) hs'
    rw [PrioritiesRight, hparents]
    rw [hparents] at hmarked
    refine Quantity.Right.linked h
      (hmarked.priorities.imp (fun hc => ⟨fun hkept => ?_, hc.2⟩) And.right)
    cases hc.1.symm.trans (kept_iff_has2D.mp hkept)
  marked s s' x fuel h _ hs' := by
    obtain ⟨v, rfl⟩ := updateTree_eq hs'
    exact h

/-! ## Changes of a transform -/

variable {math : TransformMath V Q} {setter : TransformSetter V Q} {fuel : ℕ}

theorem set_prioritiesRight (h : s.PrioritiesRight) (hset : set math fuel s x setter = some s') :
    s'.PrioritiesRight := by
  obtain ⟨t, ht, hset⟩ := Option.bind_eq_some_iff.mp hset
  split at hset
  · cases hset
    exact h
  rename_i u hu
  obtain ⟨v, rfl⟩ := updateTree_eq hset
  have hkinds : Function.update (priorityKinds s.transform) x
      (u.as2D.map fun t => (t.relativePriority, t.localPriority)) =
        priorityKinds s.transform := by
    rw [Function.update_eq_self_iff, priorityKinds, ht, Option.bind_some]
    cases t with
    | zero => cases hu
    | holder => cases hu
    | space2D t =>
        obtain ⟨frame, -, rfl⟩ := Option.map_eq_some_iff.mp hu
        rfl
    | space3D t =>
        obtain ⟨w, -, rfl⟩ := Option.map_eq_some_iff.mp hu
        rfl
  rw [PrioritiesRight, priorityKinds_update, hkinds]
  exact h

theorem setPriority_prioritiesRight (hs : s.Formed) (h : s.PrioritiesRight)
    (hset : s' = s ∨ ∃ t u, s.transform x = some (.space2D t) ∧ u.toFrame2D = t.toFrame2D ∧
      updatePriorityTree fuel { s with
        transform := Function.update s.transform x (some (.space2D u)) } x = some s') :
    s'.PrioritiesRight := by
  rcases hset with rfl | ⟨t, u, ht, -, hs'⟩
  · exact h
  obtain ⟨v, rfl, hspreads, hbelow⟩ := updatePriorityTree_marks
    (avoiding (priorityQuantity.dep s.objects.parentOf
      (priorityKinds (Function.update s.transform x (some (.space2D u))))) x)
    (fun i p hdep => by
      obtain ⟨-, hdep, -⟩ := avoiding_eq_some.mp hdep
      exact ⟨has2D_of_dep hdep, hs.listed (Quantity.parent_of_dep hdep)⟩) hs'
  rw [PrioritiesRight, priorityKinds_update]
  rw [priorityKinds_update] at hspreads
  refine Quantity.Right.rekinded h (b := s.isDirtyPriority x) (fun _ _ => rfl)
    (fun i _ => hspreads.grows i) ?_ (fun _ => hspreads.self) (fun c hdep => ?_)
    (fun c hc hp hkept hclean => ?_)
  · rw [Function.update_eq_self]
    exact hspreads.closed
  · rw [← priorityKinds_update] at hdep
    exact hbelow c (hs.listed (Quantity.parent_of_dep hdep)) (has2D_of_dep hdep)
  · have hstale := hbelow c (hs.listed hp) (by
      have hkind := kept_iff_has2D.mp hkept
      simpa [has2D, transform2D, Function.update_of_ne hc] using hkind)
    cases hstale.symm.trans hclean

variable [One M] {t : Transform V Q}

theorem attachTransform_prioritiesRight (hs : s.Formed) (h : s.PrioritiesRight)
    (hkeeps : t.as2D = none → ∀ c, s.priorityDep c = some x → s.isDirtyPriority c = false →
      s.priority x = 0)
    (hset : attachTransform fuel s x t = some s') : s'.PrioritiesRight := by
  obtain ⟨v, w, rfl, hmarked⟩ := onHierarchyChanged_marks (fun _ => none)
    (avoiding (priorityQuantity.dep s.objects.parentOf
      (priorityKinds (Function.update s.transform x (some t)))) x)
    (fun _ _ hdep => by cases hdep) (fun i p hdep => by
      obtain ⟨-, hdep, -⟩ := avoiding_eq_some.mp hdep
      exact ⟨has2D_of_dep hdep, hs.listed (Quantity.parent_of_dep hdep)⟩) hset
  have h2D : has2D { s with transform := Function.update s.transform x (some t) } x =
      t.as2D.isSome := by
    simp [has2D, transform2D]
  rw [PrioritiesRight, priorityKinds_update]
  have hcache : ∀ i, i ≠ x → Function.update s.priority x 0 i = s.priority i := fun i hi =>
    Function.update_of_ne hi ..
  cases hkind : t.as2D with
  | some u =>
      rw [hkind] at h2D
      have hspreads := (hmarked.priorities.resolve_left fun hnot => by
        cases h2D.symm.trans hnot.1).2
      have hbelow := hmarked.below2D h2D
      rw [priorityKinds_update, hkind] at hspreads
      refine Quantity.Right.rekinded h (b := true) hcache
        (fun i hi hstale => hspreads.grows i ((Function.update_of_ne hi ..).trans hstale))
        hspreads.closed (fun _ => hspreads.self) (fun c hdep => ?_)
        (fun c hc hp hkept hclean => ?_)
      · have hdep' : priorityQuantity.dep s.objects.parentOf
            (priorityKinds (Function.update s.transform x (some t))) c = some x := by
          rw [priorityKinds_update, hkind]
          exact hdep
        exact hbelow c (hs.listed (Quantity.parent_of_dep hdep)) (has2D_of_dep hdep')
      · have hstale := hbelow c (hs.listed hp) (by
          have hkind := kept_iff_has2D.mp hkept
          simpa [has2D, transform2D, Function.update_of_ne hc] using hkind)
        cases hstale.symm.trans hclean
  | none =>
      rw [hkind] at h2D
      obtain rfl : w = Function.update s.isDirtyPriority x true :=
        (hmarked.priorities.resolve_right fun hnot => by cases h2D.symm.trans hnot.1).2
      refine Quantity.Right.rekinded h (b := true) hcache
        (fun i hi hstale => (Function.update_of_ne hi ..).trans hstale) (fun _ => id)
        (fun hnot => by cases hnot) (fun c hdep => ?_) (fun c hc hp hkept hclean => ?_)
      · obtain ⟨-, _, _, -, hx, -⟩ := Quantity.dep_eq_some.mp hdep
        rw [Function.update_self] at hx
        cases hx
      have hold : s.isDirtyPriority c = false := (Function.update_of_ne hc ..).symm.trans hclean
      obtain ⟨u, hu⟩ := Option.isSome_iff_exists.mp (kept_iff_has2D.mp hkept)
      have hsettled : s.priority c = s.priorityOf c ((s.priorityDep c).map s.priority) :=
        h.settled c hkept hold
      rw [priorityOf_eq hu] at hsettled
      have hlocal : s.priority c = u.localPriority := by
        rw [hsettled]
        cases hdep : s.priorityDep c with
        | none => rfl
        | some p =>
            cases hp.symm.trans (priorityDep_eq_some.mp hdep).1
            rw [Option.map_some, Option.elim_some, hkeeps hkind c hdep hold, Int.add_zero]
      have hkindc : priorityKinds s.transform c = some (u.relativePriority, u.localPriority) :=
        Option.map_eq_some_iff.mpr ⟨u, hu, rfl⟩
      rw [hlocal, hkindc]
      rfl

end

/-! ## Reads -/

theorem priorityParent_eq {o : SceneObject ι ε} {t : Transform2D V Q} (hs : s.Formed)
    (ho : s.objects x = some o) (ht : s.transform2D x = some t) :
    s.priorityParent o t = s.priorityDep x := by
  have hgame : ∀ p, s.has2D p = true → s.isGameObject p = true := by
    intro p hp
    obtain ⟨u, hu⟩ := Option.isSome_iff_exists.mp hp
    rw [isGameObject, transform2D_eq_some.mp hu]
    rfl
  ext p
  rw [priorityParent, parentGameObject_eq hs ho, priorityDep_eq_some, ht]
  cases hrelative : t.relativePriority with
  | false => simp [hrelative]
  | true =>
      simp only [if_true, Option.filter_eq_some_iff, Option.some.injEq, exists_eq_left', hrelative,
        true_and, and_assoc]
      exact ⟨fun h => ⟨h.1, h.2.2⟩, fun h => ⟨h.1, hgame p h.2, h.2⟩⟩

section

variable [DecidableEq ι] {fuel : ℕ}

/-- `GetPriority` clears its flag after it has asked the parent. -/
theorem getPriority_reads {a : ℤ} (hs : s.Formed)
    (habove : RightAbove s.priorityDep s.priorityOf s.isDirtyPriority s.priority x)
    (h : getPriority fuel s x = some (s', a)) :
    Reads s.priorityDep s.priorityOf x s.isDirtyPriority s.priority
      s'.isDirtyPriority s'.priority a := by
  induction fuel generalizing s s' x a with
  | zero => cases h
  | succ fuel ih =>
      obtain ⟨o, t, ho, ht, ⟨hclean, rfl, rfl⟩ | ⟨hdirty, s₁, rfl, hends⟩⟩ := getPriority_cases h
      · exact .of_clean habove hclean
      rw [priorityParent_eq hs ho ht] at hends
      rcases hends with ⟨hdep, rfl, rfl⟩ | ⟨p, b, hdep, hread, rfl⟩
      · have halone : Reads s₁.priorityDep s₁.priorityOf x s₁.isDirtyPriority s₁.priority _ _ _ :=
          .of_alone hdirty hdep
        rw [priorityOf_eq ht, Option.elim_none] at halone
        exact halone
      · have hrooted : ParentForest.Rooted s.priorityDep x :=
          rooted_of_le (fun _ _ => Quantity.parent_of_dep) (hs.rooted x)
        have hreads := ih hs (habove.parent hrooted hdep fun _ _ => rfl) hread
        have hbelow := hreads.below hdirty hdep fun _ _ => rfl
        rw [priorityOf_eq ht, Option.elim_some] at hbelow
        exact hbelow

theorem getPriority_prioritiesRight {a : ℤ} (hs : s.Formed) (h : s.PrioritiesRight)
    (hread : getPriority fuel s x = some (s', a)) : s'.PrioritiesRight := by
  have hx : s.has2D x = true := by
    cases fuel with
    | zero => cases hread
    | succ fuel =>
        obtain ⟨o, t, -, ht, -⟩ := getPriority_cases hread
        rw [has2D, ht]
        rfl
  have hreads := getPriority_reads hs (h.above hs hx) hread
  obtain ⟨v, c, rfl⟩ := getPriority_eq hread
  exact CachedValues.Right.read h (fun _ _ hdep => (Quantity.kept_of_dep hdep).2)
    (fun i => rooted_of_le (fun _ _ => Quantity.parent_of_dep) (hs.rooted i)) hreads

theorem isSome_getPriority {l : List ι} (hs : s.Formed)
    (hl : ParentForest.Lineage s.objects.parentOf x l) (hx : s.has2D x = true)
    (hfuel : l.length ≤ fuel) : (getPriority fuel s x).isSome := by
  induction fuel generalizing x l with
  | zero =>
      rw [hl.eq_cons] at hfuel
      cases hfuel
  | succ fuel ih =>
      obtain ⟨t, ht⟩ := Option.isSome_iff_exists.mp hx
      have hgame : (s.transform x).isSome := by rw [transform2D_eq_some.mp ht]; rfl
      obtain ⟨o, ho⟩ := Option.isSome_iff_exists.mp (hs.alive.exist x hgame)
      rw [getPriority, ho, Option.bind_some, ht, Option.bind_some]
      split
      · rw [Option.isSome_map, ← priorityParent, priorityParent_eq hs ho ht]
        cases hdep : s.priorityDep x with
        | none => rfl
        | some p =>
            obtain ⟨hp, -, hp2D⟩ := priorityDep_eq_some.mp hdep
            rw [Option.elim_some, Option.isSome_map]
            cases hl with
            | top hnone => cases hnone.symm.trans hp
            | step hp' hl =>
                cases hp'.symm.trans hp
                exact ih hl hp2D (Nat.le_of_succ_le_succ hfuel)
      · rfl

end

theorem Priority.of_value {a : ℤ} (hx : s.has2D x = true)
    (h : Value s.priorityDep s.priorityOf x a) : Priority s x a := by
  induction h with
  | @top i hi =>
      obtain ⟨t, ht⟩ := Option.isSome_iff_exists.mp hx
      rw [priorityOf_eq ht]
      refine .alone (transform2D_eq_some.mp ht) fun hrelative p u hp hu => ?_
      have hp2D : s.has2D p = true := by
        rw [has2D, transform2D_eq_some.mpr hu]
        rfl
      cases hi.symm.trans (priorityDep_eq_some.mpr ⟨hp, ⟨t, ht, hrelative⟩, hp2D⟩)
  | @step i p a hi _ ih =>
      obtain ⟨hp, ⟨t, ht, hrelative⟩, hp2D⟩ := priorityDep_eq_some.mp hi
      obtain ⟨u, hu⟩ := Option.isSome_iff_exists.mp hp2D
      rw [priorityOf_eq ht]
      exact .relative (transform2D_eq_some.mp ht) hrelative hp (transform2D_eq_some.mp hu)
        (ih hp2D)

/-! ## Runs -/

/-- A `Transform2D` that the kept priority of a child counts gives way to a transform of another
kind only if its own priority is 0. -/
def KeepsPriorities (s : TransformScene ι ε V Q M) (call : ℕ × TransformCall ι ε V Q) : Prop :=
  match call.2 with
  | .setTransform self transform =>
      transform.as2D = none → (transform = .holder → s.objects.parentOf self = none) →
        ∀ c t u, s.objects.parentOf c = some self → s.transform self = some (.space2D u) →
          s.transform c = some (.space2D t) → t.relativePriority = true →
          s.isDirtyPriority c = false → s.priority self = 0
  | _ => True

theorem prioritiesRight_empty [One M] : (empty : TransformScene ι ε V Q M).PrioritiesRight where
  closed _ _ _ h := by cases h
  settled _ h := by cases h

variable [DecidableEq ι] [DecidableEq ε] [One M] [Mul M] {math : TransformMath V Q}
  {localMatrix : TransformFrame V Q → Option (TransformFrame V Q) → M}

theorem PrioritiesRight.step {call : ℕ × TransformCall ι ε V Q}
    {r : TransformScene ι ε V Q M × TransformAnswer M} (hs : s.Formed) (h : s.PrioritiesRight)
    (hkeeps : s.KeepsPriorities call) (hstep : s.step math localMatrix call = some r) :
    r.1.PrioritiesRight := by
  obtain ⟨fuel, call⟩ := call
  cases call with
  | create self entityId hasScene transform =>
      obtain ⟨t, ht, rfl⟩ := Option.map_eq_some_iff.mp hstep
      obtain ⟨objects, hparents, hnew, hformed, -, hcases⟩ := create_cases hs ht
      have hobjects := keptByLinks_prioritiesRight.relisted s objects h hparents
      rcases hcases with ⟨-, rfl⟩ | ⟨t, -, hattach⟩
      · exact hobjects
      · refine attachTransform_prioritiesRight hformed hobjects (fun _ c hdep _ => ?_) hattach
        -- no object has the new one as its parent
        have hparent := Quantity.parent_of_dep hdep
        rw [hparents] at hparent
        have hlive := hs.live c self hparent
        rw [hnew] at hlive
        cases hlive
  | set self setter =>
      obtain ⟨t, ht, rfl⟩ := Option.map_eq_some_iff.mp hstep
      exact set_prioritiesRight h ht
  | setLocalPriority self priority =>
      obtain ⟨t, ht, rfl⟩ := Option.map_eq_some_iff.mp hstep
      exact setPriority_prioritiesRight hs h (setLocalPriority_cases ht)
  | setRelativePriority self relative =>
      obtain ⟨t, ht, rfl⟩ := Option.map_eq_some_iff.mp hstep
      exact setPriority_prioritiesRight hs h (setRelativePriority_cases ht)
  | setTransform self transform =>
      obtain ⟨t, ht, rfl⟩ := Option.map_eq_some_iff.mp hstep
      obtain ⟨-, -, -, -, rfl⟩ | ⟨o, u, ho, -, hholder, hattach⟩ := setTransform_cases ht
      · exact h
      refine attachTransform_prioritiesRight hs h (fun hkind c hdep hclean => ?_) hattach
      obtain ⟨hparent, ⟨v, hv, hrelative⟩, hself⟩ := priorityDep_eq_some.mp hdep
      obtain ⟨w, hw⟩ := Option.isSome_iff_exists.mp hself
      refine hkeeps hkind (fun heq => ?_) c v w hparent (transform2D_eq_some.mp hw)
        (transform2D_eq_some.mp hv) hrelative hclean
      rw [← SceneHierarchy.valid_parentOf hs.live, SceneHierarchy.parentOf_eq ho]
      exact hholder heq
  | addChild self pChild =>
      obtain ⟨t, ht, rfl⟩ := Option.map_eq_some_iff.mp hstep
      exact keptByLinks_prioritiesRight.addChild hs h ht
  | removeChild self pChild =>
      obtain ⟨t, ht, rfl⟩ := Option.map_eq_some_iff.mp hstep
      exact keptByLinks_prioritiesRight.removeChild hs h ht
  | moveToTree self destination =>
      obtain ⟨t, ht, rfl⟩ := Option.map_eq_some_iff.mp hstep
      exact keptByLinks_prioritiesRight.moveToTree hs h ht
  | getMatrix self =>
      obtain ⟨t, ht, rfl⟩ := Option.map_eq_some_iff.mp hstep
      obtain ⟨v, c, hread⟩ := getMatrix_eq ht
      rw [hread]
      exact h
  | getPriority self =>
      obtain ⟨t, ht, rfl⟩ := Option.map_eq_some_iff.mp hstep
      exact getPriority_prioritiesRight hs h ht

end

section

/-- A child below a parent of priority 1, and a call on both. -/
def prioritized (call : TransformCall ℕ ℕ ℤ Unit) : List (ℕ × TransformCall ℕ ℕ ℤ Unit) :=
  [(5, .create 0 0 true (some (.space2D (.new integerMath)))),
    (5, .create 1 1 true (some (.space2D (.new integerMath)))), (5, .addChild 0 1),
    (5, .setLocalPriority 0 1), (5, .getPriority 1), (5, call)]

end

end TransformScene

end SRCommon
