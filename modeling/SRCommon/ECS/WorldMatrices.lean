import SRCommon.ECS.TransformTrees

/-!
# World matrices

The matrix kept by a transform that is not dirty is the local matrix below those
of the transforms above. What a call changes is dirty after it, with everything
that was computed from it.
-/

namespace SRCommon

namespace TransformFrame

variable {V Q : Type}

def hasMatrix : TransformFrame V Q → Bool
  | .space2D _ | .space3D _ => true
  | _ => false

end TransformFrame

theorem Transform.hasMatrix_frame {V Q : Type} (t : Transform V Q) :
    t.frame.hasMatrix = t.hasMatrix := by
  cases t <;> rfl

/-- Only the kinds with a matrix have setters. -/
theorem Transform.hasMatrix_of_set {V Q : Type} {math : TransformMath V Q}
    {setter : TransformSetter V Q} {t u : Transform V Q} (h : t.set math setter = some u) :
    t.hasMatrix = true ∧ u.hasMatrix = true := by
  cases t with
  | zero => cases h
  | holder => cases h
  | space2D t =>
      obtain ⟨frame, -, rfl⟩ := Option.map_eq_some_iff.mp h
      exact ⟨rfl, rfl⟩
  | space3D t =>
      obtain ⟨v, -, rfl⟩ := Option.map_eq_some_iff.mp h
      exact ⟨rfl, rfl⟩

namespace TransformScene

open CachedValues

variable {ι ε V Q M : Type}

def frames (transform : ι → Option (Transform V Q)) (i : ι) : Option (TransformFrame V Q) :=
  (transform i).map Transform.frame

theorem frames_update [DecidableEq ι] {transform : ι → Option (Transform V Q)} {x : ι}
    (t : Transform V Q) : frames (Function.update transform x (some t)) =
      Function.update (frames transform) x (some t.frame) := by
  funext i
  rcases eq_or_ne i x with rfl | hi
  · rw [frames, Function.update_self, Function.update_self]
    rfl
  · rw [frames, Function.update_of_ne hi, Function.update_of_ne hi]
    rfl

theorem isGameObject_of_frames {s : TransformScene ι ε V Q M} {i : ι} {f : TransformFrame V Q}
    (h : frames s.transform i = some f) : s.isGameObject i = true := by
  obtain ⟨t, ht, -⟩ := Option.map_eq_some_iff.mp h
  rw [isGameObject, ht]
  rfl

theorem bind_parentGameObject {s : TransformScene ι ε V Q M} {x : ι}
    {o : SceneObject ι ε} (hs : s.Formed) (ho : s.objects x = some o) :
    ((s.parentGameObject o).bind s.transform).map Transform.frame =
      (s.objects.parentOf x).bind (frames s.transform) := by
  rw [parentGameObject_eq hs ho]
  cases s.objects.parentOf x with
  | none => rfl
  | some p =>
      rw [Option.filter_some, Option.bind_some, frames, isGameObject]
      cases hp : s.transform p with
      | none => rfl
      | some u => rw [Option.isSome_some, if_pos rfl, Option.bind_some, hp]

variable [One M] [Mul M]

/-- The world matrix of a game object by the transforms from it upwards. -/
inductive World (localMatrix : TransformFrame V Q → Option (TransformFrame V Q) → M)
    (s : TransformScene ι ε V Q M) : ι → M → Prop
  | identity {i : ι} {t : Transform V Q} : s.transform i = some t → t.hasMatrix = false →
      World localMatrix s i 1
  | top {i : ι} {t : Transform V Q} : s.transform i = some t → t.hasMatrix = true →
      (s.objects.parentOf i).bind s.transform = none →
      World localMatrix s i (localMatrix t.frame none)
  | child {i p : ι} {t u : Transform V Q} {m : M} : s.transform i = some t →
      t.hasMatrix = true → s.objects.parentOf i = some p → s.transform p = some u →
      World localMatrix s p m → World localMatrix s i (m * localMatrix t.frame (some u.frame))

/-- What a matrix depends on. -/
def matrixQuantity (localMatrix : TransformFrame V Q → Option (TransformFrame V Q) → M) :
    Quantity (TransformFrame V Q) M where
  kept := TransformFrame.hasMatrix
  uses t u := t.hasMatrix && u.hasMatrix
  value t u a :=
    let m := localMatrix (t.getD .zero) u
    a.elim (u.elim m fun _ => 1 * m) (· * m)
  kept_of_uses _ _ h := Bool.and_eq_true_iff.mp h

section

variable (localMatrix : TransformFrame V Q → Option (TransformFrame V Q) → M)
  (s : TransformScene ι ε V Q M)

def matrixDep : ι → Option ι := (matrixQuantity localMatrix).dep s.objects.parentOf (frames s.transform)

def matrixOf : ι → Option M → M :=
  (matrixQuantity localMatrix).compute s.objects.parentOf (frames s.transform)

/-- Matrices that are not dirty are right. -/
def MatricesRight : Prop :=
  (matrixQuantity localMatrix).Right s.objects.parentOf (frames s.transform) s.dirtyMatrix s.matrix

end

section

variable {localMatrix : TransformFrame V Q → Option (TransformFrame V Q) → M}
  {s s' : TransformScene ι ε V Q M} {i p x : ι} {t : Transform V Q} {parent : ι → Option ι}
  {kind : ι → Option (TransformFrame V Q)}

theorem kept_iff : (matrixQuantity localMatrix).Kept (frames s.transform) i ↔ s.hasMatrix i = true := by
  rw [Quantity.Kept, frames, hasMatrix, Option.any_map]
  simp only [matrixQuantity, Transform.hasMatrix_frame]

theorem isGameObject_of_dep
    (h : (matrixQuantity localMatrix).dep parent (frames s.transform) i = some p) :
    s.isGameObject i = true := by
  obtain ⟨-, f, -, hf, -⟩ := Quantity.dep_eq_some.mp h
  exact isGameObject_of_frames hf

theorem isGameObject_of_kept (h : (matrixQuantity localMatrix).Kept (frames s.transform) i) :
    s.isGameObject i = true := by
  have hsome : ((frames s.transform) i).isSome := Option.isSome_of_any h
  obtain ⟨f, hf⟩ := Option.isSome_iff_exists.mp hsome
  exact isGameObject_of_frames hf

theorem dep_of_kept {c : ι} (hc : (matrixQuantity localMatrix).Kept kind c)
    (hp : parent c = some p) (hkept : (matrixQuantity localMatrix).Kept kind p) :
    (matrixQuantity localMatrix).dep parent kind c = some p := by
  obtain ⟨t, ht, htkept⟩ := Option.any_eq_true _ _ |>.mp hc
  obtain ⟨u, hu, hukept⟩ := Option.any_eq_true _ _ |>.mp hkept
  exact Quantity.dep_eq_some.mpr ⟨hp, t, u, ht, hu, Bool.and_eq_true_iff.mpr ⟨htkept, hukept⟩⟩

theorem matrixOf_eq {f : TransformFrame V Q} {l : M} (hf : frames s.transform x = some f)
    (hl : l = localMatrix f ((s.objects.parentOf x).bind (frames s.transform))) (a : Option M) :
    s.matrixOf localMatrix x a = a.elim
      (((s.objects.parentOf x).bind (frames s.transform)).elim l fun _ => 1 * l) (· * l) := by
  rw [hl, matrixOf, Quantity.compute, hf]
  rfl

theorem matrixDep_eq_none (h : ∀ p, s.objects.parentOf x = some p → s.hasMatrix p = false) :
    s.matrixDep localMatrix x = none := by
  cases hdep : s.matrixDep localMatrix x with
  | none => rfl
  | some p =>
      have hp := kept_iff.mp (Quantity.kept_of_dep hdep).2
      cases hp.symm.trans (h p (Quantity.parent_of_dep hdep))

theorem MatricesRight.above (hs : s.Formed) (h : s.MatricesRight localMatrix)
    (hx : s.hasMatrix x = true) :
    RightAbove (s.matrixDep localMatrix) (s.matrixOf localMatrix) s.dirtyMatrix s.matrix x :=
  CachedValues.Right.above h (fun _ _ hdep => (Quantity.kept_of_dep hdep).2)
    (fun i => rooted_of_le (fun _ _ => Quantity.parent_of_dep) (hs.rooted i)) (kept_iff.mpr hx)

theorem matricesRight_empty : (empty : TransformScene ι ε V Q M).MatricesRight localMatrix where
  closed _ _ _ _ h := by cases h
  settled _ h := by cases h

section

variable [DecidableEq ι]

/-! ## Changes of the hierarchy -/

theorem keptByLinks_matricesRight :
    KeptByLinks (ε := ε) (MatricesRight (ι := ι) localMatrix) where
  relisted s objects h hparents := by
    rw [MatricesRight, hparents]
    exact h
  linked s s' objects c np fuel h hparents hlisted hs' := by
    obtain ⟨v, w, rfl, hmarked⟩ := onHierarchyChanged_marks
      (Function.update ((matrixQuantity localMatrix).dep objects.parentOf (frames s.transform)) c
        none) (fun _ => none) (fun i p hdep => by
        rcases eq_or_ne i c with rfl | hi
        · rw [Function.update_self] at hdep
          cases hdep
        · rw [Function.update_of_ne hi] at hdep
          exact ⟨isGameObject_of_dep hdep, hlisted i p hi (Quantity.parent_of_dep hdep)⟩)
      (fun _ _ hdep => by cases hdep) hs'
    rw [MatricesRight, hparents]
    rw [hparents] at hmarked
    refine Quantity.Right.linked h (hmarked.matrices.imp_left fun hc => ⟨fun hkept => ?_, hc.2⟩)
    cases hc.1.symm.trans (isGameObject_of_kept hkept)
  marked s s' x fuel h hlisted hs' := by
    obtain ⟨v, rfl, hspreads, -⟩ := updateTree_marks (s.matrixDep localMatrix)
      (fun i p hdep => ⟨isGameObject_of_dep hdep, hlisted i p (Quantity.parent_of_dep hdep)⟩) hs'
    exact CachedValues.Right.marked h hspreads

/-! ## Changes of a transform -/

variable {math : TransformMath V Q} {setter : TransformSetter V Q} {fuel : ℕ}

theorem kept_update_of_ne {c : ι} {f : TransformFrame V Q} (hc : c ≠ x) :
    (matrixQuantity localMatrix).Kept (Function.update kind x (some f)) c ↔
      (matrixQuantity localMatrix).Kept kind c := by
  rw [Quantity.Kept, Function.update_of_ne hc, Quantity.Kept]

/-- A new transform is clean, so that its first visit reaches the children. -/
theorem attachTransform_matricesRight (hs : s.Formed) (h : s.MatricesRight localMatrix)
    (hset : attachTransform fuel s x t = some s') : s'.MatricesRight localMatrix := by
  obtain ⟨v, w, rfl, hmarked⟩ := onHierarchyChanged_marks
    (avoiding ((matrixQuantity localMatrix).dep s.objects.parentOf
      (frames (Function.update s.transform x (some t)))) x) (fun _ => none)
    (fun i p hdep => by
      obtain ⟨-, hdep, -⟩ := avoiding_eq_some.mp hdep
      exact ⟨isGameObject_of_dep hdep, hs.listed (Quantity.parent_of_dep hdep)⟩)
    (fun _ _ hdep => by cases hdep) hset
  have hx : (Function.update s.transform x (some t) x).isSome = true := by
    rw [Function.update_self]
    rfl
  have hspreads := hmarked.matrices.resolve_left fun hnot => by cases hx.symm.trans hnot.1
  have hbelow := hmarked.below hx (Function.update_self ..)
  rw [MatricesRight, frames_update]
  rw [frames_update] at hspreads
  refine Quantity.Right.rekinded h (b := false) (fun i hi => Function.update_of_ne hi ..)
    (fun i hi hstale => hspreads.grows i ((Function.update_of_ne hi ..).trans hstale))
    hspreads.closed (fun _ => hspreads.self) (fun c hdep => ?_) (fun c hc hp hkept hclean => ?_)
  · rw [← frames_update] at hdep
    exact hbelow c (hs.listed (Quantity.parent_of_dep hdep)) (isGameObject_of_dep hdep)
  · have hkind := isGameObject_of_kept (s := s) hkept
    have hstale := hbelow c (hs.listed hp)
      ((congrArg Option.isSome (Function.update_of_ne hc ..)).trans hkind)
    cases hstale.symm.trans hclean

theorem set_matricesRight (hs : s.Formed) (h : s.MatricesRight localMatrix)
    (hset : set math fuel s x setter = some s') : s'.MatricesRight localMatrix := by
  obtain ⟨t, ht, hset⟩ := Option.bind_eq_some_iff.mp hset
  split at hset
  · cases hset
    exact h
  rename_i u hu
  obtain ⟨htkept, hukept⟩ := Transform.hasMatrix_of_set hu
  have hx : (matrixQuantity localMatrix).Kept (frames s.transform) x := by
    rw [kept_iff, hasMatrix, ht]
    exact htkept
  have hx' : (matrixQuantity localMatrix).Kept
      (Function.update (frames s.transform) x (some u.frame)) x := by
    rw [Quantity.Kept, Function.update_self]
    exact (Transform.hasMatrix_frame u).trans hukept
  obtain ⟨v, rfl, hspreads, hbelow⟩ := updateTree_marks
    (avoiding ((matrixQuantity localMatrix).dep s.objects.parentOf
      (frames (Function.update s.transform x (some u)))) x)
    (fun i p hdep => by
      obtain ⟨-, hdep, -⟩ := avoiding_eq_some.mp hdep
      exact ⟨isGameObject_of_dep hdep, hs.listed (Quantity.parent_of_dep hdep)⟩) hset
  rw [MatricesRight, frames_update]
  rw [frames_update] at hspreads
  -- where the object was dirty already, the visit ends at once
  have hmarked : ∀ c, (matrixQuantity localMatrix).dep s.objects.parentOf
      (Function.update (frames s.transform) x (some u.frame)) c = some x → v c = true := by
    intro c hdep
    have hparent := Quantity.parent_of_dep hdep
    cases hdirty : s.dirtyMatrix x with
    | false =>
        rw [← frames_update] at hdep
        exact hbelow hdirty c (hs.listed hparent) (isGameObject_of_dep hdep)
    | true =>
        rcases eq_or_ne c x with rfl | hc
        · exact hspreads.self
        · have hkept := (kept_update_of_ne hc).mp (Quantity.kept_of_dep hdep).1
          exact hspreads.grows c
            (h.closed x c not_false (dep_of_kept hkept hparent hx) hdirty)
  refine Quantity.Right.rekinded h (b := s.dirtyMatrix x) (fun _ _ => rfl)
    (fun i _ => hspreads.grows i) ?_ (fun _ => hspreads.self) hmarked
    (fun c hc hp hkept hclean => ?_)
  · rw [Function.update_eq_self]
    exact hspreads.closed
  · have hdep := dep_of_kept ((kept_update_of_ne hc).mpr hkept) hp hx'
    cases (hmarked c hdep).symm.trans hclean

theorem setPriority_matricesRight (h : s.MatricesRight localMatrix)
    (hset : s' = s ∨ ∃ t u, s.transform x = some (.space2D t) ∧ u.toFrame2D = t.toFrame2D ∧
      updatePriorityTree fuel { s with
        transform := Function.update s.transform x (some (.space2D u)) } x = some s') :
    s'.MatricesRight localMatrix := by
  rcases hset with rfl | ⟨t, u, ht, hframe, hs'⟩
  · exact h
  obtain ⟨v, rfl⟩ := updatePriorityTree_eq hs'
  have hframes : Function.update (frames s.transform) x (some (Transform.space2D u).frame) =
      frames s.transform := by
    rw [Function.update_eq_self_iff, frames, ht, Option.map_some, Transform.frame,
      Transform.frame, hframe]
  rw [MatricesRight, frames_update, hframes]
  exact h

/-! ## Reads -/

theorem getMatrix_identity {m : M} (ht : s.transform x = some t) (hkind : t.hasMatrix = false)
    (h : getMatrix localMatrix fuel s x = some (s', m)) : s' = s ∧ m = 1 := by
  cases fuel with
  | zero => cases h
  | succ fuel =>
      obtain ⟨o, u, -, hu, ⟨-, rfl, rfl⟩ | ⟨hnot, -⟩⟩ := getMatrix_cases h
      · exact ⟨rfl, rfl⟩
      · cases ht.symm.trans hu
        cases hkind.symm.trans hnot

/-- `GetMatrix` clears its flag before it asks the parent. -/
theorem getMatrix_reads {m : M} (hs : s.Formed)
    (habove : RightAbove (s.matrixDep localMatrix) (s.matrixOf localMatrix) s.dirtyMatrix
      s.matrix x)
    (hx : s.hasMatrix x = true) (h : getMatrix localMatrix fuel s x = some (s', m)) :
    Reads (s.matrixDep localMatrix) (s.matrixOf localMatrix) x s.dirtyMatrix s.matrix
      s'.dirtyMatrix s'.matrix m := by
  induction fuel generalizing s s' x m with
  | zero => cases h
  | succ fuel ih =>
      obtain ⟨o, t, ho, ht, hcases⟩ := getMatrix_cases h
      obtain ⟨hnot, -⟩ | ⟨-, ⟨hclean, rfl, rfl⟩ | ⟨hdirty, s₁, l, hl, rfl, hends⟩⟩ := hcases
      · rw [hasMatrix, ht] at hx
        cases hx.symm.trans hnot
      · exact .of_clean habove hclean
      rw [bind_parentGameObject hs ho] at hl
      have hvalue := matrixOf_eq (f := t.frame) (by rw [frames, ht]; rfl) hl
      have halone : s.matrixDep localMatrix x = none → m = s.matrixOf localMatrix x none →
          s₁ = { s with dirtyMatrix := Function.update s.dirtyMatrix x false } →
          Reads (s.matrixDep localMatrix) (s.matrixOf localMatrix) x s.dirtyMatrix s.matrix
            s₁.dirtyMatrix (Function.update s₁.matrix x m) m := by
        rintro hdep rfl rfl
        exact .of_alone hdirty hdep
      rw [parentGameObject_eq hs ho] at hends
      rcases hends with ⟨hnone, hs₁, rfl⟩ | ⟨p, n, hp, hread, rfl⟩
      · have hgame : ∀ p, s.objects.parentOf x = some p → s.transform p = none := by
          intro p hp
          rw [hp, Option.filter_some] at hnone
          cases hu : s.transform p with
          | none => rfl
          | some u =>
              rw [isGameObject, hu, Option.isSome_some, if_pos rfl] at hnone
              cases hnone
        refine halone (matrixDep_eq_none fun p hp => by rw [hasMatrix, hgame p hp]; rfl) ?_ hs₁
        rw [hvalue]
        cases hp : s.objects.parentOf x with
        | none => rfl
        | some p => rw [Option.bind_some, frames, hgame p hp]; rfl
      obtain ⟨hp, hgame⟩ := Option.filter_eq_some_iff.mp hp
      obtain ⟨u, hu⟩ := Option.isSome_iff_exists.mp hgame
      cases hukind : u.hasMatrix with
      | false =>
          obtain ⟨hs₁, rfl⟩ := getMatrix_identity (s := { s with
            dirtyMatrix := Function.update s.dirtyMatrix x false }) hu hukind hread
          refine halone (matrixDep_eq_none fun q hq => ?_) ?_ hs₁
          · cases hp.symm.trans hq
            rw [hasMatrix, hu]
            exact hukind
          · rw [hvalue, hp, Option.bind_some, frames, hu]
            rfl
      | true =>
          have hpkept : s.hasMatrix p = true := by
            rw [hasMatrix, hu]
            exact hukind
          have hdep : s.matrixDep localMatrix x = some p :=
            dep_of_kept (kept_iff.mpr hx) hp (kept_iff.mpr hpkept)
          have hrooted : ParentForest.Rooted (s.matrixDep localMatrix) x :=
            rooted_of_le (fun _ _ => Quantity.parent_of_dep) (hs.rooted x)
          have hother : ∀ i, i ≠ x → Function.update s.dirtyMatrix x false i = s.dirtyMatrix i :=
            fun i hi => Function.update_of_ne hi ..
          have hreads : Reads (s.matrixDep localMatrix) (s.matrixOf localMatrix) p
              (Function.update s.dirtyMatrix x false) s.matrix s₁.dirtyMatrix s₁.matrix n :=
            ih (s := { s with dirtyMatrix := Function.update s.dirtyMatrix x false })
              (hs.of_same rfl rfl) (habove.parent hrooted hdep hother) hpkept hread
          have hbelow := hreads.below hdirty hdep hother
          have hself := (hreads.keeps (Function.update_self ..)).1
          rw [hvalue, Option.elim_some, Function.update_eq_self_iff.mpr hself.symm] at hbelow
          exact hbelow

theorem getMatrix_matricesRight {m : M} (hs : s.Formed) (h : s.MatricesRight localMatrix)
    (hread : getMatrix localMatrix fuel s x = some (s', m)) : s'.MatricesRight localMatrix := by
  cases hx : s.hasMatrix x with
  | false =>
      cases fuel with
      | zero => cases hread
      | succ fuel =>
          obtain ⟨o, t, -, ht, -⟩ := getMatrix_cases hread
          rw [hasMatrix, ht] at hx
          rw [(getMatrix_identity ht hx hread).1]
          exact h
  | true =>
      have hreads := getMatrix_reads hs (h.above hs hx) hx hread
      obtain ⟨v, c, rfl⟩ := getMatrix_eq hread
      exact CachedValues.Right.read h (fun _ _ hdep => (Quantity.kept_of_dep hdep).2)
        (fun i => rooted_of_le (fun _ _ => Quantity.parent_of_dep) (hs.rooted i)) hreads

/-- `GetMatrix` returns when it has fuel for the transforms above. -/
theorem isSome_getMatrix {l : List ι} (hs : s.Formed)
    (hl : ParentForest.Lineage s.objects.parentOf x l) (hx : s.isGameObject x = true)
    (hfuel : l.length ≤ fuel) : (getMatrix localMatrix fuel s x).isSome := by
  induction fuel generalizing s x l with
  | zero =>
      rw [hl.eq_cons] at hfuel
      cases hfuel
  | succ fuel ih =>
      obtain ⟨t, ht⟩ := Option.isSome_iff_exists.mp hx
      obtain ⟨o, ho⟩ := Option.isSome_iff_exists.mp (hs.alive.exist x hx)
      rw [getMatrix, ho, Option.bind_some, ht, Option.bind_some]
      split
      · rfl
      split
      · rw [Option.isSome_map, parentGameObject_eq hs ho]
        cases hp : (s.objects.parentOf x).filter s.isGameObject with
        | none => rfl
        | some p =>
            obtain ⟨hp, hgame⟩ := Option.filter_eq_some_iff.mp hp
            rw [Option.elim_some, Option.isSome_map]
            cases hl with
            | top hnone => cases hnone.symm.trans hp
            | step hp' hl =>
                cases hp'.symm.trans hp
                exact ih (s := { s with
                    dirtyMatrix := Function.update s.dirtyMatrix x false })
                  (hs.of_same rfl rfl) hl hgame (Nat.le_of_succ_le_succ hfuel)
      · rfl

end

theorem World.of_value {m : M} (hx : s.hasMatrix x = true)
    (h : Value (s.matrixDep localMatrix) (s.matrixOf localMatrix) x m) :
    World localMatrix s x m := by
  induction h with
  | @top i hi =>
      obtain ⟨t, ht, hkind⟩ := Option.any_eq_true _ _ |>.mp hx
      rw [matrixOf_eq (f := t.frame) (by rw [frames, ht]; rfl) rfl]
      cases hp : s.objects.parentOf i with
      | none => exact .top ht hkind (by rw [hp]; rfl)
      | some p =>
          cases hu : s.transform p with
          | none =>
              rw [Option.bind_some, frames, hu]
              exact .top ht hkind (by rw [hp, Option.bind_some, hu])
          | some u =>
              have hnot : u.hasMatrix = false := by
                cases hukind : u.hasMatrix with
                | false => rfl
                | true =>
                    have hpkept : s.hasMatrix p = true := by
                      rw [hasMatrix, hu]
                      exact hukind
                    cases hi.symm.trans (dep_of_kept (kept_iff.mpr hx) hp (kept_iff.mpr hpkept))
              rw [Option.bind_some, frames, hu]
              exact .child ht hkind hp hu (.identity hu hnot)
  | @step i p a hi _ ih =>
      obtain ⟨t, ht, hkind⟩ := Option.any_eq_true _ _ |>.mp hx
      have hp := kept_iff.mp (Quantity.kept_of_dep hi).2
      obtain ⟨u, hu⟩ := Option.isSome_iff_exists.mp (Option.isSome_of_any hp)
      rw [matrixOf_eq (f := t.frame) (by rw [frames, ht]; rfl) rfl, Quantity.parent_of_dep hi,
        Option.bind_some, frames, hu]
      exact .child ht hkind (Quantity.parent_of_dep hi) hu (ih hp)

section

variable [DecidableEq ι] [DecidableEq ε] {math : TransformMath V Q}

theorem MatricesRight.step {call : ℕ × TransformCall ι ε V Q}
    {r : TransformScene ι ε V Q M × TransformAnswer M} (hs : s.Formed)
    (h : s.MatricesRight localMatrix) (hstep : s.step math localMatrix call = some r) :
    r.1.MatricesRight localMatrix := by
  obtain ⟨fuel, call⟩ := call
  cases call with
  | create self entityId hasScene transform =>
      obtain ⟨t, ht, rfl⟩ := Option.map_eq_some_iff.mp hstep
      obtain ⟨objects, hparents, -, hformed, -, hcases⟩ := create_cases hs ht
      have hobjects := keptByLinks_matricesRight.relisted s objects h hparents
      rcases hcases with ⟨-, rfl⟩ | ⟨t, -, hattach⟩
      · exact hobjects
      · exact attachTransform_matricesRight hformed hobjects hattach
  | set self setter =>
      obtain ⟨t, ht, rfl⟩ := Option.map_eq_some_iff.mp hstep
      exact set_matricesRight hs h ht
  | setLocalPriority self priority =>
      obtain ⟨t, ht, rfl⟩ := Option.map_eq_some_iff.mp hstep
      exact setPriority_matricesRight h (setLocalPriority_cases ht)
  | setRelativePriority self relative =>
      obtain ⟨t, ht, rfl⟩ := Option.map_eq_some_iff.mp hstep
      exact setPriority_matricesRight h (setRelativePriority_cases ht)
  | setTransform self transform =>
      obtain ⟨t, ht, rfl⟩ := Option.map_eq_some_iff.mp hstep
      obtain ⟨-, -, -, -, rfl⟩ | ⟨-, -, -, -, -, hattach⟩ := setTransform_cases ht
      · exact h
      · exact attachTransform_matricesRight hs h hattach
  | addChild self pChild =>
      obtain ⟨t, ht, rfl⟩ := Option.map_eq_some_iff.mp hstep
      exact keptByLinks_matricesRight.addChild hs h ht
  | removeChild self pChild =>
      obtain ⟨t, ht, rfl⟩ := Option.map_eq_some_iff.mp hstep
      exact keptByLinks_matricesRight.removeChild hs h ht
  | moveToTree self destination =>
      obtain ⟨t, ht, rfl⟩ := Option.map_eq_some_iff.mp hstep
      exact keptByLinks_matricesRight.moveToTree hs h ht
  | getMatrix self =>
      obtain ⟨t, ht, rfl⟩ := Option.map_eq_some_iff.mp hstep
      exact getMatrix_matricesRight hs h ht
  | getPriority self =>
      obtain ⟨t, ht, rfl⟩ := Option.map_eq_some_iff.mp hstep
      obtain ⟨v, c, hread⟩ := getPriority_eq ht
      rw [hread]
      exact h

end

end

/-- A parent that is scaled after the matrix of its child was read. -/
def scaledParent : List (ℕ × TransformCall ℕ ℕ ℤ Unit) :=
  let t : Transform3D ℤ Unit :=
    { rotation := 0, translation := 0, quaternion := (), scale := 1, skew := 1 }
  [(5, .create 0 0 true (some (.space3D t))), (5, .create 1 1 true (some (.space3D t))),
    (5, .addChild 0 1), (5, .getMatrix 1), (5, .set 0 (.setScale 3))]

def integerMath : TransformMath ℤ Unit where
  zero := 0
  one := 1
  identity := ()
  equals a b := a = b
  sub a b := a - b
  empty a := a = 0
  containsNaN _ := false
  isFinite _ := true
  equalsQuat _ _ := true
  toQuat _ := ()
  eulerAngle _ := 0

/-- A matrix that only scales. -/
structure ScaleMatrix where
  factor : ℤ

instance : One ScaleMatrix := ⟨⟨1⟩⟩

instance : Mul ScaleMatrix := ⟨fun a b => ⟨a.factor * b.factor⟩⟩

def scaleMatrix (t : TransformFrame ℤ Unit) (_ : Option (TransformFrame ℤ Unit)) : ScaleMatrix :=
  match t with
  | .space3D t => ⟨t.scale⟩
  | _ => 1

end TransformScene

end SRCommon
