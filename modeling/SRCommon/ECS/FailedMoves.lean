import SRCommon.ECS.HierarchyFrame
import SRCommon.ECS.HierarchyPaths

/-!
# Moves that fail

`MoveToTree` takes an object out of its parent before the destination checks
it. A move that is refused leaves the object without parent, and assigns the
roots below it anew.
-/

namespace ParentForest

variable {ι : Type*} [DecidableEq ι] {parent : ι → Option ι} {i x : ι} {l : List ι}

/-- What is left of a lineage when one node is cut off: it ends there. -/
theorem Lineage.exists_cut (h : Lineage parent i l) (x : ι) :
    ∃ l', Lineage (Function.update parent x none) i l' ∧ (x ∈ l → x ∈ l') ∧ (x ∉ l → l' = l) := by
  induction h with
  | @top i hi =>
      refine ⟨[i], .top ?_, id, fun _ => rfl⟩
      rcases eq_or_ne i x with rfl | hne
      · exact Function.update_self ..
      · rw [Function.update_of_ne hne, hi]
  | @step i p l hi hl ih =>
      rcases eq_or_ne i x with rfl | hne
      · exact ⟨[i], .top (Function.update_self ..), fun _ => List.mem_cons_self,
          fun hx => absurd List.mem_cons_self hx⟩
      · obtain ⟨l', hl', hmem, hsame⟩ := ih
        refine ⟨i :: l', .step ((Function.update_of_ne hne ..).trans hi) hl', fun hx => ?_,
          fun hx => ?_⟩
        · exact List.mem_cons_of_mem _ (hmem ((List.mem_cons.mp hx).resolve_left hne.symm))
        · rw [hsame fun hmem => hx (List.mem_cons_of_mem _ hmem)]

end ParentForest

namespace SRCommon

namespace SceneHierarchy

open ParentForest (Under Lineage)

variable {ι ε : Type} {s s' t t' : SceneHierarchy ι ε} {fuel : ℕ} {x i j p : ι}

/-- What a refusal must not change. -/
structure SameHierarchy (s s' : SceneHierarchy ι ε) : Prop where
  parentOf : s'.parentOf = s.parentOf
  childrenOf : s'.childrenOf = s.childrenOf
  rootOf : s'.rootOf = s.rootOf
  pathOf : s'.pathOf = s.pathOf

theorem sameHierarchy_of_rootless (h : s'.rootless = s.rootless) (hroots : s'.rootOf = s.rootOf) :
    s.SameHierarchy s' :=
  ⟨parentOf_of_rootless h, childrenOf_of_rootless h, hroots, pathOf_of_rootless h⟩

variable [DecidableEq ι]

/-! ## Roots -/

theorem childrenOf_assignRoot {o : SceneObject ι ε} (ho : s i = some o) :
    (s.assignRoot i o).childrenOf = s.childrenOf := childrenOf_put_same ho rfl

theorem rootOf_assignRoot_of_ne {o : SceneObject ι ε} (hj : j ≠ i) :
    (s.assignRoot i o).rootOf j = s.rootOf j := by
  rw [assignRoot, rootOf_put, Function.update_of_ne hj]

/-- `UpdateRoot` goes down the children lists. -/
theorem rootOf_updateRoot_of_not_under (hs : s.Forest) (hchildren : t.childrenOf = s.childrenOf)
    (h : updateRoot fuel t x = some t') (hj : ¬ Under s.parentOf j x) :
    t'.rootOf j = t.rootOf j := by
  induction fuel generalizing t t' x with
  | zero => cases h
  | succ fuel ih =>
      obtain ⟨o, ho, hloop⟩ := Option.bind_eq_some_iff.mp h
      have hne : j ≠ x := fun heq => hj (heq ▸ Under.refl j)
      have hbelow : ∀ c ∈ o.children, Under s.parentOf c x := fun c hc => by
        rw [← childrenOf_eq ho, hchildren, hs.mem_children] at hc
        exact Under.of_child (Under.refl c) hc
      let I : List ι → SceneHierarchy ι ε → Prop := fun rest u =>
        (∀ c ∈ rest, Under s.parentOf c x) ∧ u.childrenOf = s.childrenOf ∧
          u.rootOf j = t.rootOf j
      have hstep : ∀ c rest u u', I (c :: rest) u → updateRoot fuel u c = some u' → I rest u' := by
        intro c rest u u' ⟨hrest, hu, hroot⟩ hc
        have hcx := hrest c List.mem_cons_self
        refine ⟨fun d hd => hrest d (List.mem_cons_of_mem _ hd),
          (childrenOf_of_rootless (rootless_updateRoot hc)).trans hu, ?_⟩
        rw [ih hu hc fun hjc => hj (Relation.ReflTransGen.trans hjc hcx), hroot]
      have hstart : I o.children (t.assignRoot x o) :=
        ⟨hbelow, (childrenOf_assignRoot ho).trans hchildren, rootOf_assignRoot_of_ne hne⟩
      exact (Steps.foldlM_invariant hstep hstart hloop).2.2

/-- In a forest `UpdateRoot` gives one root to all that is below an object. -/
theorem rootOf_updateRoot_of_under (hs : s.Forest) {root : Option ι}
    (hroot : (s.parentOf i).elim (some i) s.rootOf = root)
    (h : updateRoot fuel s i = some s') (hj : Under s.parentOf j i) : s'.rootOf j = root := by
  induction fuel generalizing s s' i j with
  | zero => cases h
  | succ fuel ih =>
      obtain ⟨o, ho, hloop⟩ := Option.bind_eq_some_iff.mp h
      have hself : (s.assignRoot i o).rootOf i = root := by
        rw [assignRoot, rootOf_put, Function.update_self, ← parentOf_eq ho,
          valid_parentOf hs.parentsLive]
        exact hroot
      -- what has another root is below a child that is still ahead
      let I : List ι → SceneHierarchy ι ε → Prop := fun rest t =>
        (∀ c ∈ rest, s.parentOf c = some i) ∧ t.rootless = s.rootless ∧ t.rootOf i = root ∧
          ∀ k, Under s.parentOf k i → t.rootOf k = root ∨ ∃ c ∈ rest, Under s.parentOf k c
      have hstep : ∀ c rest t t', I (c :: rest) t → updateRoot fuel t c = some t' → I rest t' := by
        rintro c rest t t' ⟨hrest, ht, hi, hk⟩ hc
        have hforest : t.Forest := hs.of_rootless ht
        have hparents := parentOf_of_rootless ht
        have hci := hrest c List.mem_cons_self
        have hframe : ∀ k, ¬ Under s.parentOf k c → t'.rootOf k = t.rootOf k := fun k hkc =>
          rootOf_updateRoot_of_not_under hs (childrenOf_of_rootless ht) hc hkc
        have hbelow : ∀ k, Under s.parentOf k c → t'.rootOf k = root := fun k hkc => by
          refine ih hforest ?_ hc (hparents ▸ hkc)
          rw [hparents, hci]
          exact hi
        refine ⟨fun d hd => hrest d (List.mem_cons_of_mem _ hd),
          (rootless_updateRoot hc).trans ht, ?_, fun k hki => ?_⟩
        · rw [hframe i (ParentForest.IsForest.not_under_of_parent hs hci), hi]
        · by_cases hkc : Under s.parentOf k c
          · exact .inl (hbelow k hkc)
          · rw [hframe k hkc]
            rcases hk k hki with hdone | ⟨d, hd, hkd⟩
            · exact .inl hdone
            · refine .inr ⟨d, ?_, hkd⟩
              exact (List.mem_cons.mp hd).resolve_left fun heq => hkc (heq ▸ hkd)
      have hstart : I o.children (s.assignRoot i o) := by
        refine ⟨fun c hc => ?_, rootless_assignRoot ho, hself, fun k hki => ?_⟩
        · rwa [← childrenOf_eq ho, hs.mem_children] at hc
        · rcases hki.eq_or_child with rfl | ⟨c, hkc, hc⟩
          · exact .inl hself
          · refine .inr ⟨c, ?_, hkc⟩
            rwa [← childrenOf_eq ho, hs.mem_children]
      obtain ⟨-, -, -, hend⟩ := Steps.foldlM_invariant hstep hstart hloop
      rcases hend j hj with hroot | ⟨c, hc, -⟩
      · exact hroot
      · cases hc

/-! ## Cutting an object off -/

/-- What `MoveToTree` does before the destination takes the object. -/
structure CutOff (s : SceneHierarchy ι ε) (x : ι) (t : SceneHierarchy ι ε) : Prop where
  forest : t.Forest
  parentOf : t.parentOf = Function.update s.parentOf x none
  idOf : t.idOf = s.idOf
  same : s.parentOf x = none → t = s

theorem CutOff.valid (h : CutOff s x t) (destination : Option ι) :
    t.valid destination = s.valid destination := by
  have hlive : ∀ i, (t i).isSome = (s i).isSome := fun i => by
    have hid := congrArg Option.isSome (congrFun h.idOf i)
    rwa [SceneHierarchy.idOf, SceneHierarchy.idOf, Option.isSome_map, Option.isSome_map] at hid
  simp only [SceneHierarchy.valid, hlive]

/-- The id of an object is met above the destination just as before when it has been cut off. -/
theorem clashes_of_cut_iff (hs : s.Forest)
    (hparent : t.parentOf = Function.update s.parentOf x none)
    (hids : t.idOf = s.idOf) : t.Clashes p x ↔ s.Clashes p x := by
  obtain ⟨l, hl⟩ := hs.rooted p
  obtain ⟨l', hl', hmem, hsame⟩ := hl.exists_cut x
  rw [← hparent] at hl'
  by_cases hx : x ∈ l
  · exact iff_of_true ⟨l', hl', x, hmem hx, rfl⟩ ⟨l, hl, x, hx, rfl⟩
  · rw [hsame hx] at hl'
    constructor
    · rintro ⟨l'', hl'', a, ha, hid⟩
      rw [hids] at hid
      exact ⟨l, hl, a, hl''.unique hl' ▸ ha, hid⟩
    · rintro ⟨l'', hl'', a, ha, hid⟩
      refine ⟨l, hl', a, hl''.unique hl ▸ ha, ?_⟩
      rw [hids]
      exact hid

/-- `AddChild` turns an object without parent away at once only from itself. -/
theorem eq_of_attaches_false (hs : s.Forest) (hx : s.parentOf x = none)
    (h : s.attaches p x = false) : p = x := by
  by_contra hne
  have hattaches : s.attaches p x = true := by
    refine attaches_iff.mpr ⟨Ne.symm hne, ?_, ?_⟩
    · rw [hx]
      rfl
    · rw [hs.mem_children, hx]
      exact nofun
  rw [h] at hattaches
  cases hattaches

variable [DecidableEq ε] {np destination : Option ι} {ok : Bool}

/-! ## Refusals -/

/-- A refused `SetParent` of an object without parent makes it the root of all that is below it. -/
theorem rootOf_of_setParent_refused (hs : s.Forest) (hx : s.parentOf x = none)
    (hnp : np ≠ none) (h : setParent fuel s x np = some (s', false)) :
    (∀ j, Under s.parentOf j x → s'.rootOf j = some x) ∧
      ∀ j, ¬ Under s.parentOf j x → s'.rootOf j = s.rootOf j := by
  have hrefused := rootless_of_setParent h
  obtain ⟨o, ho, ⟨heq, -, -⟩ | ⟨-, s₁, o₁, hs₁, ho₁, ⟨-, -, -, hok⟩ | ⟨-, hs', -⟩⟩⟩ :=
    setParent_cases h
  · exact absurd (heq.trans ((parentOf_eq ho).symm.trans hx)) hnp
  · cases hok
  generalize hu : s₁.put x { o₁ with parent := o.parent } = u at hs'
  have hrootless : u.rootless = s.rootless := (rootless_updateRoot hs').symm.trans hrefused
  have hparents := parentOf_of_rootless hrootless
  have hroots : u.rootOf = s₁.rootOf := by
    rw [← hu]
    exact rootOf_put_same ho₁ rfl
  have hforest : u.Forest := hs.of_rootless hrootless
  constructor
  · intro j hj
    exact rootOf_updateRoot_of_under hforest (by rw [hparents, hx]; rfl) hs' (hparents ▸ hj)
  · intro j hj
    have hstart : (s.put x { o with parent := np }).childrenOf = s.childrenOf :=
      childrenOf_put_same ho rfl
    have hput : (s.put x { o with parent := np }).rootOf = s.rootOf := rootOf_put_same ho rfl
    rw [rootOf_updateRoot_of_not_under hs (childrenOf_of_rootless hrootless) hs' hj, hroots,
      rootOf_updateRoot_of_not_under hs hstart hs₁ hj, hput]

/-- An object without parent is taken unless its id is met above. -/
theorem addChild_refuses_iff (hs : s.Forest) (hx : s.parentOf x = none)
    (h : addChild fuel s p x = some (s', ok)) : ok = false ↔ s.Clashes p x := by
  obtain ⟨hp, ⟨hattaches, rfl, rfl⟩ | ⟨-, s₁, hs₁, hok⟩⟩ := addChild_cases h
  · refine iff_of_true rfl ?_
    obtain ⟨l, hl⟩ := hs.rooted p
    exact ⟨l, hl, p, hl.mem_self, by rw [eq_of_attaches_false hs hx hattaches]⟩
  · have hok' : ok = false ∨ ok = true := by cases ok <;> simp
    rcases hok' with rfl | rfl
    · obtain ⟨l, hl⟩ := hs.rooted p
      exact iff_of_true rfl
        (clashes_of_setParent hs.parentsLive hp (by rw [hx]; exact nofun) hl hs₁)
    · refine iff_of_false nofun ?_
      exact not_clashes_of_linked
        (linked_of_setParent hs.parentsLive (fun q hq => Option.some.inj hq ▸ hp) hs₁)

theorem cutOff_of_leaveParent (hs : s.Forest) (h : leaveParent fuel s x = some t) :
    CutOff s x t := by
  obtain ⟨hforest, hparent⟩ := hs.leaveParent h
  rcases leaveParent_cases hs.parentsLive h with ⟨hx, rfl⟩ | ⟨q, hq, hremoved⟩
  · exact ⟨hforest, hparent, rfl, fun _ => rfl⟩
  · have hdetached := detached_of_removeChild hs.parentsLive hq hremoved
    exact ⟨hforest, hparent, hdetached.idOf, fun hx => by cases hq.symm.trans hx⟩

/-- A move ends with the answer of the destination, or without one. -/
theorem moveToTree_ends (h : moveToTree fuel s x destination = some (s', ok)) :
    ∃ t, leaveParent fuel s x = some t ∧
      ((t.valid destination = none ∧ ∃ o, t x = some o ∧ ok = (t.valid o.parent).isNone) ∨
        ∃ p, t.valid destination = some p ∧ addChild fuel t p x = some (s', ok)) := by
  obtain ⟨t, ht, hmove⟩ := Option.bind_eq_some_iff.mp h
  refine ⟨t, ht, ?_⟩
  split at hmove
  · next p hp => exact .inr ⟨p, hp, hmove⟩
  · next hnone =>
    obtain ⟨o, ho, hr⟩ := Option.map_eq_some_iff.mp hmove
    cases hr
    exact .inl ⟨hnone, o, ho, rfl⟩

/-- A move fails exactly when the destination or an object above it has the id of the object. -/
theorem moveToTree_fails_iff (hs : s.Forest)
    (h : moveToTree fuel s x destination = some (s', ok)) :
    ok = false ↔ ∃ p, s.valid destination = some p ∧ s.Clashes p x := by
  obtain ⟨t, ht, hends⟩ := moveToTree_ends h
  have hcut := cutOff_of_leaveParent hs ht
  have hx : t.parentOf x = none := by rw [hcut.parentOf, Function.update_self]
  rw [hcut.valid destination] at hends
  rcases hends with ⟨hnone, o, ho, rfl⟩ | ⟨p, hp, hadd⟩
  · rw [← parentOf_eq ho, hx, hnone]
    exact iff_of_false nofun (fun ⟨p, hp, _⟩ => by cases hp)
  · rw [addChild_refuses_iff hcut.forest hx hadd, clashes_of_cut_iff hs hcut.parentOf hcut.idOf, hp]
    exact ⟨fun hclash => ⟨p, rfl, hclash⟩, fun ⟨q, hq, hclash⟩ => Option.some.inj hq ▸ hclash⟩

/-! ## What a failed move leaves -/

/-- A move that would fail finds the object without parent, and either it is the destination itself
or it is the root of all that is below it. -/
def FailsInPlace (s : SceneHierarchy ι ε) (x : ι) (destination : Option ι) : Prop :=
  ∀ p, s.valid destination = some p → s.Clashes p x →
    s.parentOf x = none ∧ (p = x ∨ ∀ j, Under s.parentOf j x → s.rootOf j = some x)

/-- An object without parent that is refused. -/
theorem sameHierarchy_of_addChild_iff (hs : s.Forest) (hx : s.parentOf x = none)
    (h : addChild fuel s p x = some (s', false)) :
    s.SameHierarchy s' ↔ p = x ∨ ∀ j, Under s.parentOf j x → s.rootOf j = some x := by
  obtain ⟨hp, ⟨hattaches, rfl, -⟩ | ⟨hattaches, s₁, hs₁, ⟨-, rfl⟩ | ⟨hok, -⟩⟩⟩ := addChild_cases h
  · exact iff_of_true ⟨rfl, rfl, rfl, rfl⟩ (.inl (eq_of_attaches_false hs hx hattaches))
  · obtain ⟨hunder, hothers⟩ := rootOf_of_setParent_refused hs hx (Option.some_ne_none p) hs₁
    have hne : p ≠ x := (attaches_iff.mp hattaches).1.symm
    constructor
    · intro hsame
      refine .inr fun j hj => ?_
      rw [← hsame.rootOf, hunder j hj]
    · intro hroots
      refine sameHierarchy_of_rootless (rootless_of_setParent hs₁) ?_
      funext j
      by_cases hj : Under s.parentOf j x
      · rw [hunder j hj, hroots.resolve_left hne j hj]
      · exact hothers j hj
  · cases hok

/-- A move changes nothing when it fails, in just the cases where the object was not under another
one and its root was known. -/
theorem sameHierarchy_iff_failsInPlace (hs : s.Forest)
    (h : moveToTree fuel s x destination = some (s', ok)) :
    (ok = false → s.SameHierarchy s') ↔ s.FailsInPlace x destination := by
  have hfails := moveToTree_fails_iff hs h
  have hok : ok = true ∨ ok = false := by cases ok <;> simp
  rcases hok with rfl | rfl
  · refine iff_of_true nofun fun p hp hclash => ?_
    cases hfails.mpr ⟨p, hp, hclash⟩
  obtain ⟨p, hp, hclash⟩ := hfails.mp rfl
  obtain ⟨t, ht, hends⟩ := moveToTree_ends h
  have hcut := cutOff_of_leaveParent hs ht
  have hxt : t.parentOf x = none := by rw [hcut.parentOf, Function.update_self]
  rw [hcut.valid destination, hp] at hends
  rcases hends with ⟨hnone, -⟩ | ⟨q, hq, hadd⟩
  · cases hnone
  obtain rfl := Option.some.inj hq
  have hplace : s.FailsInPlace x destination ↔
      s.parentOf x = none ∧ (p = x ∨ ∀ j, Under s.parentOf j x → s.rootOf j = some x) := by
    constructor
    · exact fun hplace => hplace p hp hclash
    · intro hplace q hq _
      rw [hp] at hq
      exact Option.some.inj hq ▸ hplace
  rw [hplace, forall_prop_of_true rfl]
  by_cases hx : s.parentOf x = none
  · obtain rfl := hcut.same hx
    rw [sameHierarchy_of_addChild_iff hs hx hadd, and_iff_right hx]
  · refine iff_of_false (fun hsame => ?_) fun hboth => hx hboth.1
    obtain ⟨-, hparent⟩ := parentOf_addChild hadd
    rcases hparent with ⟨hok, -⟩ | ⟨-, hparent⟩
    · cases hok
    · rw [← hsame.parentOf, hparent] at hx
      exact hx hxt

/-- The first refusal makes the object the root of its child, the second one finds it so. -/
theorem sameHierarchy_iff_failsInPlace_twice :
    ∃ s s' : SceneHierarchy ℕ ℕ, s.Forest ∧ moveToTree 9 s 0 (some 1) = some (s', false) ∧
      ((false = false → s.SameHierarchy s') ↔ s.FailsInPlace 0 (some 1)) := by
  have hrun : ∃ s₁ s₂ s₃ s s' : SceneHierarchy ℕ ℕ, create 9 empty 0 10 false = some s₁ ∧
      create 9 s₁ 1 11 false = some s₂ ∧ addChild 9 s₂ 0 1 = some (s₃, true) ∧
        moveToTree 9 s₃ 0 (some 1) = some (s, false) ∧
          moveToTree 9 s 0 (some 1) = some (s', false) :=
    ⟨_, _, _, _, _, rfl, rfl, rfl, rfl, rfl⟩
  obtain ⟨s₁, s₂, s₃, s, s', h₁, h₂, h₃, hs, hs'⟩ := hrun
  have hforest := (((forest_empty.create h₁).create h₂).addChild h₃).moveToTree hs
  exact ⟨s, s', hforest, hs', sameHierarchy_iff_failsInPlace hforest hs'⟩

/-- An object that is asked to go below itself loses its parent. -/
theorem not_sameHierarchy_of_failed_move :
    ¬ ∀ (fuel : ℕ) (s s' : SceneHierarchy ℕ ℕ) (x : ℕ) (destination : Option ℕ), s.Forest →
      moveToTree fuel s x destination = some (s', false) → s.SameHierarchy s' := by
  intro h
  have hrun : ∃ s₁ s₂ s s' : SceneHierarchy ℕ ℕ, create 9 empty 0 10 false = some s₁ ∧
      create 9 s₁ 1 11 false = some s₂ ∧ addChild 9 s₂ 0 1 = some (s, true) ∧
        moveToTree 9 s 1 (some 1) = some (s', false) ∧
          s.parentOf 1 = some 0 ∧ s'.parentOf 1 = none :=
    ⟨_, _, _, _, rfl, rfl, rfl, rfl, rfl, rfl⟩
  obtain ⟨s₁, s₂, s, s', h₁, h₂, hs, hs', hbefore, hafter⟩ := hrun
  have hforest := ((forest_empty.create h₁).create h₂).addChild hs
  have hsame := (h 9 s s' 1 (some 1) hforest hs').parentOf
  have hlost : s'.parentOf 1 = s.parentOf 1 := congrFun hsame 1
  rw [hbefore, hafter] at hlost
  cases hlost

end SceneHierarchy

end SRCommon
