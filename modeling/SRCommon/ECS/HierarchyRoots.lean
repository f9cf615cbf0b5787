import SRCommon.ECS.HierarchyLinks

/-!
# Roots of the hierarchy

The root of an object is assigned by `UpdateRoot`, which runs from `SetParent`
only. An object that never came to `SetParent` has no root, and those below it
have none either; all others have the topmost one.
-/

namespace SRCommon

namespace SceneHierarchy

variable {ι ε : Type}

section

variable [DecidableEq ι]

/-- The root by the parent, for objects above which `T` holds of those that came to `SetParent`. -/
def expectedRoot (s : SceneHierarchy ι ε) (T : ι → Bool) (i : ι) : Option ι :=
  (s.parentOf i).elim ((some i).filter T) s.rootOf

def Follows (s : SceneHierarchy ι ε) (T : ι → Bool) (i : ι) : Prop :=
  s.rootOf i = s.expectedRoot T i

/-- The object on which a call gets `SetParent` through its first check. -/
def reparented (s : SceneHierarchy ι ε) : SceneObjectCall ι ε → Option ι
  | .addChild self pChild => if s.attaches self pChild then some pChild else none
  | .removeChild _ pChild => (s.parentOf pChild).map fun _ => pChild
  | .moveToTree self destination =>
      if (s.parentOf self).isSome || (s.valid destination).any (s.attaches · self) then some self
      else none
  | _ => none

def touch (T : ι → Bool) (o : Option ι) : ι → Bool := fun i => T i || o = some i

end

section

variable {s s' : SceneHierarchy ι ε} {T : ι → Bool} {X : ι → Prop} {i : ι} {l : List ι}

/-- All objects of a lineage have the root of the topmost one. -/
theorem rootOf_lineage (hl : ParentForest.Lineage s.parentOf i l) (h : ∀ j ∈ l, s.Follows T j) :
    ∀ j ∈ l, s.rootOf j = l.getLast?.filter T := by
  induction hl with
  | top hi =>
      intro j hj
      rw [h j hj, List.mem_singleton.mp hj, expectedRoot, hi]
      rfl
  | step hi hl ih =>
      rename_i i p l
      intro j hj
      have htail := ih fun k hk => h k (List.mem_cons_of_mem _ hk)
      rw [hl.getLast?_cons]
      rcases List.mem_cons.mp hj with rfl | hj
      · rw [h j List.mem_cons_self, expectedRoot, hi, ← htail p hl.mem_self]
        rfl
      · exact htail j hj

/-- What follows goes on following where neither roots nor its parent are changed. -/
theorem Follows.congr {T' : ι → Bool} (h : s.Follows T i) (hroots : s'.rootOf = s.rootOf)
    (hparent : s'.parentOf i = s.parentOf i) (hT : T' i = T i) : s'.Follows T' i := by
  rw [Follows, expectedRoot, hroots, hparent, Option.filter_some, hT, ← Option.filter_some]
  exact h

theorem Follows.of_lineage (hl : ParentForest.Lineage s.parentOf i l)
    (h : ∀ j ∈ l, s.rootOf j = l.getLast?.filter T) : s.Follows T i := by
  rw [Follows, h i hl.mem_self, expectedRoot]
  cases hp : s.parentOf i with
  | none => rw [hl.getLast?_of_top hl.mem_self hp, Option.elim_none]
  | some p => exact (h p (hl.parent_mem hl.mem_self hp)).symm

/-- Listed objects came to `SetParent`; all but those in `X` are listed by their parents. -/
structure Wired (s : SceneHierarchy ι ε) (T : ι → Bool) (X : ι → Prop) : Prop where
  live : s.ParentsLive
  complete : ∀ c p, s.parentOf c = some p → c ∈ s.childrenOf p ∨ X c
  listed : ∀ c p, c ∈ s.childrenOf p → T c = true

theorem Wired.mono {T' : ι → Bool} (h : s.Wired T X) (hT : ∀ j, T j = true → T' j = true) :
    s.Wired T' X :=
  ⟨h.live, h.complete, fun c p hc => hT c (h.listed c p hc)⟩

theorem Wired.of_rootless (h : s.Wired T X) (heq : s'.rootless = s.rootless) : s'.Wired T X := by
  have hparents := parentOf_of_rootless heq
  have hchildren := childrenOf_of_rootless heq
  refine ⟨fun j p hp => ?_, ?_, ?_⟩
  · rw [isSome_of_rootless heq]
    exact h.live j p (hparents ▸ hp)
  · rw [hparents, hchildren]
    exact h.complete
  · rw [hchildren]
    exact h.listed

/-- All objects follow their parents. -/
structure RootsKnown (s : SceneHierarchy ι ε) (T : ι → Bool) (X : ι → Prop) : Prop where
  wired : s.Wired T X
  follows : ∀ j, s.Follows T j
  rooted : ∀ j, ParentForest.Rooted s.parentOf j
  nodup : ∀ p, (s.childrenOf p).Nodup

theorem RootsKnown.mono {Y : ι → Prop} (hs : s.RootsKnown T X) (h : ∀ j, X j → Y j) :
    s.RootsKnown T Y :=
  ⟨⟨hs.wired.live, fun d q hd => (hs.wired.complete d q hd).imp_right (h d), hs.wired.listed⟩,
    hs.follows, hs.rooted, hs.nodup⟩

end

section

variable [DecidableEq ι] {s s' : SceneHierarchy ι ε} {T : ι → Bool} {X B : ι → Prop} {i : ι}
  {o : SceneObject ι ε} {fuel : ℕ}

theorem rootOf_put : (s.put i o).rootOf = Function.update s.rootOf i o.root := by
  funext j
  rcases eq_or_ne j i with rfl | hj
  · rw [rootOf, put_self, Function.update_self]
    rfl
  · rw [rootOf, put_of_ne hj, Function.update_of_ne hj]
    rfl

theorem rootOf_put_same {o' : SceneObject ι ε} (hi : s i = some o) (h : o'.root = o.root) :
    (s.put i o').rootOf = s.rootOf := by
  rw [rootOf_put, Function.update_eq_self_iff, h, rootOf, hi]
  rfl

theorem rootOf_assignRoot (hs : s.Wired T X) (hi : T i = true) (ho : s i = some o) :
    (s.assignRoot i o).rootOf = Function.update s.rootOf i (s.expectedRoot T i) := by
  rw [assignRoot, rootOf_put, ← parentOf_eq ho, valid_parentOf hs.live, expectedRoot,
    Option.filter_some, if_pos hi]

theorem parentOf_assignRoot (ho : s i = some o) : (s.assignRoot i o).parentOf = s.parentOf :=
  parentOf_put_same ho rfl

/-- The object follows its parent after the assignment; only its children may cease to. -/
theorem follows_assignRoot (hs : s.Wired T X) (hi : T i = true) (ho : s i = some o) {j : ι}
    (hj : j = i ∨ s.Follows T j ∧ s.parentOf j ≠ some i) : (s.assignRoot i o).Follows T j := by
  rw [Follows, expectedRoot, rootOf_assignRoot hs hi ho, parentOf_assignRoot ho]
  rcases eq_or_ne j i with rfl | hne
  · rw [Function.update_self, expectedRoot]
    cases hp : s.parentOf j with
    | none => rfl
    | some p =>
        rw [Option.elim_some, Option.elim_some]
        rcases eq_or_ne p j with rfl | hpj
        · rw [Function.update_self]
        · rw [Function.update_of_ne hpj]
  · obtain ⟨hfollows, hparent⟩ := hj.resolve_left hne
    rw [Function.update_of_ne hne, hfollows, expectedRoot]
    cases hp : s.parentOf j with
    | none => rfl
    | some p =>
        have hpi : p ≠ i := fun heq => hparent (heq ▸ hp)
        rw [Option.elim_some, Option.elim_some, Function.update_of_ne hpi]

/-- After `UpdateRoot` the object follows its parent, and so does what followed before, unless its
parent has not listed it. -/
theorem follows_updateRoot (hs : s.Wired T X) (hi : T i = true)
    (hB : ∀ j, s.Follows T j ∨ B j) (h : updateRoot fuel s i = some s') :
    ∀ j, s'.Follows T j ∨ (B j ∧ j ≠ i) ∨ X j := by
  induction fuel generalizing s s' i B with
  | zero => cases h
  | succ fuel ih =>
      obtain ⟨o, ho, hloop⟩ := Option.bind_eq_some_iff.mp h
      have hassign : ∀ j, (s.assignRoot i o).Follows T j ∨
          ((B j ∧ j ≠ i) ∨ X j) ∨ j ∈ o.children := fun j => by
        rcases eq_or_ne j i with rfl | hne
        · exact .inl (follows_assignRoot hs hi ho (.inl rfl))
        by_cases hp : s.parentOf j = some i
        · rcases hs.complete j i hp with hmem | hX
          · exact .inr (.inr (childrenOf_eq ho ▸ hmem))
          · exact .inr (.inl (.inr hX))
        · rcases hB j with hj | hj
          · exact .inl (follows_assignRoot hs hi ho (.inr ⟨hj, hp⟩))
          · exact .inr (.inl (.inl ⟨hj, hne⟩))
      -- what does not follow yet is among the entries that are still ahead
      let I : List ι → SceneHierarchy ι ε → Prop := fun rest t => t.Wired T X ∧
        (∀ c ∈ rest, T c = true) ∧ ∀ j, t.Follows T j ∨ ((B j ∧ j ≠ i) ∨ X j) ∨ j ∈ rest
      have hstep : ∀ c rest t t', I (c :: rest) t → updateRoot fuel t c = some t' → I rest t' := by
        intro c rest t t' ⟨ht, hT, hj⟩ hc
        refine ⟨ht.of_rootless (rootless_updateRoot hc),
          fun d hd => hT d (List.mem_cons_of_mem _ hd), fun j => ?_⟩
        rcases ih ht (hT c List.mem_cons_self) hj hc j with hfollows | ⟨hrest, hne⟩ | hX
        · exact .inl hfollows
        · exact .inr (hrest.imp_right fun hmem => (List.mem_cons.mp hmem).resolve_left hne)
        · exact .inr (.inl (.inr hX))
      have hstart : I o.children (s.assignRoot i o) :=
        ⟨hs.of_rootless (rootless_assignRoot ho),
          fun c hc => hs.listed c i (by rwa [childrenOf_eq ho]), hassign⟩
      have hend := (Steps.foldlM_invariant hstep hstart hloop).2.2
      intro j
      rcases hend j with hj | hj | hj
      · exact .inl hj
      · exact .inr hj
      · cases hj

theorem rootOf_lineage_assignRoot {l : List ι} {k : ι} (hs : s.Wired T X)
    (hl : ParentForest.Lineage s.parentOf i l) (hk : T k = true) (ho : s k = some o)
    (hroots : ∀ j ∈ l, j ≠ k → s.rootOf j = l.getLast?.filter T) :
    ∀ j ∈ l, (s.assignRoot k o).rootOf j = l.getLast?.filter T := by
  intro j hj
  rw [rootOf_assignRoot hs hk ho]
  rcases eq_or_ne j k with rfl | hne
  · rw [Function.update_self, expectedRoot]
    cases hp : s.parentOf j with
    | none => rw [hl.getLast?_of_top hj hp, Option.elim_none]
    | some p => exact hroots p (hl.parent_mem hj hp) fun heq => hl.parent_ne hj (heq ▸ hp)
  · rw [Function.update_of_ne hne]
    exact hroots j hj hne

/-- `UpdateRoot` carries the root of the ancestors to the object, wherever else it goes. -/
theorem rootOf_updateRoot {l : List ι} (hs : s.Wired T X) (hi : T i = true)
    (hl : ParentForest.Lineage s.parentOf i l)
    (hroots : ∀ j ∈ l, j ≠ i → s.rootOf j = l.getLast?.filter T)
    (h : updateRoot fuel s i = some s') : ∀ j ∈ l, s'.rootOf j = l.getLast?.filter T := by
  let P : SceneHierarchy ι ε → Prop := fun t => t.Wired T X ∧
    ParentForest.Lineage t.parentOf i l ∧ ∀ j ∈ l, t.rootOf j = l.getLast?.filter T
  have hassign : ∀ (t : SceneHierarchy ι ε) k o, t.Wired T X →
      ParentForest.Lineage t.parentOf i l → T k = true → t k = some o →
        (∀ j ∈ l, j ≠ k → t.rootOf j = l.getLast?.filter T) → P (t.assignRoot k o) :=
    fun t k o ht hlt hk ho hrt => ⟨ht.of_rootless (rootless_assignRoot ho),
      parentOf_assignRoot ho ▸ hlt, rootOf_lineage_assignRoot ht hlt hk ho hrt⟩
  have hend : P s' := updateRoot_induction (V := fun k => T k = true)
    (fun t k ht c hc => ht.1.listed c k hc)
    (fun t k o ht hk ho => hassign t k o ht.1 ht.2.1 hk ho fun j hj _ => ht.2.2 j hj)
    (fun o ho => hassign s i o hs hl hi ho hroots) h
  exact hend.2.2

/-- The object that `UpdateRoot` is called on follows its parent in the end, even when its parent
has not listed it. -/
theorem follows_updateRoot_self {l : List ι} (hs : s.Wired T (· = i)) (hi : T i = true)
    (hf : ∀ j, s.Follows T j ∨ j = i) (hl : ParentForest.Lineage s.parentOf i l)
    (hne : ∀ a ∈ l.tail, a ≠ i) (h : updateRoot fuel s i = some s') : s'.Follows T i := by
  have hroots : ∀ j ∈ l, j ≠ i → s.rootOf j = l.getLast?.filter T := by
    cases hl with
    | top => exact fun j hj hji => absurd (List.mem_singleton.mp hj) hji
    | step _ htail =>
        intro j hj hji
        rw [htail.getLast?_cons]
        exact rootOf_lineage htail (fun k hk => (hf k).resolve_right (hne k hk)) j
          ((List.mem_cons.mp hj).resolve_left hji)
  have hparents := parentOf_of_rootless (rootless_updateRoot h)
  exact .of_lineage (hparents ▸ hl) (rootOf_updateRoot hs hi hl hroots h)

end

section

variable [DecidableEq ι] {s s' t : SceneHierarchy ι ε} {T : ι → Bool} {c : ι} {np : Option ι}
  {o : SceneObject ι ε} {fuel : ℕ}

theorem touch_none : touch T none = T := by
  funext i
  simp [touch]

theorem touch_touch : touch (touch T (some c)) (some c) = touch T (some c) := by
  funext i
  simp [touch]

theorem touch_self : touch T (some c) c = true := by
  simp [touch]

theorem touch_of_ne {j : ι} (h : j ≠ c) : touch T (some c) j = T j := by
  simp [touch, Ne.symm h]

theorem touch_of_true {j : ι} {oc : Option ι} (h : T j = true) : touch T oc j = true := by
  simp [touch, h]

/-- A new parent that has not listed the object yet. -/
theorem Wired.relink (hs : s.Wired T fun _ => False) (hnp : ∀ p, np = some p → (s p).isSome)
    (hparents : t.parentOf = Function.update s.parentOf c np)
    (hchildren : t.childrenOf = s.childrenOf) (hsome : ∀ p, (s p).isSome → (t p).isSome) :
    t.Wired (touch T (some c)) (· = c) := by
  refine ⟨fun i p hp => hsome p ?_, fun i p hp => ?_, fun i p hi => ?_⟩
  · rw [hparents] at hp
    rcases eq_or_ne i c with rfl | hne
    · exact hnp p (by rwa [Function.update_self] at hp)
    · exact hs.live i p (by rwa [Function.update_of_ne hne] at hp)
  · rcases eq_or_ne i c with rfl | hne
    · exact .inr rfl
    · rw [hparents, Function.update_of_ne hne] at hp
      rw [hchildren]
      exact .inl ((hs.complete i p hp).resolve_right id)
  · exact touch_of_true (hs.listed i p (hchildren ▸ hi))

/-- An object with a new parent is the only one that may not follow. -/
theorem follows_relink (hf : ∀ j, s.Follows T j) (ho : s c = some o) (j : ι) :
    (s.put c { o with parent := np }).Follows (touch T (some c)) j ∨ j = c := by
  rcases eq_or_ne j c with rfl | hj
  · exact .inr rfl
  · exact .inl ((hf j).congr (rootOf_put_same ho rfl)
      (by rw [parentOf_put, Function.update_of_ne hj]) (touch_of_ne hj))

variable [DecidableEq ε]

/-- Past its first check, `SetParent` leaves all objects with the roots they should have. -/
theorem follows_setParent {ok : Bool} (hs : s.Wired T fun _ => False) (hf : ∀ j, s.Follows T j)
    (hnp : ∀ p, np = some p → (s p).isSome) (hne : np ≠ s.parentOf c)
    (h : setParent fuel s c np = some (s', ok)) : ∀ j, s'.Follows (touch T (some c)) j := by
  obtain ⟨o, ho, ⟨heq, -, -⟩ | ⟨-, s₁, o₁, hs₁, ho₁, hends⟩⟩ := setParent_cases h
  · exact absurd (heq.trans (parentOf_eq ho).symm) hne
  have hwired₀ : (s.put c { o with parent := np }).Wired (touch T (some c)) (· = c) :=
    hs.relink hnp parentOf_put (childrenOf_put_same ho rfl) fun p hp =>
      isSome_put_iff.mpr (.inr hp)
  have hfollows₁ : ∀ j, j ≠ c → s₁.Follows (touch T (some c)) j := fun j hj => by
    rcases follows_updateRoot hwired₀ touch_self (follows_relink hf ho) hs₁ j with
      hj' | ⟨heq, -⟩ | heq
    · exact hj'
    · exact absurd heq hj
    · exact absurd heq hj
  rcases hends with ⟨path, -, hs', rfl⟩ | ⟨-, hs', rfl⟩
  · have hlinked := linked_of_setParent hs.live hnp h
    obtain ⟨l, -, hl, -, -, hids⟩ := hlinked.traced
    have hparents₀ : (s.put c { o with parent := np }).parentOf =
        Function.update s.parentOf c np := parentOf_put
    rw [hlinked.parentOf, ← hparents₀] at hl
    have hself : s₁.Follows (touch T (some c)) c :=
      follows_updateRoot_self hwired₀ touch_self (follows_relink hf ho) hl
        (fun a ha heq => hids a ha (congrArg s'.idOf heq)) hs₁
    have hroots' : s'.rootOf = s₁.rootOf := by
      rw [hs']
      exact rootOf_put_same ho₁ rfl
    have hparents' : s'.parentOf = s₁.parentOf := by
      rw [hs']
      exact parentOf_put_same ho₁ rfl
    intro j
    rcases eq_or_ne j c with rfl | hj
    · exact hself.congr hroots' (congrFun hparents' j) rfl
    · exact (hfollows₁ j hj).congr hroots' (congrFun hparents' j) rfl
  · -- the parent is put back, and `UpdateRoot` runs again
    have hrootless := (rootless_updateRoot hs').symm.trans (rootless_of_setParent h)
    have hwired : (s₁.put c { o₁ with parent := o.parent }).Wired (touch T (some c))
        fun _ => False := (hs.mono fun _ => touch_of_true).of_rootless hrootless
    have hfollows : ∀ j, (s₁.put c { o₁ with parent := o.parent }).Follows (touch T (some c)) j ∨
        j = c := fun j => by
      rcases eq_or_ne j c with rfl | hj
      · exact .inr rfl
      · exact .inl ((hfollows₁ j hj).congr (rootOf_put_same ho₁ rfl)
          (by rw [parentOf_put, Function.update_of_ne hj]) rfl)
    intro j
    rcases follows_updateRoot hwired touch_self hfollows hs' j with hj | ⟨heq, hj⟩ | hfalse
    · exact hj
    · exact absurd heq hj
    · exact hfalse.elim

end

section

variable [DecidableEq ι] {s s' : SceneHierarchy ι ε} {T : ι → Bool} {X : ι → Prop} {c p : ι}
  {np : Option ι} {o : SceneObject ι ε} {fuel : ℕ}

theorem RootsKnown.put_children {children : List ι} (hs : s.RootsKnown T X) (ho : s p = some o)
    (hcomplete : ∀ d q, s.parentOf d = some q → d ∈ Function.update s.childrenOf p children q)
    (hlisted : ∀ d ∈ children, T d = true) (hnodup : children.Nodup) :
    (s.put p { o with children := children }).RootsKnown T fun _ => False where
  wired := by
    refine ⟨?_, ?_, fun d q hd => ?_⟩
    · rw [ParentsLive, parentOf_put_children ho]
      exact fun i q hq => isSome_put_iff.mpr (.inr (hs.wired.live i q hq))
    · rw [parentOf_put_children ho, childrenOf_put]
      exact fun d q hd => .inl (hcomplete d q hd)
    · rw [childrenOf_put] at hd
      rcases eq_or_ne q p with rfl | hq
      · rw [Function.update_self] at hd
        exact hlisted d hd
      · rw [Function.update_of_ne hq] at hd
        exact hs.wired.listed d q hd
  follows j := (hs.follows j).congr (rootOf_put_same ho rfl)
    (congrFun (parentOf_put_children ho children) j) rfl
  rooted := by
    rw [parentOf_put_children ho]
    exact hs.rooted
  nodup q := by
    rw [childrenOf_put]
    rcases eq_or_ne q p with rfl | hq
    · rwa [Function.update_self]
    · rw [Function.update_of_ne hq]
      exact hs.nodup q

variable [DecidableEq ε]

/-- Setting a parent other than the present one. -/
theorem RootsKnown.setParent_true (hs : s.RootsKnown T fun _ => False)
    (hnp : ∀ p, np = some p → (s p).isSome) (hne : np ≠ s.parentOf c)
    (h : setParent fuel s c np = some (s', true)) :
    s'.RootsKnown (touch T (some c)) (· = c) := by
  have hlinked := linked_of_setParent hs.wired.live hnp h
  refine ⟨hs.wired.relink hnp hlinked.parentOf hlinked.childrenOf fun p hp => ?_,
    follows_setParent hs.wired hs.follows hnp hne h, fun j => ?_, fun p => ?_⟩
  · rw [hlinked.isSome]
    exact hp
  · obtain ⟨l, -, hl, -⟩ := hlinked.traced
    refine (hs.rooted j).of_changed fun k => ?_
    rcases eq_or_ne k c with rfl | hk
    · exact .inr ⟨l, hl⟩
    · exact .inl (by rw [hlinked.parentOf, Function.update_of_ne hk])
  · rw [hlinked.childrenOf]
    exact hs.nodup p

theorem RootsKnown.setParent_false (hs : s.RootsKnown T fun _ => False)
    (hnp : ∀ p, np = some p → (s p).isSome) (hne : np ≠ s.parentOf c)
    (h : setParent fuel s c np = some (s', false)) :
    s'.RootsKnown (touch T (some c)) fun _ => False := by
  have hrootless := rootless_of_setParent h
  refine ⟨(hs.wired.mono fun _ => touch_of_true).of_rootless hrootless,
    follows_setParent hs.wired hs.follows hnp hne h, fun j => ?_, fun p => ?_⟩
  · rw [parentOf_of_rootless hrootless]
    exact hs.rooted j
  · rw [childrenOf_of_rootless hrootless]
    exact hs.nodup p

theorem RootsKnown.removeChild (hs : s.RootsKnown T fun _ => False)
    (h : removeChild fuel s p c = some s') :
    s'.RootsKnown (touch T ((s.parentOf c).map fun _ => c)) fun _ => False := by
  obtain ⟨s₁, ok, o, hs₁, ho, rfl⟩ := removeChild_eq h
  have hknown : s₁.RootsKnown (touch T ((s.parentOf c).map fun _ => c)) (· = c) ∧
      s₁.parentOf c = none := by
    cases hc : s.parentOf c with
    | none =>
        cases setParent_same hc.symm hs₁
        rw [Option.map_none, touch_none]
        exact ⟨hs.mono fun _ => False.elim, hc⟩
    | some q =>
        have hne : none ≠ s.parentOf c := by simp [hc]
        cases setParent_none hne.symm hs₁
        refine ⟨hs.setParent_true (by simp) hne hs₁, ?_⟩
        rw [(linked_of_setParent hs.wired.live (by simp) hs₁).parentOf, Function.update_self]
  obtain ⟨hknown, hnone⟩ := hknown
  refine hknown.put_children ho (fun d q hd => ?_) (fun d hd => ?_) ?_
  · have hne : d ≠ c := fun heq => by
      cases hnone.symm.trans (heq ▸ hd)
    have hmem := (hknown.wired.complete d q hd).resolve_right hne
    rcases eq_or_ne q p with rfl | hq
    · rw [Function.update_self]
      exact (List.mem_erase_of_ne hne).mpr (childrenOf_eq ho ▸ hmem)
    · rwa [Function.update_of_ne hq]
  · exact hknown.wired.listed d p (childrenOf_eq ho ▸ List.mem_of_mem_erase hd)
  · exact (childrenOf_eq ho ▸ hknown.nodup p).erase c

theorem RootsKnown.addChild {ok : Bool} (hs : s.RootsKnown T fun _ => False)
    (h : addChild fuel s p c = some (s', ok)) :
    s'.RootsKnown (touch T (if s.attaches p c then some c else none)) fun _ => False := by
  obtain ⟨hp, ⟨hattaches, rfl, -⟩ | ⟨hattaches, s₁, hs₁, hends⟩⟩ := addChild_cases h
  · rw [hattaches, if_neg Bool.false_ne_true, touch_none]
    exact hs
  rw [if_pos hattaches]
  obtain ⟨-, hvalid, hmem⟩ := attaches_iff.mp hattaches
  rw [valid_parentOf hs.wired.live] at hvalid
  have hne : some p ≠ s.parentOf c := by simp [hvalid]
  have hlive : ∀ q, some p = some q → (s q).isSome := fun q hq => Option.some.inj hq ▸ hp
  rcases hends with ⟨rfl, rfl⟩ | ⟨rfl, o, ho, rfl⟩
  · exact hs.setParent_false hlive hne hs₁
  have hknown := hs.setParent_true hlive hne hs₁
  have hlinked := linked_of_setParent hs.wired.live hlive hs₁
  have hlist : o.children = s.childrenOf p := by rw [← hlinked.childrenOf, childrenOf_eq ho]
  refine hknown.put_children ho (fun d q hd => ?_) (fun d hd => ?_) ?_
  · rcases eq_or_ne q p with rfl | hq
    · rw [Function.update_self]
      rcases hknown.wired.complete d q hd with hd | rfl
      · exact List.mem_append_left _ (childrenOf_eq ho ▸ hd)
      · exact List.mem_append_right _ List.mem_cons_self
    · rw [Function.update_of_ne hq]
      refine (hknown.wired.complete d q hd).resolve_right ?_
      rintro rfl
      rw [hlinked.parentOf, Function.update_self] at hd
      exact hq (Option.some.inj hd).symm
  · rcases List.mem_append.mp hd with hd | hd
    · exact hknown.wired.listed d p (childrenOf_eq ho ▸ hd)
    · cases List.mem_singleton.mp hd
      exact touch_self
  · rw [← List.concat_eq_append, hlist]
    exact (hs.nodup p).concat hmem

theorem RootsKnown.leaveParent (hs : s.RootsKnown T fun _ => False)
    (h : leaveParent fuel s c = some s') :
    s'.RootsKnown (touch T ((s.parentOf c).map fun _ => c)) fun _ => False := by
  rcases leaveParent_cases hs.wired.live h with ⟨hc, rfl⟩ | ⟨q, -, h⟩
  · rw [hc, Option.map_none, touch_none]
    exact hs
  · exact hs.removeChild h

theorem RootsKnown.moveToTree {ok : Bool} {destination : Option ι}
    (hs : s.RootsKnown T fun _ => False) (h : moveToTree fuel s c destination = some (s', ok)) :
    s'.RootsKnown (touch T (s.reparented (.moveToTree c destination))) fun _ => False := by
  obtain ⟨s₁, hs₁, hmove⟩ := moveToTree_cases h
  have hleft := hs.leaveParent hs₁
  rcases leaveParent_cases hs.wired.live hs₁ with ⟨hc, rfl⟩ | ⟨q, hc, -⟩
  · rw [reparented, hc, Option.isSome_none, Bool.false_or]
    rcases hmove with ⟨hd, rfl⟩ | ⟨p, hd, hadd⟩
    · rw [hd, Option.any_none, if_neg Bool.false_ne_true, touch_none]
      exact hs
    · rw [hd]
      exact hs.addChild hadd
  · rw [reparented, hc, Option.isSome_some, Bool.true_or, if_pos rfl]
    rw [hc, Option.map_some] at hleft
    rcases hmove with ⟨-, rfl⟩ | ⟨p, -, hadd⟩
    · exact hleft
    have hadded := hleft.addChild hadd
    split at hadded
    · rwa [touch_touch] at hadded
    · rwa [touch_none] at hadded

theorem RootsKnown.create {entityId : ε} {hasScene : Bool} (hs : s.RootsKnown T fun _ => False)
    (h : create fuel s c entityId hasScene = some s') : s'.RootsKnown T fun _ => False := by
  obtain ⟨hc, rfl⟩ := create_eq h
  have hparents : (s.put c { entityId, hasScene, entityPath := [entityId] }).parentOf =
      s.parentOf := parentOf_put_new hc rfl
  have hchildren : (s.put c { entityId, hasScene, entityPath := [entityId] }).childrenOf =
      s.childrenOf := childrenOf_put_new hc rfl
  have hroots : (s.put c { entityId, hasScene, entityPath := [entityId] }).rootOf = s.rootOf := by
    rw [rootOf_put, Function.update_eq_self_iff, rootOf, hc]
    rfl
  refine ⟨⟨fun i p hp => ?_, ?_, ?_⟩, fun j => ?_, ?_, ?_⟩
  · exact isSome_put_iff.mpr (.inr (hs.wired.live i p (hparents ▸ hp)))
  · rw [hparents, hchildren]
    exact hs.wired.complete
  · rw [hchildren]
    exact hs.wired.listed
  · exact (hs.follows j).congr hroots (congrFun hparents j) rfl
  · rw [hparents]
    exact hs.rooted
  · rw [hchildren]
    exact hs.nodup

end

theorem rootsKnown_empty :
    (empty : SceneHierarchy ι ε).RootsKnown (fun _ => false) fun _ => False where
  wired := by refine ⟨fun i p hp => ?_, fun d q hd => ?_, fun d q hd => ?_⟩ <;> contradiction
  follows _ := rfl
  rooted _ := .top rfl
  nodup _ := List.nodup_nil

/-- The calls that put the hierarchy together. -/
def Assembles : SceneObjectCall ι ε → Prop
  | .removeAllChildren _ | .destroy _ => False
  | _ => True

section

variable [DecidableEq ι] [DecidableEq ε] {s : SceneHierarchy ι ε} {T : ι → Bool}

/-- A step, and the objects that came to `SetParent` so far. -/
def watch (w : SceneHierarchy ι ε × (ι → Bool)) (call : ℕ × SceneObjectCall ι ε) :
    Option ((SceneHierarchy ι ε × (ι → Bool)) × Option Bool) :=
  (w.1.step call).map fun r => ((r.1, touch w.2 (w.1.reparented call.2)), r.2)

theorem RootsKnown.step {r : SceneHierarchy ι ε × Option Bool} {call : ℕ × SceneObjectCall ι ε}
    (hs : s.RootsKnown T fun _ => False) (hcall : Assembles call.2) (h : s.step call = some r) :
    r.1.RootsKnown (touch T (s.reparented call.2)) fun _ => False := by
  obtain ⟨fuel, call⟩ := call
  cases call with
  | create self entityId hasScene =>
      obtain ⟨t, ht, rfl⟩ := Option.map_eq_some_iff.mp h
      have hcreated := hs.create ht
      rwa [← touch_none (T := T)] at hcreated
  | addChild self pChild =>
      obtain ⟨t, ht, rfl⟩ := Option.map_eq_some_iff.mp h
      exact hs.addChild ht
  | removeChild self pChild =>
      obtain ⟨t, ht, rfl⟩ := Option.map_eq_some_iff.mp h
      exact hs.removeChild ht
  | moveToTree self destination =>
      obtain ⟨t, ht, rfl⟩ := Option.map_eq_some_iff.mp h
      exact hs.moveToTree ht
  | removeAllChildren self => exact hcall.elim
  | destroy self => exact hcall.elim

end

end SceneHierarchy

end SRCommon
