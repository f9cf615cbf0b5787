import Mathlib.Data.List.Nodup
import Mathlib.Logic.Function.Basic
import Mathlib.Logic.Relation
import Mathlib.Tactic.Common

/-!
# Forests of parent pointers

A forest that is kept twice, as the parent of each node and as the children of
each node. Links are cut and made on both sides.
-/

namespace ParentForest

section

variable {ι : Type*} {parent parent' : ι → Option ι} {i : ι} {l l' : List ι}

/-- The nodes from `i` up to the one that has no parent. -/
inductive Lineage (parent : ι → Option ι) : ι → List ι → Prop
  | top {i : ι} : parent i = none → Lineage parent i [i]
  | step {i p : ι} {l : List ι} : parent i = some p → Lineage parent p l →
      Lineage parent i (i :: l)

def Rooted (parent : ι → Option ι) (i : ι) : Prop := ∃ l, Lineage parent i l

theorem Rooted.top (h : parent i = none) : Rooted parent i := ⟨[i], .top h⟩

theorem Rooted.step {p : ι} (h : parent i = some p) (hp : Rooted parent p) : Rooted parent i := by
  obtain ⟨l, hl⟩ := hp
  exact ⟨i :: l, .step h hl⟩

namespace Lineage

theorem unique (h : Lineage parent i l) (h' : Lineage parent i l') : l = l' := by
  induction h generalizing l' with
  | top hi =>
      cases h' with
      | top => rfl
      | step hi' => cases hi.symm.trans hi'
  | step hi _ ih =>
      cases h' with
      | top hi' => cases hi.symm.trans hi'
      | step hi' hl' =>
          cases hi.symm.trans hi'
          rw [ih hl']

theorem eq_cons (h : Lineage parent i l) : l = i :: l.tail := by
  cases h <;> rfl

/-- A member other than the node itself is the parent of a member. -/
theorem eq_or_child {c : ι} (h : Lineage parent i l) (hc : c ∈ l) :
    c = i ∨ ∃ d, parent d = some c := by
  induction h with
  | top => exact .inl (List.mem_singleton.mp hc)
  | step hi hl ih =>
      rcases List.mem_cons.mp hc with rfl | hc
      · exact .inl rfl
      · rcases ih hc with rfl | hd
        · exact .inr ⟨_, hi⟩
        · exact .inr hd

theorem congr (h : Lineage parent i l) (hagree : ∀ j ∈ l, parent' j = parent j) :
    Lineage parent' i l := by
  induction h with
  | top hi => exact .top ((hagree _ List.mem_cons_self).trans hi)
  | step hi _ ih =>
      exact .step ((hagree _ List.mem_cons_self).trans hi)
        (ih fun j hj => hagree j (List.mem_cons_of_mem _ hj))

theorem mem_self (h : Lineage parent i l) : i ∈ l := by
  cases h <;> exact List.mem_cons_self

theorem getLast?_cons {j : ι} (h : Lineage parent i l) : (j :: l).getLast? = l.getLast? := by
  rw [h.eq_cons]
  rfl

theorem parent_mem {j p : ι} (h : Lineage parent i l) (hj : j ∈ l) (hp : parent j = some p) :
    p ∈ l := by
  induction h with
  | top hi =>
      cases List.mem_singleton.mp hj
      cases hi.symm.trans hp
  | step hi hl ih =>
      apply List.mem_cons_of_mem
      rcases List.mem_cons.mp hj with rfl | hj
      · cases hi.symm.trans hp
        exact hl.mem_self
      · exact ih hj

theorem parent_ne {j : ι} (h : Lineage parent i l) (hj : j ∈ l) : parent j ≠ some j := by
  induction h with
  | top hi =>
      cases List.mem_singleton.mp hj
      simp [hi]
  | step hi hl ih =>
      rcases List.mem_cons.mp hj with rfl | hj
      · intro hloop
        cases hi.symm.trans hloop
        exact List.cons_ne_self _ _ (hl.unique (.step hi hl)).symm
      · exact ih hj

theorem getLast?_of_top {j : ι} (h : Lineage parent i l) (hj : j ∈ l) (hp : parent j = none) :
    l.getLast? = some j := by
  induction h with
  | top => rw [List.mem_singleton.mp hj, List.getLast?_singleton]
  | step hi hl ih =>
      rw [hl.getLast?_cons]
      rcases List.mem_cons.mp hj with rfl | hj
      · cases hi.symm.trans hp
      · exact ih hj

theorem not_transGen (h : Lineage parent i l) :
    ¬ Relation.TransGen (fun a b => parent a = some b) i i := by
  induction h with
  | top hi =>
      intro hloop
      obtain ⟨p, hp, -⟩ := Relation.TransGen.head'_iff.mp hloop
      cases hi.symm.trans hp
  | step hi _ ih =>
      intro hloop
      obtain ⟨p, hp, hrest⟩ := Relation.TransGen.head'_iff.mp hloop
      cases hi.symm.trans hp
      exact ih (.tail' hrest hi)

end Lineage

/-- The node is `x` or below it. -/
def Under (parent : ι → Option ι) (i x : ι) : Prop :=
  Relation.ReflTransGen (fun a b => parent a = some b) i x

theorem Under.refl (i : ι) : Under parent i i := Relation.ReflTransGen.refl

theorem Under.of_child {c x : ι} (h : Under parent i c) (hc : parent c = some x) :
    Under parent i x := Relation.ReflTransGen.tail h hc

theorem Under.eq_or_parent {x : ι} (h : Under parent i x) :
    i = x ∨ ∃ p, parent i = some p ∧ Under parent p x :=
  Relation.ReflTransGen.cases_head h

theorem Under.eq_or_child {x : ι} (h : Under parent i x) :
    i = x ∨ ∃ c, Under parent i c ∧ parent c = some x :=
  (Relation.ReflTransGen.cases_tail h).imp_left Eq.symm

theorem Rooted.exists_top (h : Rooted parent i) : ∃ r, parent r = none ∧ Under parent i r := by
  obtain ⟨l, hl⟩ := h
  induction hl with
  | top hi => exact ⟨_, hi, .refl _⟩
  | step hi _ ih =>
      obtain ⟨r, hr, hunder⟩ := ih
      exact ⟨r, hr, Relation.ReflTransGen.head hi hunder⟩

/-- From below `o` one child after the other. -/
def Descends (parent : ι → Option ι) : Option ι → List ι → Prop
  | _, [] => True
  | o, i :: is => parent i = o ∧ Descends parent (some i) is

theorem descends_append {o : Option ι} :
    Descends parent o (l ++ l') ↔ Descends parent o l ∧ Descends parent (l.getLast?.or o) l' := by
  induction l generalizing o with
  | nil => exact ⟨fun h => ⟨trivial, h⟩, And.right⟩
  | cons i l ih =>
      rw [List.cons_append, Descends, Descends, ih, and_assoc, List.getLast?_cons]
      cases l.getLast? <;> rfl

namespace Lineage

theorem descends (h : Lineage parent i l) : Descends parent none l.reverse := by
  induction h with
  | top hi => exact ⟨hi, trivial⟩
  | step hi hl ih =>
      rw [List.reverse_cons, descends_append]
      refine ⟨ih, ?_, trivial⟩
      rw [hi, List.getLast?_reverse, hl.eq_cons]
      rfl

theorem exists_of_mem {j : ι} (h : Lineage parent i l) (hj : j ∈ l) :
    ∃ l', Lineage parent j l' ∧ l'.length ≤ l.length := by
  induction h with
  | @top i hi =>
      cases List.mem_singleton.mp hj
      exact ⟨_, .top hi, Nat.le_refl _⟩
  | @step i p l hi hl ih =>
      rcases List.mem_cons.mp hj with rfl | hj
      · exact ⟨_, .step hi hl, Nat.le_refl _⟩
      · obtain ⟨l', hl', hle⟩ := ih hj
        exact ⟨l', hl', Nat.le_succ_of_le hle⟩

theorem nodup (h : Lineage parent i l) : l.Nodup := by
  induction h with
  | top => exact List.nodup_singleton _
  | @step i p l hi hl ih =>
      refine List.nodup_cons.mpr ⟨fun hmem => ?_, ih⟩
      -- the lineage of a node that comes back would be shorter than itself
      obtain ⟨l', hl', hle⟩ := hl.exists_of_mem hmem
      rw [hl'.unique (.step hi hl)] at hle
      exact Nat.not_succ_le_self _ hle

end Lineage

/-- A change of parents that leaves the changed nodes rooted leaves all rooted. -/
theorem Rooted.of_changed (hchanged : ∀ j, parent' j = parent j ∨ Rooted parent' j)
    (h : Rooted parent i) : Rooted parent' i := by
  obtain ⟨l, hl⟩ := h
  induction hl with
  | top hi =>
      rcases hchanged _ with hsame | hrooted
      · exact .top (hsame.trans hi)
      · exact hrooted
  | step hi _ ih =>
      rcases hchanged _ with hsame | hrooted
      · exact .step (hsame.trans hi) ih
      · exact hrooted

end

/-- The children lists say what the parent pointers say, and no node is its own ancestor. -/
structure IsForest {ι : Type*} (parent : ι → Option ι) (children : ι → List ι) : Prop where
  mem_children : ∀ c p, c ∈ children p ↔ parent c = some p
  nodup : ∀ p, (children p).Nodup
  rooted : ∀ i, Rooted parent i

namespace IsForest

section

variable {ι : Type*} {parent : ι → Option ι} {children : ι → List ι}

theorem not_own_ancestor (h : IsForest parent children) (i : ι) :
    ¬ Relation.TransGen (fun a b => parent a = some b) i i := by
  obtain ⟨l, hl⟩ := h.rooted i
  exact hl.not_transGen

theorem not_under_of_parent (h : IsForest parent children) {c p : ι} (hc : parent c = some p) :
    ¬ Under parent p c := fun hunder =>
  h.not_own_ancestor c (Relation.TransGen.head' hc hunder)

/-- Two nodes that are on the same level have nothing below them in common. -/
theorem eq_of_under (h : IsForest parent children) {c d i : ι} (hparent : parent c = parent d)
    (hc : Under parent i c) (hd : Under parent i d) : c = d := by
  have hbelow : ∀ {c d : ι}, parent c = parent d → Under parent c d → c = d :=
    fun {c d} hparent hunder => by
      rcases hunder.eq_or_parent with heq | ⟨p, hp, hpd⟩
      · exact heq
      · exact (h.not_under_of_parent (hparent.symm.trans hp) hpd).elim
  rcases Relation.ReflTransGen.total_of_right_unique
    (fun _ _ _ ha hb => Option.some.inj (ha.symm.trans hb)) hc hd with hcd | hdc
  · exact hbelow hparent hcd
  · exact (hbelow hparent.symm hdc).symm

end

variable {ι : Type*} [DecidableEq ι] {parent : ι → Option ι} {children : ι → List ι} {c p : ι}

/-- A new parent of one node leaves all rooted if it leaves this one rooted. -/
theorem rooted_update (h : IsForest parent children) {x : Option ι}
    (hc : Rooted (Function.update parent c x) c) (i : ι) :
    Rooted (Function.update parent c x) i := by
  refine (h.rooted i).of_changed fun j => ?_
  rcases eq_or_ne j c with rfl | hj
  · exact .inr hc
  · exact .inl (Function.update_of_ne hj ..)

/-- A node that neither loses nor gets the child keeps its children. -/
theorem mem_children_of_ne (h : IsForest parent children) {l : List ι} {x : Option ι} {d q : ι}
    (hq : q ≠ p) (hold : parent c ≠ some q) (hnew : x ≠ some q) :
    d ∈ Function.update children p l q ↔ Function.update parent c x d = some q := by
  rw [Function.update_of_ne hq, h.mem_children]
  rcases eq_or_ne d c with rfl | hd
  · rw [Function.update_self]
    exact iff_of_false hold hnew
  · rw [Function.update_of_ne hd]

theorem nodup_update (h : IsForest parent children) {l : List ι} (hl : l.Nodup) (q : ι) :
    (Function.update children p l q).Nodup := by
  rcases eq_or_ne q p with rfl | hq
  · rwa [Function.update_self]
  · rw [Function.update_of_ne hq]
    exact h.nodup q

theorem cut (h : IsForest parent children) (hc : parent c = some p) :
    IsForest (Function.update parent c none)
      (Function.update children p ((children p).erase c)) where
  mem_children d q := by
    rcases eq_or_ne q p with rfl | hq
    · rw [Function.update_self, (h.nodup q).mem_erase_iff, h.mem_children]
      rcases eq_or_ne d c with rfl | hd
      · simp
      · simp [hd]
    · apply h.mem_children_of_ne hq
      · simpa [hc] using hq.symm
      · simp
  nodup := h.nodup_update ((h.nodup p).erase c)
  rooted := h.rooted_update (.top (Function.update_self ..))

theorem link (h : IsForest parent children) (hc : parent c = none)
    (hrooted : Rooted (Function.update parent c (some p)) c) :
    IsForest (Function.update parent c (some p))
      (Function.update children p (children p ++ [c])) where
  mem_children d q := by
    rcases eq_or_ne q p with rfl | hq
    · rw [Function.update_self, List.mem_append, List.mem_singleton, h.mem_children]
      rcases eq_or_ne d c with rfl | hd
      · simp
      · simp [hd]
    · apply h.mem_children_of_ne hq
      · simp [hc]
      · simpa using hq.symm
  nodup := by
    apply h.nodup_update
    rw [← List.concat_eq_append]
    refine (h.nodup p).concat fun hmem => ?_
    cases hc.symm.trans ((h.mem_children c p).mp hmem)
  rooted := h.rooted_update hrooted

/-- All children of one node are cut off at once. -/
theorem cutAll (h : IsForest parent children) {parent' : ι → Option ι}
    (hparent : ∀ j, parent' j = if parent j = some p then none else parent j) :
    IsForest parent' (Function.update children p []) where
  mem_children d q := by
    rw [hparent]
    rcases eq_or_ne q p with rfl | hq
    · rw [Function.update_self]
      split <;> simp [*]
    · rw [Function.update_of_ne hq, h.mem_children]
      split
      · rename_i hd
        simpa [hd] using hq.symm
      · rfl
  nodup := h.nodup_update List.nodup_nil
  rooted i := by
    refine (h.rooted i).of_changed fun j => ?_
    rw [hparent]
    split
    · rename_i hj
      exact .inr (.top ((hparent j).trans (if_pos hj)))
    · exact .inl rfl

end IsForest

end ParentForest
