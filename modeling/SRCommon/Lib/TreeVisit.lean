import SRCommon.Lib.ParentForest
import SRCommon.Lib.PartialRun

/-!
# Visits of a forest

A recursion that treats a node and then its children. If what it does below one
node concerns the nodes below it only, what holds after the visits of the
children holds after the visit of the node.
-/

namespace ParentForest

variable {ι β σ : Type*} {parent : ι → Option ι} {children : ι → List ι} {G : ι → β → Prop} {x : ι}
  {cs : List ι} {v v' w : ι → β}

/-- The values below `x` have become good, and the others are what they were. -/
structure Covers (parent : ι → Option ι) (G : ι → β → Prop) (x : ι) (v v' : ι → β) : Prop where
  frame : ∀ i, ¬ Under parent i x → v' i = v i
  good : ∀ i, Under parent i x → G i (v' i)

/-- The same for the nodes below those of a list. -/
structure CoversAll (parent : ι → Option ι) (G : ι → β → Prop) (cs : List ι) (v v' : ι → β) :
    Prop where
  frame : ∀ i, (∀ c ∈ cs, ¬ Under parent i c) → v' i = v i
  good : ∀ c ∈ cs, ∀ i, Under parent i c → G i (v' i)

theorem Covers.of_good (h : ∀ i, Under parent i x → G i (v i)) : Covers parent G x v v :=
  ⟨fun _ _ => rfl, h⟩

/-- The node has been treated, and then its children have been visited. -/
theorem CoversAll.covers (hforest : IsForest parent children)
    (hcs : ∀ c, c ∈ cs ↔ parent c = some x) (hw : ∀ i, ¬ Under parent i x → w i = v i)
    (hx : G x (w x)) (h : CoversAll parent G cs w v') :
    Covers parent G x v v' where
  frame i hi := by
    rw [h.frame i fun c hc hunder => hi (hunder.of_child ((hcs c).mp hc)), hw i hi]
  good i hi := by
    rcases hi.eq_or_child with rfl | ⟨c, hc, hparent⟩
    · rw [h.frame i fun c hc => hforest.not_under_of_parent ((hcs c).mp hc)]
      exact hx
    · exact h.good c ((hcs c).mpr hparent) i hc

/-- A loop over nodes of one level. Each of them is found as it was, and so is everything that is
below none of them. -/
theorem IsForest.coversAll_foldlM (hforest : IsForest parent children) (val : σ → ι → β)
    {K : σ → Prop} {f : σ → ι → Option σ} {o : Option ι} {s s' : σ} (hnodup : cs.Nodup)
    (hlevel : ∀ c ∈ cs, parent c = o)
    (hstep : ∀ c ∈ cs, ∀ t t', K t → (∀ i, Under parent i c → val t i = val s i) →
      (∀ i, (∀ d ∈ cs, ¬ Under parent i d) → val t i = val s i) → f t c = some t' →
      K t' ∧ Covers parent G c (val t) (val t'))
    (hs : K s) (h : cs.foldlM f s = some s') :
    K s' ∧ CoversAll parent G cs (val s) (val s') := by
  have hend := Steps.foldlM_invariant
    (I := fun rest t => K t ∧ rest.Nodup ∧ (∀ c ∈ rest, c ∈ cs) ∧
      (∀ i, (∀ d ∈ cs, ¬ Under parent i d) → val t i = val s i) ∧
      (∀ c ∈ rest, ∀ i, Under parent i c → val t i = val s i) ∧
      ∀ c ∈ cs, c ∉ rest → ∀ i, Under parent i c → G i (val t i))
    (fun c rest t t' ht hc => ?_)
    ⟨hs, hnodup, fun _ hc => hc, fun _ _ => rfl, fun _ _ _ _ => rfl,
      fun c hc hnot => (hnot hc).elim⟩ h
  · obtain ⟨hK, -, -, hframe, -, hgood⟩ := hend
    exact ⟨hK, hframe, fun c hc => hgood c hc List.not_mem_nil⟩
  · obtain ⟨hK, hnodup, hmem, hframe, hahead, hgood⟩ := ht
    obtain ⟨hnotMem, hnodup⟩ := List.nodup_cons.mp hnodup
    have hcmem := hmem c List.mem_cons_self
    obtain ⟨hK', hcovers⟩ := hstep c hcmem t t' hK (hahead c List.mem_cons_self) hframe hc
    -- what is below another node of the level is not below this one
    have hother : ∀ d ∈ cs, d ≠ c → ∀ i, Under parent i d → val t' i = val t i :=
      fun d hd hne i hi => hcovers.frame i fun hunder =>
        hne (hforest.eq_of_under ((hlevel d hd).trans (hlevel c hcmem).symm) hi hunder)
    refine ⟨hK', hnodup, fun d hd => hmem d (List.mem_cons_of_mem _ hd), fun i hi => ?_,
      fun d hd i hi => ?_, fun d hd hnot i hi => ?_⟩
    · rw [hcovers.frame i (hi c hcmem), hframe i hi]
    · have hdcs := hmem d (List.mem_cons_of_mem _ hd)
      have hne : d ≠ c := fun heq => hnotMem (heq ▸ hd)
      rw [hother d hdcs hne i hi, hahead d (List.mem_cons_of_mem _ hd) i hi]
    · rcases eq_or_ne d c with rfl | hne
      · exact hcovers.good i hi
      · rw [hother d hd hne i hi]
        exact hgood d hd (fun hboth => (List.mem_cons.mp hboth).elim hne hnot) i hi

end ParentForest
