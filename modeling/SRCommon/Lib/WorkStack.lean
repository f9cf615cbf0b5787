import Mathlib.Data.List.MinMax
import Mathlib.Data.Set.Card
import Mathlib.Logic.Relation
import Mathlib.Tactic.Common

/-!
# Work that brings more work

Pieces of work are done one after the other. A piece may stay where it is, or
is replaced by the pieces that it brings, which come next. What a step does
with the first piece is carried to all of them.
-/

namespace WorkStack

variable {σ τ : Type*}

/-- All work is done. What stays is kept in its order. -/
inductive Drains (step : σ → τ → σ → Option (List τ) → Prop) : σ → List τ → σ → List τ → Prop
  | nil (s : σ) : Drains step s [] s []
  | stay {s s' s'' : σ} {t : τ} {ts kept : List τ} (hstep : step s t s' none)
      (hrest : Drains step s' ts s'' kept) : Drains step s (t :: ts) s'' (t :: kept)
  | next {s s' s'' : σ} {t : τ} {new ts kept : List τ} (hstep : step s t s' (some new))
      (hrest : Drains step s' (new ++ ts) s'' kept) : Drains step s (t :: ts) s'' kept

variable {step : σ → τ → σ → Option (List τ) → Prop} {s s' s'' : σ} {t : τ}
  {ts us kept kept' : List τ}

namespace Drains

theorem of_nil (h : Drains step s [] s' kept) : s' = s ∧ kept = [] := by
  cases h
  exact ⟨rfl, rfl⟩

theorem append (h : Drains step s ts s' kept) (h' : Drains step s' us s'' kept') :
    Drains step s (ts ++ us) s'' (kept ++ kept') := by
  induction h with
  | nil s => exact h'
  | stay hstep hrest ih => exact .stay hstep (ih h')
  | @next s s₁ s₂ t new ts kept hstep hrest ih =>
      have hrest' := ih h'
      rw [List.append_assoc] at hrest'
      exact .next hstep hrest'

/-- What comes first is done before the rest is looked at. -/
theorem split (h : Drains step s (ts ++ us) s'' kept) :
    ∃ s' kept₁ kept₂, Drains step s ts s' kept₁ ∧ Drains step s' us s'' kept₂ ∧
      kept = kept₁ ++ kept₂ := by
  generalize hall : ts ++ us = all at h
  induction h generalizing ts with
  | nil s =>
      obtain ⟨rfl, rfl⟩ := List.append_eq_nil_iff.mp hall
      exact ⟨s, [], [], .nil s, .nil s, rfl⟩
  | @stay s s₁ s₂ t rest kept hstep hrest ih =>
      cases ts with
      | nil =>
          obtain rfl : us = t :: rest := hall
          exact ⟨s, [], _, .nil s, .stay hstep hrest, rfl⟩
      | cons t' ts =>
          obtain ⟨rfl, hrest'⟩ := List.cons.inj hall
          obtain ⟨s', kept₁, kept₂, h₁, h₂, rfl⟩ := ih hrest'
          exact ⟨s', t' :: kept₁, kept₂, .stay hstep h₁, h₂, rfl⟩
  | @next s s₁ s₂ t new rest kept hstep hrest ih =>
      cases ts with
      | nil =>
          obtain rfl : us = t :: rest := hall
          exact ⟨s, [], _, .nil s, .next hstep hrest, rfl⟩
      | cons t' ts =>
          obtain ⟨rfl, rfl⟩ := List.cons.inj hall
          obtain ⟨s', kept₁, kept₂, h₁, h₂, rfl⟩ := ih (List.append_assoc new ts us)
          exact ⟨s', kept₁, kept₂, .next hstep h₁, h₂, rfl⟩

/-- An invariant may speak of the work that is still to be done. -/
theorem invariant {I : σ → Prop} {J : σ → τ → Prop}
    (hstep : ∀ s t s' new, I s → J s t → step s t s' new →
      I s' ∧ (∀ u, J s u → J s' u) ∧ ∀ l, new = some l → ∀ u ∈ l, J s' u)
    (h : Drains step s ts s' kept) (hs : I s) (hts : ∀ t ∈ ts, J s t) :
    I s' ∧ (∀ u, J s u → J s' u) ∧ ∀ t ∈ kept, J s' t := by
  induction h with
  | nil s => exact ⟨hs, fun _ hu => hu, hts⟩
  | @stay s s₁ s₂ t rest kept hone hrest ih =>
      rw [List.forall_mem_cons] at hts
      obtain ⟨hI, hJ, -⟩ := hstep _ _ _ _ hs hts.1 hone
      obtain ⟨hI', hJ', hkept⟩ := ih hI fun u hu => hJ u (hts.2 u hu)
      refine ⟨hI', fun u hu => hJ' u (hJ u hu), ?_⟩
      rw [List.forall_mem_cons]
      exact ⟨hJ' t (hJ t hts.1), hkept⟩
  | @next s s₁ s₂ t new rest kept hone hrest ih =>
      rw [List.forall_mem_cons] at hts
      obtain ⟨hI, hJ, hnew⟩ := hstep _ _ _ _ hs hts.1 hone
      obtain ⟨hI', hJ', hkept⟩ := ih hI fun u hu =>
        (List.mem_append.mp hu).elim (hnew new rfl u) fun hu => hJ u (hts.2 u hu)
      exact ⟨hI', fun u hu => hJ' u (hJ u hu), hkept⟩

end Drains

/-- Where nothing comes after itself, there are ranks that fall. -/
theorem exists_rank {ν : Type*} [Finite ν] {r : ν → ν → Prop} (h : ∀ a, ¬ Relation.TransGen r a a) :
    ∃ rank : ν → ℕ, ∀ a b, r a b → rank b < rank a := by
  refine ⟨fun a => {b | Relation.TransGen r a b}.ncard, fun a b hab => ?_⟩
  refine Set.ncard_lt_ncard ⟨fun c hbc => .head hab hbc, fun hsub => ?_⟩ (Set.toFinite _)
  exact h b (hsub (Relation.TransGen.single hab))

/-- Work that only brings work of a lower rank comes to an end. -/
theorem exists_drains {I : σ → Prop} {J : τ → Prop} {rank : τ → ℕ}
    (hstep : ∀ s t, I s → J t → ∃ s' new, step s t s' new ∧ I s' ∧
      ∀ l, new = some l → ∀ u ∈ l, J u ∧ rank u < rank t)
    (ts : List τ) (hts : ∀ t ∈ ts, J t) (hs : I s) : ∃ s' kept, Drains step s ts s' kept := by
  obtain ⟨n, hn⟩ : ∃ n, ∀ t ∈ ts, rank t < n := by
    refine ⟨(ts.map rank).foldr max 0 + 1, fun t ht => Nat.lt_succ_of_le ?_⟩
    exact List.le_max_of_le' 0 (List.mem_map_of_mem ht) le_rfl
  suffices h : ∃ s' kept, Drains step s ts s' kept ∧ I s' by
    obtain ⟨s', kept, h, -⟩ := h
    exact ⟨s', kept, h⟩
  induction n generalizing s ts with
  | zero =>
      obtain rfl : ts = [] := List.eq_nil_iff_forall_not_mem.mpr fun t ht => by
        have hlt := hn t ht
        omega
      exact ⟨s, [], .nil s, hs⟩
  | succ n ihn =>
      induction ts generalizing s with
      | nil => exact ⟨s, [], .nil s, hs⟩
      | cons t ts ih =>
          rw [List.forall_mem_cons] at hts hn
          obtain ⟨s₁, new, hone, hI, hnew⟩ := hstep s t hs hts.1
          cases new with
          | none =>
              obtain ⟨s', kept, hrest, hI'⟩ := ih hts.2 hI hn.2
              exact ⟨s', t :: kept, .stay hone hrest, hI'⟩
          | some new =>
              have hlower : ∀ u ∈ new, rank u < n := fun u hu =>
                Nat.lt_of_lt_of_le (hnew new rfl u hu).2 (Nat.le_of_lt_succ hn.1)
              obtain ⟨s₂, kept₁, h₁, hI₁⟩ := ihn new (fun u hu => (hnew new rfl u hu).1) hI hlower
              obtain ⟨s', kept₂, h₂, hI₂⟩ := ih hts.2 hI₁ hn.2
              exact ⟨s', _, .next hone (h₁.append h₂), hI₂⟩

/-! ## Depth first -/

/-- A node is listed before what it leads to, and all of that before the nodes behind it. -/
inductive DepthFirst {ν : Type*} (next : ν → List ν) : List ν → List ν → Prop
  | nil : DepthFirst next [] []
  | cons {n : ν} {ns l₁ l₂ : List ν} (h₁ : DepthFirst next (next n) l₁)
      (h₂ : DepthFirst next ns l₂) : DepthFirst next (n :: ns) (n :: (l₁ ++ l₂))

namespace DepthFirst

variable {ν : Type*} {next : ν → List ν} {n : ν} {ns ms l : List ν}

theorem split (h : DepthFirst next (ns ++ ms) l) :
    ∃ l₁ l₂, DepthFirst next ns l₁ ∧ DepthFirst next ms l₂ ∧ l = l₁ ++ l₂ := by
  induction ns generalizing l with
  | nil => exact ⟨[], l, .nil, h, rfl⟩
  | cons n ns ih =>
      cases h with
      | @cons _ _ l₁ l₂ h₁ h₂ =>
          obtain ⟨l₃, l₄, h₃, h₄, rfl⟩ := ih h₂
          refine ⟨n :: (l₁ ++ l₃), l₄, .cons h₁ h₃, h₄, ?_⟩
          rw [List.cons_append, List.append_assoc]

/-- A node is replaced by what it leads to. -/
theorem of_append (h : DepthFirst next (next n ++ ns) l) :
    DepthFirst next (n :: ns) (n :: l) := by
  obtain ⟨l₁, l₂, h₁, h₂, rfl⟩ := h.split
  exact .cons h₁ h₂

end DepthFirst

end WorkStack
