import Mathlib.Data.List.Basic
import Mathlib.Tactic.Common

/-!
# Runs of a partial step

A step takes a request, may have no meaning, and answers otherwise. What one
step does under a condition on the state before it is carried to the runs all
of whose steps meet the condition.
-/

namespace Steps

section

variable {σ τ ι ω : Type*}

def run (step : σ → ι → Option (σ × ω)) : σ → List ι → Option (σ × List ω)
  | s, [] => some (s, [])
  | s, i :: is =>
      (step s i).bind fun r => (run step r.1 is).map fun rest => (rest.1, r.2 :: rest.2)

/-- Every step of the run meets the condition. -/
def Along (step : σ → ι → Option (σ × ω)) (C : σ → ι → Prop) : σ → List ι → Prop
  | _, [] => True
  | s, i :: is => C s i ∧ ∀ r, step s i = some r → Along step C r.1 is

/-- Every step of the run has a meaning and is related to the state after it. -/
def Always (step : σ → ι → Option (σ × ω)) (P : σ → ι → σ → Prop) : σ → List ι → Prop
  | _, [] => True
  | s, i :: is => ∃ r, step s i = some r ∧ P s i r.1 ∧ Always step P r.1 is

/-- Every step of the run that has a meaning is related to the state after it. -/
def Throughout (step : σ → ι → Option (σ × ω)) (P : σ → ι → σ → Prop) : σ → List ι → Prop
  | _, [] => True
  | s, i :: is => ∀ r, step s i = some r → P s i r.1 ∧ Throughout step P r.1 is

variable {step : σ → ι → Option (σ × ω)} {C : σ → ι → Prop}

instance decidableAlong [∀ s i, Decidable (C s i)] :
    ∀ (is : List ι) (s : σ), Decidable (Along step C s is)
  | [], _ => .isTrue trivial
  | i :: is, s =>
      have : DecidablePred fun r : σ × ω => Along step C r.1 is := fun r => decidableAlong is r.1
      decidable_of_iff (C s i ∧ ∀ r ∈ step s i, Along step C r.1 is) Iff.rfl

theorem run_cons {s : σ} {i : ι} {r : σ × ω} (h : step s i = some r) (is : List ι) :
    run step s (i :: is) = (run step r.1 is).map fun rest => (rest.1, r.2 :: rest.2) := by
  rw [run, h, Option.bind_some]

theorem run_append {s : σ} {is js : List ι} {r : σ × List ω} (h : run step s (is ++ js) = some r) :
    ∃ q q', run step s is = some q ∧ run step q.1 js = some q' ∧ r = (q'.1, q.2 ++ q'.2) := by
  induction is generalizing s r with
  | nil => exact ⟨(s, []), r, rfl, h, rfl⟩
  | cons i is ih =>
      obtain ⟨p, hp, hrun⟩ := Option.bind_eq_some_iff.mp h
      obtain ⟨rest, hrest, rfl⟩ := Option.map_eq_some_iff.mp hrun
      obtain ⟨q, q', hq, hq', rfl⟩ := ih hrest
      refine ⟨(q.1, p.2 :: q.2), q', ?_, hq', rfl⟩
      rw [run_cons hp, hq]
      rfl

theorem Along.take {s : σ} {is : List ι} (h : Along step C s is) (n : ℕ) :
    Along step C s (is.take n) := by
  induction is generalizing s n with
  | nil => simpa using h
  | cons i is ih =>
      cases n with
      | zero => trivial
      | succ n =>
          obtain ⟨hC, hrest⟩ := h
          exact ⟨hC, fun r hr => ih (hrest r hr) n⟩

theorem Along.and {D : σ → ι → Prop} {s : σ} {is : List ι} (hC : Along step C s is)
    (hD : Along step D s is) : Along step (fun s i => C s i ∧ D s i) s is := by
  induction is generalizing s with
  | nil => trivial
  | cons i is ih =>
      obtain ⟨hCi, hCrest⟩ := hC
      obtain ⟨hDi, hDrest⟩ := hD
      exact ⟨⟨hCi, hDi⟩, fun r hr => ih (hCrest r hr) (hDrest r hr)⟩

theorem along_congr {D : σ → ι → Prop} (h : ∀ s i, C s i ↔ D s i) (s : σ) (is : List ι) :
    Along step C s is ↔ Along step D s is := by
  have hCD : C = D := funext fun s => funext fun i => propext (h s i)
  rw [hCD]

/-- An invariant that one step keeps holds after every step of a run. -/
theorem Along.always {P : σ → ι → σ → Prop} {I : σ → Prop}
    (hstep : ∀ s i, I s → C s i → ∃ r, step s i = some r ∧ P s i r.1 ∧ I r.1)
    {s : σ} {is : List ι} (hs : I s) (h : Along step C s is) : Always step P s is := by
  induction is generalizing s with
  | nil => trivial
  | cons i is ih =>
      obtain ⟨hC, hrest⟩ := h
      obtain ⟨r, hr, hP, hI⟩ := hstep s i hs hC
      exact ⟨r, hr, hP, ih hI (hrest r hr)⟩

/-- The same for steps that may have no meaning. -/
theorem Along.throughout {P : σ → ι → σ → Prop} {I : σ → Prop}
    (hstep : ∀ s i r, I s → C s i → step s i = some r → P s i r.1 ∧ I r.1)
    {s : σ} {is : List ι} (hs : I s) (h : Along step C s is) : Throughout step P s is := by
  induction is generalizing s with
  | nil => trivial
  | cons i is ih =>
      obtain ⟨hC, hrest⟩ := h
      intro r hr
      obtain ⟨hP, hI⟩ := hstep s i r hs hC hr
      exact ⟨hP, ih hI (hrest r hr)⟩

/-- A condition is exact when it holds of just the steps that are related to the state after
them. It may be needed for the invariant. -/
theorem throughout_iff_along_of_keeps {P : σ → ι → σ → Prop} {I : σ → Prop}
    (hiff : ∀ s i r, I s → step s i = some r → (P s i r.1 ↔ C s i))
    (hkeep : ∀ s i r, I s → C s i → step s i = some r → I r.1)
    (hnone : ∀ s i, I s → step s i = none → C s i)
    {s : σ} (hs : I s) (is : List ι) : Throughout step P s is ↔ Along step C s is := by
  induction is generalizing s with
  | nil => exact Iff.rfl
  | cons i is ih =>
      constructor
      · intro h
        have hC : C s i := by
          cases hr : step s i with
          | none => exact hnone s i hs hr
          | some r => exact (hiff s i r hs hr).mp (h r hr).1
        exact ⟨hC, fun r hr => (ih (hkeep s i r hs hC hr)).mp (h r hr).2⟩
      · rintro ⟨hC, hrest⟩ r hr
        exact ⟨(hiff s i r hs hr).mpr hC, (ih (hkeep s i r hs hC hr)).mpr (hrest r hr)⟩

theorem throughout_iff_along {P : σ → ι → σ → Prop} {I : σ → Prop}
    (hiff : ∀ s i r, I s → step s i = some r → (P s i r.1 ↔ C s i))
    (hkeep : ∀ s i s', P s i s' → I s') (hnone : ∀ s i, I s → step s i = none → C s i)
    {s : σ} (hs : I s) (is : List ι) : Throughout step P s is ↔ Along step C s is :=
  throughout_iff_along_of_keeps hiff
    (fun s i r hs hC hr => hkeep s i r.1 ((hiff s i r hs hr).mpr hC)) hnone hs is

/-- The same where a step must have a meaning. What the requests promise is not in question. -/
theorem always_iff_along {W : σ → ι → Prop} {P : σ → ι → σ → Prop} {I : σ → Prop}
    (hiff : ∀ s i, I s → W s i → ((∃ r, step s i = some r ∧ P s i r.1) ↔ C s i))
    (hkeep : ∀ s i r, I s → W s i → C s i → step s i = some r → I r.1)
    {s : σ} (hs : I s) {is : List ι} (hW : Along step W s is) :
    Always step P s is ↔ Along step C s is := by
  induction is generalizing s with
  | nil => exact Iff.rfl
  | cons i is ih =>
      obtain ⟨hWi, hWrest⟩ := hW
      constructor
      · rintro ⟨r, hr, hP, hrest⟩
        have hC := (hiff s i hs hWi).mp ⟨r, hr, hP⟩
        refine ⟨hC, fun r' hr' => ?_⟩
        cases hr.symm.trans hr'
        exact (ih (hkeep s i r hs hWi hC hr) (hWrest r hr)).mp hrest
      · rintro ⟨hC, hrest⟩
        obtain ⟨r, hr, hP⟩ := (hiff s i hs hWi).mpr hC
        exact ⟨r, hr, hP, (ih (hkeep s i r hs hWi hC hr) (hWrest r hr)).mpr (hrest r hr)⟩

/-- What is known of the last step of a run. -/
theorem Always.last {P : σ → ι → σ → Prop} {s : σ} {is : List ι} {i : ι}
    (h : Always step P s (is ++ [i])) :
    ∃ r r', run step s is = some r ∧ step r.1 i = some r' ∧ P r.1 i r'.1 := by
  induction is generalizing s with
  | nil =>
      obtain ⟨r, hr, hP, -⟩ := h
      exact ⟨(s, []), r, rfl, hr, hP⟩
  | cons j is ih =>
      obtain ⟨r, hr, -, hrest⟩ := h
      obtain ⟨q, q', hq, hq', hP⟩ := ih hrest
      refine ⟨(q.1, r.2 :: q.2), q', ?_, hq', hP⟩
      rw [run_cons hr, hq]
      rfl

theorem Throughout.last {P : σ → ι → σ → Prop} {s : σ} {is : List ι} {i : ι}
    (h : Throughout step P s (is ++ [i])) {r : σ × List ω} (hr : run step s is = some r)
    {r' : σ × ω} (hr' : step r.1 i = some r') : P r.1 i r'.1 := by
  induction is generalizing s r with
  | nil =>
      cases hr
      exact (h r' hr').1
  | cons j is ih =>
      obtain ⟨q, hq, hrun⟩ := Option.bind_eq_some_iff.mp hr
      obtain ⟨rest, hrest, rfl⟩ := Option.map_eq_some_iff.mp hrun
      exact ih (r := rest) (h q hq).2 hrest hr'

theorem Along.invariant {I : σ → Prop}
    (hstep : ∀ s i r, I s → C s i → step s i = some r → I r.1) {s : σ} {is : List ι}
    {r : σ × List ω} (hs : I s) (h : Along step C s is) (hrun : run step s is = some r) :
    I r.1 := by
  induction is generalizing s r with
  | nil =>
      cases hrun
      exact hs
  | cons i is ih =>
      obtain ⟨hC, hrest⟩ := h
      obtain ⟨q, hq, hrun⟩ := Option.bind_eq_some_iff.mp hrun
      obtain ⟨rest, hlast, rfl⟩ := Option.map_eq_some_iff.mp hrun
      exact ih (r := rest) (hstep s i q hs hC hq) (hrest q hq) hlast

theorem along_of_forall_mem {is : List ι} (h : ∀ i ∈ is, ∀ s, C s i) (s : σ) :
    Along step C s is := by
  induction is generalizing s with
  | nil => trivial
  | cons i is ih =>
      rw [List.forall_mem_cons] at h
      exact ⟨h.1 s, fun r _ => ih h.2 r.1⟩

theorem along_of_forall (h : ∀ s i, C s i) (s : σ) (is : List ι) : Along step C s is :=
  along_of_forall_mem (fun i _ s => h s i) s

theorem run_invariant {I : σ → Prop} (hstep : ∀ s i r, I s → step s i = some r → I r.1)
    {s : σ} {is : List ι} {r : σ × List ω} (hs : I s) (h : run step s is = some r) : I r.1 :=
  (along_of_forall (C := fun _ _ => True) (fun _ _ => trivial) s is).invariant
    (fun s i r hs _ hr => hstep s i r hs hr) hs h

/-- An invariant of a loop, which may speak of the entries that are still ahead. -/
theorem foldlM_invariant {f : σ → ι → Option σ} {I : List ι → σ → Prop}
    (hstep : ∀ i is s s', I (i :: is) s → f s i = some s' → I is s')
    {is : List ι} {s s' : σ} (hs : I is s) (h : is.foldlM f s = some s') : I [] s' := by
  induction is generalizing s with
  | nil =>
      cases h
      exact hs
  | cons i is ih =>
      rw [List.foldlM_cons] at h
      obtain ⟨s₁, hs₁, hrest⟩ := Option.bind_eq_some_iff.mp h
      exact ih (hstep i is s s₁ hs hs₁) hrest

/-- A step that is answered alike on both sides keeps two runs in lockstep. -/
theorem Along.simulates {step' : τ → ι → Option (τ × ω)} {R : σ → τ → Prop}
    (hstep : ∀ s t i, R s t → C s i →
      ∃ s' t' o, step s i = some (s', o) ∧ step' t i = some (t', o) ∧ R s' t')
    {s : σ} {t : τ} {is : List ι} (hst : R s t) (h : Along step C s is) :
    ∃ s' t' os, run step s is = some (s', os) ∧ run step' t is = some (t', os) ∧ R s' t' := by
  induction is generalizing s t with
  | nil => exact ⟨s, t, [], rfl, rfl, hst⟩
  | cons i is ih =>
      obtain ⟨hC, hrest⟩ := h
      obtain ⟨s₁, t₁, o, hs, ht, hR⟩ := hstep s t i hst hC
      obtain ⟨s', t', os, hs', ht', hR'⟩ := ih hR (hrest _ hs)
      refine ⟨s', t', o :: os, ?_, ?_, hR'⟩
      · rw [run_cons hs, hs']
        rfl
      · rw [run_cons ht, ht']
        rfl

/-- A condition is exact when both sides answer alike only where it holds. -/
theorem simulates_iff_along {step' : τ → ι → Option (τ × ω)} {R : σ → τ → Prop}
    (hstep : ∀ s t i, R s t → C s i →
      ∃ s' t' o, step s i = some (s', o) ∧ step' t i = some (t', o) ∧ R s' t')
    (honly : ∀ s t i s' t' o, R s t → step s i = some (s', o) → step' t i = some (t', o) → C s i)
    {s : σ} {t : τ} (hst : R s t) (is : List ι) :
    (∃ s' t' os, run step s is = some (s', os) ∧ run step' t is = some (t', os) ∧ R s' t') ↔
      Along step C s is := by
  refine ⟨?_, Along.simulates hstep hst⟩
  induction is generalizing s t with
  | nil => exact fun _ => trivial
  | cons i is ih =>
      rintro ⟨s', t', os, hs, ht, hR⟩
      obtain ⟨⟨s₁, o⟩, hs₁, hs⟩ := Option.bind_eq_some_iff.mp hs
      obtain ⟨⟨t₁, o'⟩, ht₁, ht⟩ := Option.bind_eq_some_iff.mp ht
      obtain ⟨q, hq, hqs⟩ := Option.map_eq_some_iff.mp hs
      obtain ⟨q', hq', hqt⟩ := Option.map_eq_some_iff.mp ht
      obtain ⟨rfl, rfl⟩ := Prod.mk.inj hqs
      obtain ⟨rfl, heq⟩ := Prod.mk.inj hqt
      obtain ⟨rfl, hos⟩ := List.cons.inj heq
      have hC := honly s t i s₁ t₁ o' hst hs₁ ht₁
      obtain ⟨s₂, t₂, o₂, hs₂, ht₂, hR₂⟩ := hstep s t i hst hC
      cases hs₁.symm.trans hs₂
      cases ht₁.symm.trans ht₂
      refine ⟨hC, fun r hr => ?_⟩
      cases hs₁.symm.trans hr
      exact ih hR₂ ⟨q.1, q'.1, q.2, hq, hos ▸ hq', hR⟩

end

end Steps
