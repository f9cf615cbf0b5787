import SRCommon.Lib.ParentForest
import SRCommon.Lib.PartialRun

/-!
# Cached values along a forest

The value of a node is computed from the value of the node that it depends on,
if there is one, and kept until a flag says that it is stale. A change marks
what depends on it; a read clears the flags on its way up.
-/

namespace CachedValues

open ParentForest

section

variable {ι α : Type*} {dep : ι → Option ι} {compute : ι → Option α → α} {x p c : ι}

/-- The value of a node, without the cache. -/
inductive Value (dep : ι → Option ι) (compute : ι → Option α → α) : ι → α → Prop
  | top {i : ι} : dep i = none → Value dep compute i (compute i none)
  | step {i p : ι} {a : α} : dep i = some p → Value dep compute p a →
      Value dep compute i (compute i (some a))

theorem Value.unique {a b : α} (h : Value dep compute x a) (h' : Value dep compute x b) :
    a = b := by
  induction h generalizing b with
  | top hi =>
      cases h' with
      | top => rfl
      | step hi' => cases hi.symm.trans hi'
  | step hi _ ih =>
      cases h' with
      | top hi' => cases hi.symm.trans hi'
      | step hi' hp =>
          cases hi.symm.trans hi'
          rw [ih hp]

theorem rooted_of_le {parent : ι → Option ι} (h : ∀ i p, dep i = some p → parent i = some p)
    (hroot : Rooted parent x) : Rooted dep x := by
  obtain ⟨l, hl⟩ := hroot
  induction hl with
  | @top i hi =>
      cases hdep : dep i with
      | none => exact .top hdep
      | some p => cases hi.symm.trans (h i p hdep)
  | @step i p l hi _ ih =>
      cases hdep : dep i with
      | none => exact .top hdep
      | some q =>
          cases hi.symm.trans (h i q hdep)
          exact .step hdep ih

theorem not_under_dep (hroot : Rooted dep x) (hp : dep x = some p) : ¬ Under dep p x := by
  obtain ⟨l, hl⟩ := hroot
  exact fun hunder => hl.not_transGen (Relation.TransGen.head' hp hunder)

/-! ## Marking -/

/-- Whatever depends on a marked node is marked, perhaps not yet below those in `B`. -/
def Closed (dep : ι → Option ι) (B : ι → Prop) (stale : ι → Bool) : Prop :=
  ∀ p c, ¬ B p → dep c = some p → stale p = true → stale c = true

/-- What a visit of `x` does to the marks. -/
structure Spreads (dep : ι → Option ι) (x : ι) (stale stale' : ι → Bool) : Prop where
  grows : ∀ i, stale i = true → stale' i = true
  self : stale' x = true
  closed : ∀ B, Closed dep B stale → Closed dep B stale'

theorem Spreads.of_marked {stale : ι → Bool} (hx : stale x = true) : Spreads dep x stale stale :=
  ⟨fun _ => id, hx, fun _ => id⟩

/-- A loop of visits. -/
theorem spreads_foldlM {σ : Type*} (stale : σ → ι → Bool) {K : σ → Prop}
    {f : σ → ι → Option σ} {cs : List ι} {s s' : σ}
    (hstep : ∀ c ∈ cs, ∀ t t', K t → (∀ i, stale s i = true → stale t i = true) →
      f t c = some t' → K t' ∧ Spreads dep c (stale t) (stale t'))
    (hs : K s) (h : cs.foldlM f s = some s') :
    K s' ∧ (∀ i, stale s i = true → stale s' i = true) ∧ (∀ c ∈ cs, stale s' c = true) ∧
      ∀ B, Closed dep B (stale s) → Closed dep B (stale s') := by
  have hend := Steps.foldlM_invariant
    (I := fun rest t => K t ∧ (∀ c ∈ rest, c ∈ cs) ∧
      (∀ i, stale s i = true → stale t i = true) ∧
      (∀ c ∈ cs, c ∉ rest → stale t c = true) ∧
      ∀ B, Closed dep B (stale s) → Closed dep B (stale t))
    (fun c rest t t' ht hc => ?_)
    ⟨hs, fun _ => id, fun _ => id, fun c hc hnot => (hnot hc).elim, fun _ => id⟩ h
  · obtain ⟨hK, -, hgrows, hmarked, hclosed⟩ := hend
    exact ⟨hK, hgrows, fun c hc => hmarked c hc List.not_mem_nil, hclosed⟩
  · obtain ⟨hK, hmem, hgrows, hmarked, hclosed⟩ := ht
    obtain ⟨hK', hspreads⟩ := hstep c (hmem c List.mem_cons_self) t t' hK hgrows hc
    refine ⟨hK', fun d hd => hmem d (List.mem_cons_of_mem _ hd),
      fun i hi => hspreads.grows i (hgrows i hi), fun d hd hnot => ?_,
      fun B hB => hspreads.closed B (hclosed B hB)⟩
    by_cases hdc : d = c
    · rw [hdc]
      exact hspreads.self
    · exact hspreads.grows d
        (hmarked d hd fun hboth => (List.mem_cons.mp hboth).elim hdc hnot)

/-- After a node and all that depends on it are marked, the marks are closed there too. -/
theorem Closed.of_children {B : ι → Prop} {stale : ι → Bool}
    (h : Closed dep (fun i => B i ∨ i = x) stale)
    (hx : ∀ c, dep c = some x → stale c = true) : Closed dep B stale := by
  intro p c hB hdep hp
  by_cases hpx : p = x
  · exact hx c (hpx ▸ hdep)
  · exact h p c (not_or.mpr ⟨hB, hpx⟩) hdep hp

theorem Closed.mark [DecidableEq ι] {B : ι → Prop} {stale : ι → Bool} (h : Closed dep B stale) :
    Closed dep (fun i => B i ∨ i = x) (Function.update stale x true) := by
  intro p c hB hdep hp
  obtain ⟨hB, hpx⟩ := not_or.mp hB
  rw [Function.update_of_ne hpx] at hp
  by_cases hcx : c = x
  · rw [hcx, Function.update_self]
  · rw [Function.update_of_ne hcx]
    exact h p c hB hdep hp

theorem update_grows [DecidableEq ι] {stale : ι → Bool} (x i : ι) (hi : stale i = true) :
    Function.update stale x true i = true := by
  by_cases hix : i = x
  · rw [hix, Function.update_self]
  · rwa [Function.update_of_ne hix]

/-- A node is marked and then visited below. -/
theorem Spreads.of_loop [DecidableEq ι] {stale stale' : ι → Bool}
    (hgrows : ∀ i, Function.update stale x true i = true → stale' i = true)
    (hclosed : ∀ B, Closed dep B (Function.update stale x true) → Closed dep B stale')
    (hx : ∀ c, dep c = some x → stale' c = true) : Spreads dep x stale stale' where
  grows i hi := hgrows i (update_grows x i hi)
  self := hgrows x (Function.update_self ..)
  closed _ hB := (hclosed _ hB.mark).of_children hx

/-- What a new dependence of `c` needs. -/
theorem Closed.attach [DecidableEq ι] {B : ι → Prop} {stale : ι → Bool}
    (h : Closed (Function.update dep c none) B stale) (hc : stale c = true) :
    Closed dep B stale := by
  intro p d hB hdep hp
  by_cases hd : d = c
  · rwa [hd]
  · exact h p d hB (by rwa [Function.update_of_ne hd]) hp

/-- The dependences that do not have to do with `x`. -/
def avoiding [DecidableEq ι] (dep : ι → Option ι) (x i : ι) : Option ι :=
  if i = x then none else (dep i).filter (· ≠ x)

theorem avoiding_eq_some [DecidableEq ι] {i : ι} :
    avoiding dep x i = some p ↔ i ≠ x ∧ dep i = some p ∧ p ≠ x := by
  rw [avoiding]
  split
  · rename_i hi
    simp [hi]
  · rename_i hi
    simp [hi, Option.filter_eq_some_iff]

theorem Closed.avoiding [DecidableEq ι] {B : ι → Prop} {stale : ι → Bool} {dep' : ι → Option ι}
    (h : Closed dep B stale) (hdep : ∀ i, i ≠ x → ∀ p, p ≠ x → dep' i = some p → dep i = some p)
    (b : Bool) : Closed (avoiding dep' x) B (Function.update stale x b) := by
  intro p c hB hc hp
  obtain ⟨hcx, hdep', hpx⟩ := avoiding_eq_some.mp hc
  rw [Function.update_of_ne hpx] at hp
  rw [Function.update_of_ne hcx]
  exact h p c hB (hdep c hcx p hpx hdep') hp

theorem Closed.of_avoiding [DecidableEq ι] {B : ι → Prop} {stale : ι → Bool}
    (h : Closed (CachedValues.avoiding dep x) B stale) (hx : dep x = none ∨ stale x = true)
    (hchildren : ∀ c, dep c = some x → stale c = true) : Closed dep B stale := by
  intro p c hB hdep hp
  by_cases hcx : c = x
  · rcases hx with hx | hx
    · rw [hcx, hx] at hdep
      cases hdep
    · rwa [hcx]
  by_cases hpx : p = x
  · exact hchildren c (hpx ▸ hdep)
  · exact h p c hB (avoiding_eq_some.mpr ⟨hcx, hdep, hpx⟩) hp

/-! ## Caches -/

/-- A cached value that is not stale is right, and so is what it was computed from. -/
structure Right (dep : ι → Option ι) (compute : ι → Option α → α) (kept : ι → Prop)
    (stale : ι → Bool) (cache : ι → α) : Prop where
  closed : Closed dep (fun _ => False) stale
  settled : ∀ i, kept i → stale i = false → cache i = compute i ((dep i).map cache)

variable {kept : ι → Prop} {stale stale' : ι → Bool} {cache cache' : ι → α}

theorem Right.fresh (h : Right dep compute kept stale cache) (hc : stale c = false)
    (hp : dep c = some p) : stale p = false := by
  rw [← Bool.not_eq_true] at hc ⊢
  exact fun hstale => hc (h.closed p c not_false hp hstale)

/-- What is not stale has its value in the cache. -/
theorem Right.value (h : Right dep compute kept stale cache)
    (hkept : ∀ i p, dep i = some p → kept p) (hroot : Rooted dep x) (hx : kept x)
    (hclean : stale x = false) : Value dep compute x (cache x) := by
  obtain ⟨l, hl⟩ := hroot
  induction hl with
  | @top i hi =>
      rw [h.settled i hx hclean, hi]
      exact .top hi
  | @step i p l hi _ ih =>
      rw [h.settled i hx hclean, hi]
      exact .step hi (ih (hkept i p hi) (h.fresh hclean hi))

theorem Right.marked (h : Right dep compute kept stale cache)
    (hmarks : Spreads dep x stale stale') : Right dep compute kept stale' cache := by
  refine ⟨hmarks.closed _ h.closed, fun i hi hclean => h.settled i hi ?_⟩
  rw [← Bool.not_eq_true] at hclean ⊢
  exact fun hstale => hclean (hmarks.grows i hstale)

/-- The same for the nodes from `x` upwards. -/
def RightAbove (dep : ι → Option ι) (compute : ι → Option α → α) (stale : ι → Bool)
    (cache : ι → α) (x : ι) : Prop :=
  ∀ i, Under dep x i → stale i = false →
    Value dep compute i (cache i) ∧ ∀ p, dep i = some p → stale p = false

theorem Right.above (h : Right dep compute kept stale cache)
    (hkept : ∀ i p, dep i = some p → kept p) (hroot : ∀ i, Rooted dep i) (hx : kept x) :
    RightAbove dep compute stale cache x := by
  intro i hi hclean
  have hkepti : kept i := by
    rcases hi.eq_or_child with rfl | ⟨c, -, hc⟩
    · exact hx
    · exact hkept c i hc
  exact ⟨h.value hkept (hroot i) hkepti hclean, fun p hp => h.fresh hclean hp⟩

/-- What a read of `x` answers and leaves behind. -/
structure Reads (dep : ι → Option ι) (compute : ι → Option α → α) (x : ι)
    (stale : ι → Bool) (cache : ι → α) (stale' : ι → Bool) (cache' : ι → α) (a : α) : Prop where
  value : Value dep compute x a
  clean : stale' x = false
  cached : cache' x = a
  frame : ∀ i, stale' i = stale i ∧ cache' i = cache i ∨
    Under dep x i ∧ stale i = true ∧ stale' i = false ∧ Value dep compute i (cache' i) ∧
      ∀ p, dep i = some p → stale' p = false

theorem Reads.of_clean (h : RightAbove dep compute stale cache x) (hx : stale x = false) :
    Reads dep compute x stale cache stale cache (cache x) :=
  ⟨(h x (.refl x) hx).1, hx, rfl, fun _ => .inl ⟨rfl, rfl⟩⟩

/-- What is clean before a read is clean after it, with the same value. -/
theorem Reads.keeps {a : α} (h : Reads dep compute x stale cache stale' cache' a) {i : ι}
    (hi : stale i = false) : stale' i = false ∧ cache' i = cache i := by
  rcases h.frame i with ⟨hs, hc⟩ | ⟨-, hstale, -⟩
  · exact ⟨hs.trans hi, hc⟩
  · rw [hi] at hstale
    cases hstale

theorem Reads.of_alone [DecidableEq ι] (hx : stale x = true) (hdep : dep x = none) :
    Reads dep compute x stale cache (Function.update stale x false)
      (Function.update cache x (compute x none)) (compute x none) where
  value := .top hdep
  clean := Function.update_self ..
  cached := Function.update_self ..
  frame i := by
    by_cases hi : i = x
    · right
      rw [hi, Function.update_self, Function.update_self]
      refine ⟨.refl x, hx, rfl, .top hdep, fun p hp => ?_⟩
      cases hdep.symm.trans hp
    · left
      rw [Function.update_of_ne hi, Function.update_of_ne hi]
      exact ⟨rfl, rfl⟩

/-- The flag of `x` is cleared before or after the read of what `x` depends on. -/
theorem Reads.below [DecidableEq ι] {stale₁ : ι → Bool} {a : α} (hx : stale x = true)
    (hdep : dep x = some p) (hstale₁ : ∀ i, i ≠ x → stale₁ i = stale i)
    (hread : Reads dep compute p stale₁ cache stale' cache' a) :
    Reads dep compute x stale cache (Function.update stale' x false)
      (Function.update cache' x (compute x (some a))) (compute x (some a)) where
  value := .step hdep hread.value
  clean := Function.update_self ..
  cached := Function.update_self ..
  frame i := by
    have hclean : ∀ q, stale' q = false → Function.update stale' x false q = false := by
      intro q hq
      by_cases hqx : q = x
      · rw [hqx, Function.update_self]
      · rwa [Function.update_of_ne hqx]
    by_cases hi : i = x
    · right
      rw [hi, Function.update_self, Function.update_self]
      refine ⟨.refl x, hx, rfl, .step hdep hread.value, fun q hq => hclean q ?_⟩
      cases hdep.symm.trans hq
      exact hread.clean
    · rw [Function.update_of_ne hi, Function.update_of_ne hi]
      rcases hread.frame i with ⟨hs, hc⟩ | ⟨hunder, hs, hs', hvalue, hparents⟩
      · exact .inl ⟨hs.trans (hstale₁ i hi), hc⟩
      · refine .inr ⟨Relation.ReflTransGen.head hdep hunder, ?_, hs', hvalue, fun q hq => ?_⟩
        · rw [← hstale₁ i hi, hs]
        · exact hclean q (hparents q hq)

/-- What `x` depends on is read as if the flag of `x` had not been cleared. -/
theorem RightAbove.parent {stale₁ : ι → Bool} (h : RightAbove dep compute stale cache x)
    (hroot : Rooted dep x) (hdep : dep x = some p) (hstale₁ : ∀ i, i ≠ x → stale₁ i = stale i) :
    RightAbove dep compute stale₁ cache p := by
  intro i hi hclean
  have hne : ∀ j, Under dep p j → j ≠ x := by
    rintro j hj rfl
    exact not_under_dep hroot hdep hj
  rw [hstale₁ i (hne i hi)] at hclean
  obtain ⟨hvalue, hparents⟩ := h i (Relation.ReflTransGen.head hdep hi) hclean
  refine ⟨hvalue, fun q hq => ?_⟩
  rw [hstale₁ q (hne q (hi.of_child hq))]
  exact hparents q hq

/-- A read leaves the caches right. -/
theorem Right.read {a : α} (h : Right dep compute kept stale cache)
    (hkept : ∀ i p, dep i = some p → kept p) (hroot : ∀ i, Rooted dep i)
    (hread : Reads dep compute x stale cache stale' cache' a) :
    Right dep compute kept stale' cache' := by
  have hvalue : ∀ i, kept i → stale' i = false → Value dep compute i (cache' i) := by
    intro i hi hclean
    rcases hread.frame i with ⟨hs, hc⟩ | ⟨-, -, -, hv, -⟩
    · rw [hc]
      exact h.value hkept (hroot i) hi (hs.symm.trans hclean)
    · exact hv
  have hparents : ∀ i p, stale' i = false → dep i = some p → stale' p = false := by
    intro i p hclean hp
    rcases hread.frame i with ⟨hs, -⟩ | ⟨-, -, -, -, hparents⟩
    · exact (hread.keeps (h.fresh (hs.symm.trans hclean) hp)).1
    · exact hparents p hp
  refine ⟨fun p c _ hdep hp => ?_, fun i hi hclean => ?_⟩
  · by_contra hc
    rw [Bool.not_eq_true] at hc
    rw [hparents c p hc hdep] at hp
    cases hp
  · cases hdep : dep i with
    | none => exact (hvalue i hi hclean).unique (.top hdep)
    | some p =>
        have hp := hvalue p (hkept i p hdep) (hparents i p hclean hdep)
        exact (hvalue i hi hclean).unique (.step hdep hp)

end

/-! ## Quantities

Nodes may have a kind; that of a node and that of its parent decide whether it depends on it. -/

structure Quantity (τ α : Type*) where
  /-- The kinds for which a value is cached. -/
  kept : τ → Bool
  /-- By the kinds of a node and of its parent. -/
  uses : τ → τ → Bool
  value : Option τ → Option τ → Option α → α
  kept_of_uses : ∀ t u, uses t u = true → kept t = true ∧ kept u = true

namespace Quantity

section

variable {ι τ α : Type*} (q : Quantity τ α) (parent : ι → Option ι) (kind : ι → Option τ)

def dep (i : ι) : Option ι :=
  (kind i).bind fun t => (parent i).filter fun p => (kind p).any (q.uses t)

def compute (i : ι) (a : Option α) : α := q.value (kind i) ((parent i).bind kind) a

def Kept (i : ι) : Prop := (kind i).any q.kept = true

/-- The caches are right. -/
def Right (stale : ι → Bool) (cache : ι → α) : Prop :=
  CachedValues.Right (q.dep parent kind) (q.compute parent kind) (q.Kept kind) stale cache

end

section

variable {ι τ α : Type*} {q : Quantity τ α} {parent : ι → Option ι} {kind : ι → Option τ}
  {stale stale' : ι → Bool} {cache cache' : ι → α} {i p c x : ι}

theorem dep_eq_some : q.dep parent kind i = some p ↔
    parent i = some p ∧ ∃ t u, kind i = some t ∧ kind p = some u ∧ q.uses t u = true := by
  simp only [dep, Option.bind_eq_some_iff, Option.filter_eq_some_iff, Option.any_eq_true]
  constructor
  · rintro ⟨t, ht, hp, u, hu, huses⟩
    exact ⟨hp, t, u, ht, hu, huses⟩
  · rintro ⟨hp, t, u, ht, hu, huses⟩
    exact ⟨t, ht, hp, u, hu, huses⟩

theorem kept_of_dep (h : q.dep parent kind i = some p) : q.Kept kind i ∧ q.Kept kind p := by
  obtain ⟨-, t, u, ht, hu, huses⟩ := dep_eq_some.mp h
  rw [Kept, Kept, ht, hu]
  exact q.kept_of_uses t u huses

theorem parent_of_dep (h : q.dep parent kind i = some p) : parent i = some p :=
  (dep_eq_some.mp h).1

theorem dep_congr {parent' : ι → Option ι} {kind' : ι → Option τ} (hi : kind' i = kind i)
    (hparent : parent' i = parent i) (hp : ∀ p, parent i = some p → kind' p = kind p) :
    q.dep parent' kind' i = q.dep parent kind i := by
  rw [dep, dep, hi, hparent]
  cases h : parent i with
  | none => rfl
  | some p => simp only [Option.filter_some, hp p h]

theorem compute_congr {parent' : ι → Option ι} {kind' : ι → Option τ} (hi : kind' i = kind i)
    (hparent : parent' i = parent i) (hp : ∀ p, parent i = some p → kind' p = kind p) :
    q.compute parent' kind' i = q.compute parent kind i := by
  funext a
  rw [compute, compute, hi, hparent]
  cases h : parent i with
  | none => rfl
  | some p => rw [Option.bind_some, Option.bind_some, hp p h]

variable [DecidableEq ι]

/-- A node gets another parent and is marked before its parent can be. -/
theorem Right.linked {np : Option ι} (h : q.Right parent kind stale cache)
    (hmarks : ¬ q.Kept kind c ∧ stale' = stale ∨
      Spreads (Function.update (q.dep (Function.update parent c np) kind) c none) c
        stale stale') : q.Right (Function.update parent c np) kind stale' cache := by
  have hparent : ∀ i, i ≠ c → Function.update parent c np i = parent i := fun i hi =>
    Function.update_of_ne hi ..
  have hdep : ∀ i, i ≠ c → q.dep (Function.update parent c np) kind i = q.dep parent kind i :=
    fun i hi => dep_congr rfl (hparent i hi) fun _ _ => rfl
  have hgrows : ∀ i, stale i = true → stale' i = true := by
    rcases hmarks with ⟨-, rfl⟩ | hspreads
    · exact fun _ => id
    · exact hspreads.grows
  refine ⟨?_, fun i hi hclean => ?_⟩
  · rcases hmarks with ⟨hc, rfl⟩ | hspreads
    · intro p d hB hd hp
      have hne : d ≠ c := by
        rintro rfl
        exact hc (kept_of_dep hd).1
      exact h.closed p d hB (hdep d hne ▸ hd) hp
    · refine (hspreads.closed _ fun p d hB hd hp => ?_).attach hspreads.self
      by_cases hdc : d = c
      · rw [hdc, Function.update_self] at hd
        cases hd
      · rw [Function.update_of_ne hdc, hdep d hdc] at hd
        exact h.closed p d hB hd hp
  · have hne : i ≠ c := by
      rintro rfl
      rcases hmarks with ⟨hc, -⟩ | hspreads
      · exact hc hi
      · rw [hspreads.self] at hclean
        cases hclean
    have hold : stale i = false := by
      rw [← Bool.not_eq_true] at hclean ⊢
      exact fun hstale => hclean (hgrows i hstale)
    rw [hdep i hne, compute_congr rfl (hparent i hne) fun _ _ => rfl]
    exact h.settled i hi hold

/-- A node gets another kind, and what depends on the node then is marked. -/
theorem Right.rekinded {new : Option τ} {b : Bool} (h : q.Right parent kind stale cache)
    (hcache : ∀ i, i ≠ x → cache' i = cache i)
    (hgrows : ∀ i, i ≠ x → stale i = true → stale' i = true)
    (hspreads : ∀ B, Closed (avoiding (q.dep parent (Function.update kind x new)) x) B
        (Function.update stale x b) →
      Closed (avoiding (q.dep parent (Function.update kind x new)) x) B stale')
    (hx : new.any q.kept = true → stale' x = true)
    (hmarked : ∀ c, q.dep parent (Function.update kind x new) c = some x →
      stale' c = true)
    (hrest : ∀ c, c ≠ x → parent c = some x → q.Kept kind c → stale' c = false →
      cache c = q.value (kind c) new none) :
    q.Right parent (Function.update kind x new) stale' cache' := by
  have hkind : ∀ i, i ≠ x → Function.update kind x new i = kind i := fun i hi =>
    Function.update_of_ne hi ..
  have hkeptx : q.Kept (Function.update kind x new) x → stale' x = true := by
    rw [Kept, Function.update_self]
    exact hx
  refine ⟨(hspreads _ (Closed.avoiding h.closed (fun i hi p hp hdep => ?_) b)).of_avoiding ?_
    hmarked, fun i hi hclean => ?_⟩
  · obtain ⟨hparent, t, u, ht, hu, huses⟩ := dep_eq_some.mp hdep
    rw [hkind i hi] at ht
    rw [hkind p hp] at hu
    exact dep_eq_some.mpr ⟨hparent, t, u, ht, hu, huses⟩
  · cases hdep : q.dep parent (Function.update kind x new) x with
    | none => exact .inl rfl
    | some p => exact .inr (hkeptx (kept_of_dep hdep).1)
  · have hne : i ≠ x := by
      rintro rfl
      rw [hkeptx hi] at hclean
      cases hclean
    rw [Kept, hkind i hne] at hi
    have hold : stale i = false := by
      rw [← Bool.not_eq_true] at hclean ⊢
      exact fun hstale => hclean (hgrows i hne hstale)
    rw [hcache i hne]
    by_cases hparent : parent i = some x
    · have hdep : q.dep parent (Function.update kind x new) i = none := by
        cases hdep : q.dep parent (Function.update kind x new) i with
        | none => rfl
        | some p =>
            cases hparent.symm.trans (parent_of_dep hdep)
            rw [hmarked i hdep] at hclean
            cases hclean
      rw [hdep, compute, hkind i hne, hparent, Option.bind_some, Function.update_self]
      exact hrest i hne hparent hi hclean
    · have hp : ∀ p, parent i = some p → p ≠ x := by
        rintro p hp rfl
        exact hparent hp
      rw [dep_congr (hkind i hne) rfl fun p hp' => hkind p (hp p hp'),
        compute_congr (hkind i hne) rfl fun p hp' => hkind p (hp p hp')]
      have hmap : (q.dep parent kind i).map cache' = (q.dep parent kind i).map cache := by
        cases hdep : q.dep parent kind i with
        | none => rfl
        | some p =>
            rw [Option.map_some, Option.map_some, hcache p (hp p (parent_of_dep hdep))]
      rw [hmap]
      exact h.settled i hi hold

end

end Quantity

end CachedValues
