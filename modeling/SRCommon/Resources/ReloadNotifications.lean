import Mathlib.Data.List.Chain
import Mathlib.Logic.Relation
import SRCommon.Resources.ResourceContainer

/-!
# Reload notifications

A container that is reloaded tells its parents, with positive depths, and its
dependencies, with negative ones. The sign of the depth keeps the walk in one
direction, and two are added for every container on the way.
-/

namespace SRCommon

/-- An invocation of `OnResourceUpdated`. -/
structure ResourceUpdate (ι : Type) where
  this : ι
  pContainer : ι
  depth : ℤ
  deriving DecidableEq

/-- A sum of type `int32_t`, the overflow of which is undefined. -/
def int32Sum (a b : ℤ) : Option ℤ :=
  if -2147483648 ≤ a + b ∧ a + b < 2147483648 then some (a + b) else none

/-- A loop that gathers what its passes have invoked. -/
def notifyAll {ι ω : Type} (notify : ι → Option (List ω)) : List ι → Option (List ω)
  | [] => some []
  | i :: is => do
      let first ← notify i
      let rest ← notifyAll notify is
      some (first ++ rest)

namespace Containers

variable {ι : Type} (s : Containers ι)

mutual

/-- All invocations that a call leads to, `none` if they do not end within the fuel. -/
def updateResources : ℕ → ι → ℤ → Option (List (ResourceUpdate ι))
  | 0, _, _ => none
  | fuel + 1, this, depth => do
      let up ← (if depth = 0 ∨ depth > 0 then
        notifyAll (fun pResource => do
          let depth ← int32Sum depth 1
          onResourceUpdated fuel pResource this depth) (s.parents this)
        else some [])
      let down ← (if depth = 0 ∨ depth < 0 then
        notifyAll (fun pResource => do
          let depth ← int32Sum depth (-1)
          onResourceUpdated fuel pResource this depth) (s.dependencies this)
        else some [])
      some (up ++ down)

def onResourceUpdated : ℕ → ι → ι → ℤ → Option (List (ResourceUpdate ι))
  | 0, _, _, _ => none
  | fuel + 1, this, pContainer, depth => do
      let next ← (if depth > 0 then int32Sum depth 1 else int32Sum depth (-1))
      let rest ← updateResources fuel this next
      some (⟨this, pContainer, depth⟩ :: rest)

end

def DependsOn (a b : ι) : Prop := b ∈ s.dependencies a

/-- The containers that are told, by the sign of the depth. -/
structure NotifiesRelatives (x : ι) (log : List (ResourceUpdate ι)) : Prop where
  ancestors : ∀ y, (∃ e ∈ log, e.this = y ∧ 0 < e.depth) ↔ Relation.TransGen s.DependsOn y x
  descendants : ∀ y, (∃ e ∈ log, e.this = y ∧ e.depth < 0) ↔ Relation.TransGen s.DependsOn x y
  nonzero : ∀ e ∈ log, e.depth ≠ 0

end Containers

/-! ## Walks in one direction -/

section

variable {ι : Type}

/-- The invocations of a walk along `next` that goes on for fewer than `n` containers. -/
def trail (next : ι → List ι) (sign : ℤ) : ℕ → ι → ℤ → List (ResourceUpdate ι)
  | 0, _, _ => []
  | n + 1, x, depth => (next x).flatMap fun p =>
      ⟨p, x, depth + sign⟩ :: trail next sign n p (depth + 2 * sign)

/-- All chains from a container are shorter than `n`. -/
def ShortFrom (next : ι → List ι) (x : ι) (n : ℕ) : Prop :=
  ∀ l : List ι, (x :: l).IsChain (fun a b => b ∈ next a) → l.length < n

variable {next : ι → List ι} {sign : ℤ} {x y p : ι} {n : ℕ} {depth : ℤ}

theorem ShortFrom.pos (h : ShortFrom next x n) : 0 < n := h [] (List.isChain_singleton x)

theorem ShortFrom.tail (h : ShortFrom next x (n + 1)) (hp : p ∈ next x) : ShortFrom next p n :=
  fun l hl => Nat.lt_of_succ_lt_succ (h (p :: l) (List.isChain_cons_cons.mpr ⟨hp, hl⟩))

theorem ShortFrom.mono {m : ℕ} (h : ShortFrom next x n) (hle : n ≤ m) : ShortFrom next x m :=
  fun l hl => (h l hl).trans_le hle

/-- A rank that falls along the way bounds it. -/
theorem shortFrom_of_rank {rank : ι → ℕ} (h : ∀ a, ∀ b ∈ next a, rank b < rank a) (x : ι) :
    ShortFrom next x (rank x + 1) := by
  intro l
  induction l generalizing x with
  | nil => exact fun _ => Nat.succ_pos _
  | cons p l ih =>
      intro hl
      obtain ⟨hp, hl⟩ := List.isChain_cons_cons.mp hl
      have hlength := ih p hl
      have hrank := h x p hp
      rw [List.length_cons]
      omega

theorem depth_of_mem_trail {e : ResourceUpdate ι} (he : e ∈ trail next sign n x depth) :
    ∃ k : ℕ, e.depth = depth + (2 * k + 1) * sign := by
  induction n generalizing x depth with
  | zero => cases he
  | succ n ih =>
      obtain ⟨p, -, he⟩ := List.mem_flatMap.mp he
      rcases List.mem_cons.mp he with rfl | he
      · exact ⟨0, by push_cast; ring⟩
      · obtain ⟨k, hk⟩ := ih he
        exact ⟨k + 1, by rw [hk]; push_cast; ring⟩

theorem exists_mem_trail_iff (h : ShortFrom next x n) (sign depth : ℤ) :
    (∃ e ∈ trail next sign n x depth, e.this = y) ↔
      Relation.TransGen (fun a b => b ∈ next a) x y := by
  induction n generalizing x depth with
  | zero => exact absurd h.pos (Nat.lt_irrefl 0)
  | succ n ih =>
      rw [Relation.TransGen.head'_iff]
      constructor
      · rintro ⟨e, he, rfl⟩
        obtain ⟨p, hp, he⟩ := List.mem_flatMap.mp he
        refine ⟨p, hp, ?_⟩
        rcases List.mem_cons.mp he with rfl | he
        · exact Relation.ReflTransGen.refl
        · exact ((ih (h.tail hp) _).mp ⟨e, he, rfl⟩).to_reflTransGen
      · rintro ⟨p, hp, hpath⟩
        rcases Relation.reflTransGen_iff_eq_or_transGen.mp hpath with rfl | hpath
        · exact ⟨⟨y, x, depth + sign⟩, List.mem_flatMap.mpr ⟨y, hp, List.mem_cons_self⟩, rfl⟩
        · obtain ⟨e, he, rfl⟩ := (ih (h.tail hp) (depth + 2 * sign)).mpr hpath
          exact ⟨e, List.mem_flatMap.mpr ⟨p, hp, List.mem_cons_of_mem _ he⟩, rfl⟩

end

/-! ## The calls -/

theorem notifyAll_eq_flatMap {ι ω : Type} {notify : ι → Option (List ω)} {f : ι → List ω}
    {is : List ι} (h : ∀ i ∈ is, notify i = some (f i)) :
    notifyAll notify is = some (is.flatMap f) := by
  induction is with
  | nil => rfl
  | cons i is ih =>
      obtain ⟨hi, his⟩ := List.forall_mem_cons.mp h
      rw [notifyAll, hi, ih his]
      rfl

theorem notifyAll_cons_eq_none {ι ω : Type} {notify : ι → Option (List ω)} {i : ι} {is : List ι}
    (h : notify i = none) : notifyAll notify (i :: is) = none := by
  rw [notifyAll, h]
  rfl

theorem int32Sum_eq_some {a b : ℤ} (h : -2147483648 ≤ a + b ∧ a + b < 2147483648) :
    int32Sum a b = some (a + b) := if_pos h

namespace Containers

variable {ι : Type} (s : Containers ι) {x y : ι} {n fuel : ℕ} {depth : ℤ}

theorem notifyAll_parents (hdepth : 0 ≤ depth) (h : ∀ p ∈ s.parents x, depth + 2 < 2147483648 ∧
      s.updateResources fuel p (depth + 2 * 1) =
        some (trail s.parents 1 n p (depth + 2 * 1))) :
    notifyAll (fun pResource => do
        let depth ← int32Sum depth 1
        s.onResourceUpdated (fuel + 1) pResource x depth) (s.parents x) =
      some (trail s.parents 1 (n + 1) x depth) := by
  apply notifyAll_eq_flatMap
  intro p hp
  obtain ⟨hfits, hrest⟩ := h p hp
  have htwice : depth + 1 + 1 = depth + 2 * 1 := by ring
  rw [int32Sum_eq_some (by omega), Option.bind_eq_bind, Option.bind_some, onResourceUpdated,
    if_pos (by omega), int32Sum_eq_some (by omega), Option.bind_eq_bind, Option.bind_some,
    htwice, hrest]
  rfl

theorem notifyAll_dependencies (hdepth : depth ≤ 0)
    (h : ∀ p ∈ s.dependencies x, -2147483648 ≤ depth - 2 ∧
      s.updateResources fuel p (depth + 2 * -1) =
        some (trail s.dependencies (-1) n p (depth + 2 * -1))) :
    notifyAll (fun pResource => do
        let depth ← int32Sum depth (-1)
        s.onResourceUpdated (fuel + 1) pResource x depth) (s.dependencies x) =
      some (trail s.dependencies (-1) (n + 1) x depth) := by
  apply notifyAll_eq_flatMap
  intro p hp
  obtain ⟨hfits, hrest⟩ := h p hp
  have htwice : depth + -1 + -1 = depth + 2 * -1 := by ring
  rw [int32Sum_eq_some (by omega), Option.bind_eq_bind, Option.bind_some, onResourceUpdated,
    if_neg (by omega), int32Sum_eq_some (by omega), Option.bind_eq_bind, Option.bind_some,
    htwice, hrest]
  rfl

/-- The way up from a container that is told with a positive depth. -/
theorem updateResources_of_pos (hdepth : 0 < depth) (hshort : ShortFrom s.parents x n)
    (hfits : depth + 2 * n ≤ 2147483648) (hfuel : 2 * n ≤ fuel) :
    s.updateResources fuel x depth = some (trail s.parents 1 n x depth) := by
  induction n generalizing x depth fuel with
  | zero => exact absurd hshort.pos (Nat.lt_irrefl 0)
  | succ n ih =>
      obtain ⟨fuel, rfl⟩ : ∃ f, fuel = f + 2 := ⟨fuel - 2, by omega⟩
      rw [updateResources, if_pos (Or.inr hdepth), if_neg (by omega),
        s.notifyAll_parents hdepth.le fun p hp => ?_]
      · change some (_ ++ []) = _
        rw [List.append_nil]
      · have hn := (hshort.tail hp).pos
        exact ⟨by omega, ih (by omega) (hshort.tail hp) (by omega) (by omega)⟩

/-- The way down, where the last depth may be the least one. -/
theorem updateResources_of_neg (hdepth : depth < 0) (hshort : ShortFrom s.dependencies x n)
    (hfits : -2147483650 ≤ depth - 2 * n) (hfuel : 2 * n ≤ fuel) :
    s.updateResources fuel x depth = some (trail s.dependencies (-1) n x depth) := by
  induction n generalizing x depth fuel with
  | zero => exact absurd hshort.pos (Nat.lt_irrefl 0)
  | succ n ih =>
      obtain ⟨fuel, rfl⟩ : ∃ f, fuel = f + 2 := ⟨fuel - 2, by omega⟩
      rw [updateResources, if_neg (by omega), if_pos (Or.inr hdepth),
        s.notifyAll_dependencies hdepth.le fun p hp => ?_]
      · rfl
      · have hn := (hshort.tail hp).pos
        exact ⟨by omega, ih (by omega) (hshort.tail hp) (by omega) (by omega)⟩

/-- A reload walks up and down from the container. -/
theorem updateResources_zero {m : ℕ} (hup : ShortFrom s.parents x (n + 1))
    (hdown : ShortFrom s.dependencies x (m + 1)) (hn : n + 1 ≤ 1073741824)
    (hm : m + 1 ≤ 1073741825) (hfuel : 2 * n + 2 * m + 2 ≤ fuel) :
    s.updateResources fuel x 0 =
      some (trail s.parents 1 (n + 1) x 0 ++ trail s.dependencies (-1) (m + 1) x 0) := by
  obtain ⟨fuel, rfl⟩ : ∃ f, fuel = f + 2 := ⟨fuel - 2, by omega⟩
  rw [updateResources, if_pos (Or.inl rfl), if_pos (Or.inl rfl),
    s.notifyAll_parents le_rfl fun p hp =>
      ⟨by omega, s.updateResources_of_pos (by omega) (hup.tail hp) (by omega) (by omega)⟩,
    s.notifyAll_dependencies le_rfl fun p hp =>
      ⟨by omega, s.updateResources_of_neg (by omega) (hdown.tail hp) (by omega) (by omega)⟩]
  rfl

variable {s}

theorem transGen_parents_iff (hsymmetric : ∀ a b, b ∈ s.dependencies a ↔ a ∈ s.parents b) :
    Relation.TransGen (fun a b => b ∈ s.parents a) x y ↔ Relation.TransGen s.DependsOn y x := by
  have hswap : (fun a b => b ∈ s.parents a) = Function.swap s.DependsOn := by
    funext a b
    exact propext (hsymmetric b a).symm
  rw [hswap, Relation.transGen_swap]

theorem notifiesRelatives_trail {m : ℕ}
    (hsymmetric : ∀ a b, b ∈ s.dependencies a ↔ a ∈ s.parents b)
    (hup : ShortFrom s.parents x n) (hdown : ShortFrom s.dependencies x m) :
    s.NotifiesRelatives x (trail s.parents 1 n x 0 ++ trail s.dependencies (-1) m x 0) := by
  have hpos : ∀ e ∈ trail s.parents 1 n x 0, 0 < e.depth := by
    intro e he
    obtain ⟨k, hk⟩ := depth_of_mem_trail he
    omega
  have hneg : ∀ e ∈ trail s.dependencies (-1) m x 0, e.depth < 0 := by
    intro e he
    obtain ⟨k, hk⟩ := depth_of_mem_trail he
    omega
  constructor
  · intro y
    rw [← transGen_parents_iff hsymmetric, ← exists_mem_trail_iff hup 1 0]
    constructor
    · rintro ⟨e, he, rfl, hdepth⟩
      rcases List.mem_append.mp he with he | he
      · exact ⟨e, he, rfl⟩
      · exact absurd (hneg e he) hdepth.not_gt
    · rintro ⟨e, he, rfl⟩
      exact ⟨e, List.mem_append_left _ he, rfl, hpos e he⟩
  · intro y
    have hmem := exists_mem_trail_iff (y := y) hdown (-1) 0
    refine Iff.trans ?_ hmem
    constructor
    · rintro ⟨e, he, rfl, hdepth⟩
      rcases List.mem_append.mp he with he | he
      · exact absurd (hpos e he) hdepth.not_gt
      · exact ⟨e, he, rfl⟩
    · rintro ⟨e, he, rfl⟩
      exact ⟨e, List.mem_append_right _ he, rfl, hneg e he⟩
  · intro e he
    rcases List.mem_append.mp he with he | he
    · exact (hpos e he).ne'
    · exact (hneg e he).ne

/-- A reload ends and reaches the relatives, while no chain of dependencies has `2 ^ 30` of them on
the way up, or more on the way down. -/
theorem exists_updateResources (hsymmetric : ∀ a b, b ∈ s.dependencies a ↔ a ∈ s.parents b)
    (hup : ShortFrom s.parents x 1073741824) (hdown : ShortFrom s.dependencies x 1073741825) :
    ∃ log, (∃ n, ∀ fuel ≥ n, s.updateResources fuel x 0 = some log) ∧
      s.NotifiesRelatives x log := by
  refine ⟨_, ⟨4294967296, fun fuel hfuel => ?_⟩, notifiesRelatives_trail hsymmetric hup hdown⟩
  exact s.updateResources_zero hup hdown (by omega) (by omega) (by omega)

/-- Two containers that share a dependency and a parent. -/
def diamond : Containers (Bool × Bool) where
  manager := {}
  live _ := true
  dependencies := fun
    | (false, false) => [(false, true), (true, false)]
    | (true, true) => []
    | _ => [(true, true)]
  parents := fun
    | (true, true) => [(false, true), (true, false)]
    | (false, false) => []
    | _ => [(false, false)]

theorem exists_updateResources_diamond :
    ∃ log, (∃ n, ∀ fuel ≥ n, diamond.updateResources fuel (false, true) 0 = some log) ∧
      diamond.NotifiesRelatives (false, true) log := by
  have hup : ∀ a, ∀ b ∈ diamond.parents a, b.1.toNat + b.2.toNat < a.1.toNat + a.2.toNat := by
    decide
  have hdown : ∀ a, ∀ b ∈ diamond.dependencies a,
      (!b.1).toNat + (!b.2).toNat < (!a.1).toNat + (!a.2).toNat := by
    decide
  exact exists_updateResources (by decide) ((shortFrom_of_rank hup _).mono (by decide))
    ((shortFrom_of_rank hdown _).mono (by decide))

/-! ## A chain that is too long -/

/-- Each container up to number `2 ^ 30` is the parent of the one before it. -/
def ladder : Containers ℕ where
  manager := {}
  live n := decide (n ≤ 1073741824)
  dependencies n := if 0 < n ∧ n ≤ 1073741824 then [n - 1] else []
  parents n := if n < 1073741824 then [n + 1] else []

theorem ladder_symmetric (a b : ℕ) : b ∈ ladder.dependencies a ↔ a ∈ ladder.parents b := by
  change b ∈ (if 0 < a ∧ a ≤ 1073741824 then [a - 1] else []) ↔
    a ∈ (if b < 1073741824 then [b + 1] else [])
  split_ifs with ha hb hb
  · rw [List.mem_singleton, List.mem_singleton]
    omega
  · rw [List.mem_singleton]
    exact iff_of_false (by omega) List.not_mem_nil
  · rw [List.mem_singleton]
    exact iff_of_false List.not_mem_nil (by omega)
  · exact iff_of_false List.not_mem_nil List.not_mem_nil

theorem ladder_dependsOn {a b : ℕ} (h : ladder.DependsOn a b) : b < a := by
  change b ∈ (if 0 < a ∧ a ≤ 1073741824 then [a - 1] else []) at h
  split_ifs at h with ha
  · rw [List.mem_singleton] at h
    omega
  · cases h

theorem ladder_acyclic (a : ℕ) : ¬ Relation.TransGen ladder.DependsOn a a := by
  intro hcycle
  have hlt : ∀ b, Relation.TransGen ladder.DependsOn a b → b < a := by
    intro b hb
    induction hb with
    | single h => exact ladder_dependsOn h
    | tail _ h ih => exact (ladder_dependsOn h).trans ih
  exact Nat.lt_irrefl a (hlt a hcycle)

/-- The depth of the container below the last one is the greatest even one. -/
theorem ladder_overflows (fuel : ℕ) {k : ℕ} (hk : k < 1073741824) :
    ladder.updateResources fuel k (2 * k) = none := by
  induction fuel using Nat.strong_induction_on generalizing k with
  | _ fuel ih =>
    cases fuel with
    | zero => rfl
    | succ fuel =>
        have hparents : ladder.parents k = [k + 1] := if_pos hk
        have hnone : ladder.onResourceUpdated fuel (k + 1) k (2 * k + 1) = none := by
          cases fuel with
          | zero => rfl
          | succ fuel =>
              rw [onResourceUpdated, if_pos (by omega)]
              by_cases hlast : k + 1 < 1073741824
              · have hnext : (2 * k + 1 + 1 : ℤ) = 2 * ((k + 1 : ℕ) : ℤ) := by
                  push_cast
                  ring
                rw [int32Sum_eq_some (by omega), hnext, Option.bind_eq_bind, Option.bind_some,
                  ih fuel (by omega) hlast]
                rfl
              · rw [int32Sum, if_neg (by omega)]
                rfl
        rw [updateResources, if_pos (by omega), hparents, notifyAll_cons_eq_none]
        · rfl
        · rw [int32Sum_eq_some (by omega), Option.bind_eq_bind, Option.bind_some, hnone]

theorem not_exists_updateResources :
    ¬ ∀ (s : Containers ℕ) (x : ℕ), (∀ a b, b ∈ s.dependencies a ↔ a ∈ s.parents b) →
      (∀ a, ¬ Relation.TransGen s.DependsOn a a) →
      ∃ log, (∃ n, ∀ fuel ≥ n, s.updateResources fuel x 0 = some log) ∧
        s.NotifiesRelatives x log := by
  intro h
  obtain ⟨log, ⟨n, hlog⟩, -⟩ := h ladder 0 ladder_symmetric ladder_acyclic
  have hnone := ladder_overflows n (k := 0) (by decide)
  have hsome := hlog n le_rfl
  rw [Nat.cast_zero, mul_zero, hsome] at hnone
  cases hnone

end Containers

end SRCommon
