import Mathlib.Data.List.Nodup
import Mathlib.Data.Set.Card
import Mathlib.Logic.Function.Basic
import Mathlib.Logic.Relation
import Mathlib.Tactic.Common

/-!
# Searches with a queue

The graph behind a node is searched: the nodes that the front of a queue leads
to are put at its end, unless they have been passed before. Every node that can
be reached is visited once, on cycles too.
-/

namespace QueueSearch

variable {ν σ β : Type*}

/-- The nodes that can be reached. -/
def Reaches (next : ν → List ν) : ν → ν → Prop := Relation.ReflTransGen fun n m => m ∈ next n

variable {next : ν → List ν} {visited passed queue l : List ν} {r : List ν × List ν}
  {n m start : ν}

/-- The passed nodes are those that are visited or in the queue. -/
structure Sorted (visited : List ν) (r : List ν × List ν) : Prop where
  nodup : (visited ++ r.2).Nodup
  mem_passed : ∀ m, m ∈ r.1 ↔ m ∈ visited ++ r.2

/-- What has been found out in the middle of a search. -/
structure Searched (next : ν → List ν) (start : ν) (visited : List ν) (r : List ν × List ν) :
    Prop where
  sorted : Sorted visited r
  reached : ∀ m ∈ r.1, Reaches next start m
  closed : ∀ n ∈ visited, ∀ m ∈ next n, m ∈ r.1
  start_mem : start ∈ r.1

theorem searched_start (next : ν → List ν) (start : ν) :
    Searched next start [] ([start], [start]) where
  sorted := ⟨List.nodup_singleton start, fun _ => Iff.rfl⟩
  reached m hm := by
    rw [List.mem_singleton.mp hm]
    exact .refl
  closed n hn := (List.not_mem_nil hn).elim
  start_mem := List.mem_singleton_self start

/-- When the queue is empty, all nodes that can be reached are visited. -/
theorem Searched.mem_visited_iff (h : Searched next start visited (passed, [])) :
    m ∈ visited ↔ Reaches next start m := by
  have hmem : ∀ m, m ∈ passed ↔ m ∈ visited := fun m => by
    rw [h.sorted.mem_passed m, List.append_nil]
  constructor
  · exact fun hm => h.reached m ((hmem m).mpr hm)
  · intro hm
    induction hm with
    | refl => exact (hmem start).mp h.start_mem
    | tail _ hm ih => exact (hmem _).mp (h.closed _ ih _ hm)

variable [DecidableEq ν]

/-- The passed nodes and the queue when a node has been met. -/
def meet (r : List ν × List ν) (n : ν) : List ν × List ν :=
  if n ∈ r.1 then r else (n :: r.1, r.2 ++ [n])

def search (next : σ → ν → List ν) (visit : σ → ν → σ) :
    ℕ → σ → List ν → List ν → Option σ
  | 0, _, _, _ => none
  | _ + 1, s, _, [] => some s
  | fuel + 1, s, passed, n :: queue =>
      let r := (next (visit s n) n).foldl meet (passed, queue)
      search next visit fuel (visit s n) r.1 r.2

theorem Sorted.meet (h : Sorted visited r) (n : ν) : Sorted visited (meet r n) := by
  rw [QueueSearch.meet]
  split
  · exact h
  next hn =>
    refine ⟨?_, fun m => ?_⟩
    · rw [← List.append_assoc]
      exact List.nodup_append.mpr ⟨h.nodup, List.nodup_singleton n, fun a ha b hb heq =>
        hn ((h.mem_passed n).mpr (List.mem_singleton.mp hb ▸ heq ▸ ha))⟩
    · rw [List.mem_cons, h.mem_passed, ← List.append_assoc, List.mem_append (s := visited ++ r.2),
        List.mem_singleton, or_comm]

theorem Sorted.foldl (h : Sorted visited r) (l : List ν) :
    Sorted visited (l.foldl QueueSearch.meet r) := by
  induction l generalizing r with
  | nil => exact h
  | cons n l ih => exact ih (h.meet n)

theorem mem_foldl_meet : m ∈ (l.foldl meet r).1 ↔ m ∈ r.1 ∨ m ∈ l := by
  induction l generalizing r with
  | nil => simp
  | cons n l ih =>
      have hmeet : m ∈ (meet r n).1 ↔ m ∈ r.1 ∨ m = n := by
        rw [meet]
        split
        next hn => exact ⟨.inl, fun h => h.elim id fun heq => heq ▸ hn⟩
        next hn => rw [List.mem_cons, or_comm]
      rw [List.foldl_cons, ih, hmeet, List.mem_cons, or_assoc]

theorem Searched.visit (h : Searched next start visited (passed, n :: queue)) :
    Searched next start (visited ++ [n]) ((next n).foldl meet (passed, queue)) where
  sorted := by
    refine Sorted.foldl ⟨?_, fun m => ?_⟩ (next n)
    · rw [List.append_assoc]
      exact h.sorted.nodup
    · rw [List.append_assoc]
      exact h.sorted.mem_passed m
  reached m hm := by
    rcases mem_foldl_meet.mp hm with hm | hm
    · exact h.reached m hm
    · have hn : n ∈ passed :=
        (h.sorted.mem_passed n).mpr (List.mem_append_right visited List.mem_cons_self)
      exact (h.reached n hn).tail hm
  closed a ha m hm := by
    rw [mem_foldl_meet]
    rcases List.mem_append.mp ha with ha | ha
    · exact .inl (h.closed a ha m hm)
    · rw [List.mem_singleton.mp ha] at hm
      exact .inr hm
  start_mem := mem_foldl_meet.mpr (.inl h.start_mem)

theorem Searched.length_le (h : Searched next start visited r)
    (hfinite : {m | Reaches next start m}.Finite) :
    visited.length ≤ {m | Reaches next start m}.ncard := by
  have hnodup : visited.Nodup := (List.nodup_append.mp h.sorted.nodup).1
  rw [← List.toFinset_card_of_nodup hnodup, ← Set.ncard_coe_finset]
  refine Set.ncard_le_ncard (fun m hm => ?_) hfinite
  rw [Finset.mem_coe, List.mem_toFinset] at hm
  exact h.reached m ((h.sorted.mem_passed m).mpr (List.mem_append_left _ hm))

variable {f : σ → ν → List ν} {visit : σ → ν → σ} {s : σ}

/-- The search goes on for as long as there are nodes to visit. -/
theorem Searched.exists_search (hf : ∀ s n, f (visit s n) = f s) (hfs : f s = next)
    (hfinite : {m | Reaches next start m}.Finite) {k : ℕ}
    (h : Searched next start visited r)
    (hk : {m | Reaches next start m}.ncard < visited.length + k) :
    ∃ order : List ν, order.Nodup ∧ (∀ m, m ∈ order ↔ Reaches next start m) ∧
      ∀ fuel, k ≤ fuel →
        search f visit fuel (visited.foldl visit s) r.1 r.2 = some (order.foldl visit s) := by
  induction k generalizing visited r with
  | zero => exact absurd (h.length_le hfinite) (Nat.not_le.mpr hk)
  | succ k ih =>
      obtain ⟨passed, queue⟩ := r
      cases queue with
      | nil =>
          refine ⟨visited, (List.nodup_append.mp h.sorted.nodup).1,
            fun m => h.mem_visited_iff, fun fuel hfuel => ?_⟩
          obtain ⟨fuel, rfl⟩ := Nat.exists_eq_add_of_le' hfuel
          rfl
      | cons n queue =>
          have hlength : {m | Reaches next start m}.ncard < (visited ++ [n]).length + k := by
            rw [List.length_append, List.length_singleton]
            omega
          obtain ⟨order, hnodup, hmem, hsearch⟩ := ih h.visit hlength
          refine ⟨order, hnodup, hmem, fun fuel hfuel => ?_⟩
          obtain ⟨fuel, rfl⟩ := Nat.exists_eq_add_of_le' hfuel
          have hfold : ∀ l : List ν, f (l.foldl visit s) = next := fun l => by
            induction l using List.reverseRecOn with
            | nil => exact hfs
            | append_singleton l n ih =>
                rw [List.foldl_append, List.foldl_cons, List.foldl_nil, hf, ih]
          have hvisit : visit (visited.foldl visit s) n = (visited ++ [n]).foldl visit s := by
            rw [List.foldl_append, List.foldl_cons, List.foldl_nil]
          rw [← hsearch (k + fuel) (Nat.le_add_right k fuel)]
          change search f visit (fuel + k + 1) (visited.foldl visit s) passed (n :: queue) = _
          rw [search, hvisit, hfold, Nat.add_comm fuel k]

/-- A search from a node ends, and has then visited each node that can be reached once. -/
theorem exists_search (hf : ∀ s n, f (visit s n) = f s)
    (hfinite : {m | Reaches (f s) start m}.Finite) :
    ∃ order : List ν, order.Nodup ∧ (∀ m, m ∈ order ↔ Reaches (f s) start m) ∧
      ∃ bound, ∀ fuel, bound ≤ fuel →
        search f visit fuel s [start] [start] = some (order.foldl visit s) := by
  obtain ⟨order, hnodup, hmem, hsearch⟩ := (searched_start (f s) start).exists_search hf rfl hfinite
    (k := {m | Reaches (f s) start m}.ncard + 1) (Nat.lt_add_left _ (Nat.lt_succ_self _))
  exact ⟨order, hnodup, hmem, _, hsearch⟩

/-- Visits that change a family at the place of the node only. -/
theorem foldl_update_apply (g : ν → β → β) {order : List ν} (hnodup : order.Nodup) (s : ν → β)
    (n : ν) :
    order.foldl (fun s m => Function.update s m (g m (s m))) s n =
      if n ∈ order then g n (s n) else s n := by
  induction order generalizing s with
  | nil => rfl
  | cons m order ih =>
      obtain ⟨hm, hnodup⟩ := List.nodup_cons.mp hnodup
      rw [List.foldl_cons, ih hnodup]
      rcases eq_or_ne n m with rfl | hne
      · rw [if_neg hm, if_pos List.mem_cons_self, Function.update_self]
      · rw [Function.update_of_ne hne]
        simp only [List.mem_cons, hne, false_or]

end QueueSearch
