import Mathlib.Data.List.Basic
import Mathlib.Data.List.Nodup
import Mathlib.Logic.Function.Basic

/-!
# Sets under keys

A map from keys to sets, without empty sets. The sets are lists without
repetitions.
-/

namespace KeyedSets

variable {κ ι : Type*} (s : κ → Option (List ι))

def Mem (k : κ) (i : ι) : Prop := ∃ l, s k = some l ∧ i ∈ l

def Unique : Prop := ∀ k l, s k = some l → l.Nodup

/-- No key is kept with an empty set. -/
def NoEmpty : Prop := ∀ k, s k ≠ some []

variable {s} {k k' : κ} {i i' : ι} {l : List ι}

theorem mem_iff_of_eq (h : s k = some l) : Mem s k i ↔ i ∈ l := by
  constructor
  · rintro ⟨l', hl', hi⟩
    rw [h] at hl'
    cases hl'
    exact hi
  · exact fun hi => ⟨l, h, hi⟩

theorem mem_getD : i ∈ (s k).getD [] ↔ Mem s k i := by
  rw [Mem]
  cases s k with
  | none => simp
  | some l => simp

theorem Unique.getD (hs : Unique s) : ((s k).getD []).Nodup := by
  cases hk : s k with
  | none => exact List.nodup_nil
  | some l => exact hs k l hk

theorem unique_none : Unique fun _ : κ => (none : Option (List ι)) := fun _ _ h => by cases h

theorem noEmpty_none : NoEmpty fun _ : κ => (none : Option (List ι)) := fun _ h => by cases h

theorem not_mem_none : ¬Mem (fun _ : κ => (none : Option (List ι))) k i := fun ⟨_, h, _⟩ => by
  cases h

/-- An empty set is given up with its key. -/
def keep (l : List ι) : Option (List ι) := if l.isEmpty then none else some l

theorem mem_keep : (∃ l', keep l = some l' ∧ i ∈ l') ↔ i ∈ l := by
  rw [keep]
  split
  · rename_i hl
    rw [List.isEmpty_iff.mp hl]
    simp
  · simp

variable [DecidableEq κ] [DecidableEq ι]

variable (s) in
def add (k : κ) (i : ι) : κ → Option (List ι) :=
  Function.update s k (some (((s k).getD []).insert i))

variable (s) in
def erase (k : κ) (l : List ι) (i : ι) : κ → Option (List ι) :=
  Function.update s k (keep (l.erase i))

theorem mem_add : Mem (add s k i) k' i' ↔ Mem s k' i' ∨ k' = k ∧ i' = i := by
  rcases eq_or_ne k' k with rfl | hk
  · have hadd : add s k' i k' = some (((s k').getD []).insert i) := Function.update_self ..
    rw [mem_iff_of_eq hadd, List.mem_insert_iff, mem_getD, or_comm]
    simp
  · rw [Mem, add, Function.update_of_ne hk]
    simp [hk, Mem]

theorem mem_erase (hs : Unique s) (hl : s k = some l) :
    Mem (erase s k l i) k' i' ↔ Mem s k' i' ∧ ¬(k' = k ∧ i' = i) := by
  rcases eq_or_ne k' k with rfl | hk
  · rw [Mem, erase, Function.update_self, mem_keep, (hs _ l hl).mem_erase_iff, mem_iff_of_eq hl,
      and_comm]
    simp
  · rw [Mem, erase, Function.update_of_ne hk]
    simp [hk, Mem]

theorem Unique.add (hs : Unique s) : Unique (add s k i) := by
  intro k' l' h
  rcases eq_or_ne k' k with rfl | hk
  · rw [KeyedSets.add, Function.update_self] at h
    cases h
    exact hs.getD.insert
  · rw [KeyedSets.add, Function.update_of_ne hk] at h
    exact hs k' l' h

theorem Unique.erase (hs : Unique s) (hl : s k = some l) : Unique (erase s k l i) := by
  intro k' l' h
  rcases eq_or_ne k' k with rfl | hk
  · rw [KeyedSets.erase, Function.update_self, keep] at h
    split at h
    · cases h
    · cases h
      exact (hs _ l hl).erase i
  · rw [KeyedSets.erase, Function.update_of_ne hk] at h
    exact hs k' l' h

theorem NoEmpty.add (hs : NoEmpty s) : NoEmpty (add s k i) := by
  intro k' h
  rcases eq_or_ne k' k with rfl | hk
  · rw [KeyedSets.add, Function.update_self] at h
    have hmem : i ∈ ((s k').getD []).insert i := List.mem_insert_self
    rw [Option.some.inj h] at hmem
    cases hmem
  · rw [KeyedSets.add, Function.update_of_ne hk] at h
    exact hs k' h

theorem NoEmpty.erase (hs : NoEmpty s) : NoEmpty (erase s k l i) := by
  intro k' h
  rcases eq_or_ne k' k with rfl | hk
  · rw [KeyedSets.erase, Function.update_self, keep] at h
    split at h
    · cases h
    · next hl =>
      rw [Option.some.inj h] at hl
      exact hl rfl
  · rw [KeyedSets.erase, Function.update_of_ne hk] at h
    exact hs k' h

end KeyedSets
