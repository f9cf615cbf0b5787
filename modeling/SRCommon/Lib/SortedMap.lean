import Mathlib.Data.List.Nodup
import Mathlib.Order.Lattice
import Mathlib.Tactic.Common

/-!
# Lists of entries in the order of their keys

The keys are ordered by their ranks, and no two entries have one key. An entry
is inserted at its place, in the place of an entry with the same key.
-/

namespace SortedMap

variable {κ α β : Type*}

def keys (entries : List (κ × β)) : List κ := entries.map Prod.fst

theorem mem_keys_of_mem {entries : List (κ × β)} {k : κ} {v : β} (h : (k, v) ∈ entries) :
    k ∈ keys entries := List.mem_map_of_mem (f := Prod.fst) h

variable [LinearOrder α] {rank : κ → α}

def Sorted (rank : κ → α) (entries : List (κ × β)) : Prop :=
  entries.Pairwise fun e e' => rank e.1 < rank e'.1

theorem Sorted.nodup_keys {entries : List (κ × β)} (h : Sorted rank entries) :
    (keys entries).Nodup := by
  rw [keys, List.Nodup, List.pairwise_map]
  refine h.imp fun hlt heq => ?_
  rw [heq] at hlt
  exact lt_irrefl _ hlt

theorem Sorted.eq_of_mem {entries : List (κ × β)} (h : Sorted rank entries) {k : κ} {v v' : β}
    (hv : (k, v) ∈ entries) (hv' : (k, v') ∈ entries) : v = v' :=
  congrArg Prod.snd (List.inj_on_of_nodup_map h.nodup_keys hv hv' rfl)

/-- Entries in order are known by which they are. -/
theorem Sorted.ext {entries entries' : List (κ × β)} (h : Sorted rank entries)
    (h' : Sorted rank entries') (hmem : ∀ k v, (k, v) ∈ entries ↔ (k, v) ∈ entries') :
    entries = entries' := by
  have hperm : entries.Perm entries' := by
    rw [List.perm_ext_iff_of_nodup (List.Nodup.of_map _ h.nodup_keys)
      (List.Nodup.of_map _ h'.nodup_keys)]
    exact fun e => hmem e.1 e.2
  refine hperm.eq_of_pairwise (fun a b _ _ hab hba => ?_) h h'
  exact absurd hba (lt_asymm hab)

variable [DecidableEq κ]

def insert (rank : κ → α) (k : κ) (v : β) : List (κ × β) → List (κ × β)
  | [] => [(k, v)]
  | (k', v') :: entries =>
      if rank k < rank k' then (k, v) :: (k', v') :: entries
      else if k = k' then (k, v) :: entries
      else (k', v') :: insert rank k v entries

def insertAll (rank : κ → α) (added entries : List (κ × β)) : List (κ × β) :=
  added.foldl (fun entries e => insert rank e.1 e.2 entries) entries

variable {entries : List (κ × β)} {k k' : κ} {v v' : β}

theorem mem_keys_insert : k' ∈ keys (insert rank k v entries) ↔ k' = k ∨ k' ∈ keys entries := by
  induction entries with
  | nil => simp [insert, keys]
  | cons e entries ih =>
      obtain ⟨j, w⟩ := e
      rw [insert]
      split
      · simp [keys]
      · split
        · rename_i hkj
          subst hkj
          simp [keys]
        · simp only [keys, List.map_cons, List.mem_cons] at ih ⊢
          rw [ih, or_left_comm]

/-- With a new key there is one entry more. -/
theorem insert_perm (h : k ∉ keys entries) : (insert rank k v entries).Perm ((k, v) :: entries) := by
  induction entries with
  | nil => exact List.Perm.refl _
  | cons e entries ih =>
      obtain ⟨j, w⟩ := e
      rw [keys, List.map_cons, List.mem_cons, not_or] at h
      rw [insert]
      split
      · exact List.Perm.refl _
      · rw [if_neg h.1]
        exact (List.Perm.cons (j, w) (ih h.2)).trans (List.Perm.swap (k, v) (j, w) entries)

theorem Sorted.insert (hrank : Function.Injective rank) (h : Sorted rank entries) :
    Sorted rank (insert rank k v entries) := by
  induction entries with
  | nil => exact List.pairwise_singleton _ _
  | cons e entries ih =>
      obtain ⟨j, w⟩ := e
      obtain ⟨hj, hrest⟩ := List.pairwise_cons.mp h
      rw [SortedMap.insert]
      split
      · rename_i hlt
        refine List.pairwise_cons.mpr ⟨fun e he => ?_, h⟩
        rcases List.mem_cons.mp he with rfl | he
        · exact hlt
        · exact lt_trans hlt (hj e he)
      · split
        · rename_i hkj
          subst hkj
          exact List.pairwise_cons.mpr ⟨hj, hrest⟩
        · rename_i hnlt hne
          have hlt : rank j < rank k :=
            lt_of_le_of_ne (not_lt.mp hnlt) fun heq => hne (hrank heq).symm
          refine List.pairwise_cons.mpr ⟨fun e he => ?_, ih hrest⟩
          obtain ⟨i, u⟩ := e
          rcases mem_keys_insert.mp (mem_keys_of_mem he) with rfl | hi
          · exact hlt
          · obtain ⟨e, hmem, rfl⟩ := List.mem_map.mp hi
            exact hj e hmem

theorem mem_insert (h : Sorted rank entries) :
    (k', v') ∈ insert rank k v entries ↔ k' = k ∧ v' = v ∨ k' ≠ k ∧ (k', v') ∈ entries := by
  induction entries with
  | nil => simp [insert]
  | cons e entries ih =>
      obtain ⟨j, w⟩ := e
      obtain ⟨hj, hrest⟩ := List.pairwise_cons.mp h
      have hrank : ∀ i u, (i, u) ∈ entries → i ≠ j := by
        rintro i u hmem rfl
        exact lt_irrefl (rank i) (hj (i, u) hmem)
      rw [insert]
      split
      · rename_i hlt
        have hne : ∀ i u, (i, u) ∈ (j, w) :: entries → i ≠ k := by
          rintro i u hmem rfl
          rcases List.mem_cons.mp hmem with heq | hmem
          · cases heq
            exact lt_irrefl _ hlt
          · exact lt_asymm hlt (hj _ hmem)
        rw [List.mem_cons, Prod.mk.injEq]
        exact or_congr Iff.rfl ⟨fun hmem => ⟨hne _ _ hmem, hmem⟩, And.right⟩
      · split
        · rename_i hkj
          subst hkj
          rw [List.mem_cons, List.mem_cons, Prod.mk.injEq, Prod.mk.injEq]
          refine or_congr Iff.rfl ⟨fun hmem => ⟨hrank _ _ hmem, Or.inr hmem⟩, ?_⟩
          rintro ⟨hne, ⟨heq, -⟩ | hmem⟩
          · exact absurd heq hne
          · exact hmem
        · rename_i hne
          rw [List.mem_cons, ih hrest, List.mem_cons, Prod.mk.injEq]
          constructor
          · rintro (⟨rfl, rfl⟩ | hnew | ⟨hk, hmem⟩)
            · exact Or.inr ⟨Ne.symm hne, Or.inl ⟨rfl, rfl⟩⟩
            · exact Or.inl hnew
            · exact Or.inr ⟨hk, Or.inr hmem⟩
          · rintro (hnew | ⟨hk, hold | hmem⟩)
            · exact Or.inr (Or.inl hnew)
            · exact Or.inl hold
            · exact Or.inr (Or.inr ⟨hk, hmem⟩)

theorem mem_keys_insertAll {added : List (κ × β)} :
    k ∈ keys (insertAll rank added entries) ↔ k ∈ keys added ∨ k ∈ keys entries := by
  induction added generalizing entries with
  | nil => simp [insertAll, keys]
  | cons e added ih =>
      change k ∈ keys (insertAll rank added (insert rank e.1 e.2 entries)) ↔ _
      rw [ih, mem_keys_insert]
      simp only [keys, List.map_cons, List.mem_cons]
      rw [or_left_comm, or_assoc]

theorem Sorted.insertAll (hrank : Function.Injective rank) {added : List (κ × β)}
    (h : Sorted rank entries) : Sorted rank (insertAll rank added entries) := by
  induction added generalizing entries with
  | nil => exact h
  | cons e added ih => exact ih (h.insert hrank)

/-- Added entries with different keys, and the others that are there. -/
theorem mem_insertAll (hrank : Function.Injective rank) {added : List (κ × β)}
    (hnodup : (keys added).Nodup) (h : Sorted rank entries) :
    (k, v) ∈ insertAll rank added entries ↔
      (k, v) ∈ added ∨ k ∉ keys added ∧ (k, v) ∈ entries := by
  induction added generalizing entries with
  | nil => simp [insertAll, keys]
  | cons e added ih =>
      obtain ⟨j, w⟩ := e
      obtain ⟨hj, hrest⟩ := List.nodup_cons.mp hnodup
      change (k, v) ∈ insertAll rank added (insert rank j w entries) ↔ _
      rw [ih hrest (h.insert hrank), mem_insert h, List.mem_cons, Prod.mk.injEq]
      change _ ↔ _ ∨ k ∉ j :: keys added ∧ _
      rw [List.mem_cons, not_or]
      constructor
      · rintro (hmem | ⟨hk, hnew | ⟨hne, hmem⟩⟩)
        · exact Or.inl (Or.inr hmem)
        · exact Or.inl (Or.inl hnew)
        · exact Or.inr ⟨⟨hne, hk⟩, hmem⟩
      · rintro ((⟨rfl, rfl⟩ | hmem) | ⟨⟨hne, hk⟩, hmem⟩)
        · exact Or.inr ⟨hj, Or.inl ⟨rfl, rfl⟩⟩
        · exact Or.inl hmem
        · exact Or.inr ⟨hk, Or.inr ⟨hne, hmem⟩⟩

end SortedMap
