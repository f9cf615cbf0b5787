import Mathlib.Data.List.AList
import Mathlib.Data.List.Nodup
import Mathlib.Tactic.Common

/-!
# Updates of elements by their keys

A list of elements with pairwise different keys, and an update that may fail of
the element with a given key. Updates for different keys one after the other
are one pass over the list. A fold over a map whose passes each touch the place
of their own key only is known by what it does there.
-/

namespace KeyedUpdate

variable {κ β : Type*} [DecidableEq κ] (key : β → κ)

/-- The first element with the key is updated, if there is one. -/
def update (k : κ) (f : β → Option β) : List β → Option (List β)
  | [] => some []
  | b :: bs => if key b = k then (f b).map (· :: bs) else (update k f bs).map (b :: ·)

variable {key} {k : κ} {f g : β → Option β} {bs bs' : List β}

theorem update_congr (h : ∀ b ∈ bs, key b = k → f b = g b) :
    update key k f bs = update key k g bs := by
  induction bs with
  | nil => rfl
  | cons b bs ih =>
      rw [List.forall_mem_cons] at h
      rw [update, update, ih h.2]
      split
      · rw [h.1 ‹_›]
      · rfl

theorem map_key_update (hf : ∀ b b', f b = some b' → key b' = key b)
    (h : update key k f bs = some bs') : bs'.map key = bs.map key := by
  induction bs generalizing bs' with
  | nil =>
      cases h
      rfl
  | cons b bs ih =>
      rw [update] at h
      split at h
      · obtain ⟨b', hb', rfl⟩ := Option.map_eq_some_iff.mp h
        rw [List.map_cons, hf b b' hb', List.map_cons]
      · obtain ⟨cs, hcs, rfl⟩ := Option.map_eq_some_iff.mp h
        rw [List.map_cons, ih hcs, List.map_cons]

/-- An element with another key was there before. -/
theorem mem_of_mem_update {b : β} (hf : ∀ b b', f b = some b' → key b' = key b)
    (h : update key k f bs = some bs') (hb : b ∈ bs') (hne : key b ≠ k) : b ∈ bs := by
  induction bs generalizing bs' with
  | nil =>
      cases h
      exact hb
  | cons c cs ih =>
      rw [update] at h
      split at h
      · rename_i hc
        obtain ⟨c', hc', rfl⟩ := Option.map_eq_some_iff.mp h
        rcases List.mem_cons.mp hb with rfl | hb
        · exact (hne ((hf c b hc').trans hc)).elim
        · exact List.mem_cons_of_mem c hb
      · obtain ⟨ds, hds, rfl⟩ := Option.map_eq_some_iff.mp h
        rcases List.mem_cons.mp hb with rfl | hb
        · exact List.mem_cons_self
        · exact List.mem_cons_of_mem c (ih hds hb)

theorem mapM_congr {g' : β → Option β} (h : ∀ b ∈ bs, g b = g' b) : bs.mapM g = bs.mapM g' := by
  induction bs with
  | nil => rfl
  | cons b bs ih =>
      rw [List.forall_mem_cons] at h
      rw [List.mapM_cons, List.mapM_cons, h.1, ih h.2]

/-- A pass that leaves the elements with the key alone can do the update as well. -/
theorem update_bind_mapM (hnodup : (bs.map key).Nodup)
    (hf : ∀ b b', f b = some b' → key b' = key b) (hg : ∀ b, key b = k → g b = some b) :
    (update key k f bs).bind (List.mapM g) = bs.mapM fun b => if key b = k then f b else g b := by
  induction bs with
  | nil => rfl
  | cons b bs ih =>
      obtain ⟨hb, hnodup⟩ := List.nodup_cons.mp hnodup
      rw [update, List.mapM_cons]
      by_cases hbk : key b = k
      · have hrest : (bs.mapM fun b => if key b = k then f b else g b) = bs.mapM g := by
          refine mapM_congr fun c hc => ?_
          have hck : key c ≠ k := fun hck => by
            rw [hbk, ← hck] at hb
            exact hb (List.mem_map_of_mem hc)
          rw [if_neg hck]
        rw [if_pos hbk, if_pos hbk, hrest]
        cases hfb : f b with
        | none => rfl
        | some b' =>
            simp [List.mapM_cons, hg b' ((hf b b' hfb).trans hbk)]
      · rw [if_neg hbk, if_neg hbk, ← ih hnodup]
        cases hup : update key k f bs with
        | none => cases g b <;> rfl
        | some cs => simp [List.mapM_cons]

/-- A pass that succeeds everywhere. -/
theorem mapM_eq_some_map_iff (g : β → Option β) (h : β → β) (bs : List β) :
    bs.mapM g = some (bs.map h) ↔ ∀ b ∈ bs, g b = some (h b) := by
  induction bs with
  | nil => simp
  | cons b bs ih =>
      rw [List.mapM_cons, List.map_cons, List.forall_mem_cons, ← ih]
      cases hgb : g b <;> cases hgs : bs.mapM g <;> simp

end KeyedUpdate

namespace KeyedFold

variable {κ β σ τ : Type*} [DecidableEq κ]

/-- At the place of a key only the pass for that key is seen. -/
theorem at_foldl {v : σ → κ → τ} {f : σ → κ → β → σ} {g : κ → β → τ → τ}
    (hsame : ∀ s k b, v (f s k b) k = g k b (v s k))
    (hother : ∀ s k b j, j ≠ k → v (f s k b) j = v s j)
    (entries : AList fun _ : κ => β) (s : σ) (j : κ) :
    v (entries.foldl f s) j = (entries.lookup j).elim (v s j) fun b => g j b (v s j) := by
  obtain ⟨entries, hnodup⟩ := entries
  simp only [AList.foldl, AList.lookup]
  induction entries generalizing s with
  | nil => rfl
  | cons e entries ih =>
      rw [List.nodupKeys_cons] at hnodup
      rw [List.foldl_cons, ih _ hnodup.2]
      obtain ⟨k, b⟩ := e
      by_cases hj : j = k
      · subst hj
        rw [List.dlookup_eq_none.mpr hnodup.1, List.dlookup_cons_eq]
        exact hsame s j b
      · rw [List.dlookup_cons_ne _ _ hj, hother s k b j hj]

end KeyedFold
