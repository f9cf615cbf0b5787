import Mathlib.Data.List.Nodup
import Mathlib.Order.Lattice
import Mathlib.Tactic.Common

/-!
# Slots with a queue of the empty ones

An entry is put into the slot at the front of the queue, or behind all slots
when the queue is empty, and a slot that is given up goes to its end.
-/

structure SlotTable (κ : Type*) where
  slots : List (Option κ) := []
  free : List ℕ := []

namespace SlotTable

variable {κ : Type*} {t : SlotTable κ} {c d : κ} {i j : ℕ}

def Holds (t : SlotTable κ) (i : ℕ) (c : κ) : Prop := t.slots[i]? = some (some c)

def IsEmpty (t : SlotTable κ) (i : ℕ) : Prop := t.slots[i]? = some none

/-- The queue has every empty slot once, and an entry has one slot. -/
structure Exact (t : SlotTable κ) : Prop where
  nodup : t.free.Nodup
  mem_free : ∀ i, i ∈ t.free ↔ t.IsEmpty i
  holds_inj : ∀ i j c, t.Holds i c → t.Holds j c → i = j

theorem exact_empty : ({} : SlotTable κ).Exact := by
  refine ⟨List.nodup_nil, fun i => ?_, fun i j c h => ?_⟩
  · simp [IsEmpty]
  · simp [Holds] at h

theorem Holds.unique (h : t.Holds i c) (h' : t.Holds i d) : c = d :=
  Option.some.inj (Option.some.inj (h.symm.trans h'))

theorem Holds.lt (h : t.Holds i c) : i < t.slots.length :=
  (List.getElem?_eq_some_iff.mp h).1

theorem IsEmpty.lt (h : t.IsEmpty i) : i < t.slots.length :=
  (List.getElem?_eq_some_iff.mp h).1

theorem IsEmpty.not_holds (h : t.IsEmpty i) (c : κ) : ¬ t.Holds i c := by
  intro hc
  cases h.symm.trans hc

/-! ## Placing -/

/-- The slot that the next entry gets. -/
def next (t : SlotTable κ) : ℕ := t.free.headD t.slots.length

def place (t : SlotTable κ) (c : κ) : SlotTable κ :=
  match t.free with
  | [] => { t with slots := t.slots ++ [some c] }
  | i :: rest => ⟨t.slots.set i (some c), rest⟩

theorem Exact.next_eq (h : t.Exact) : t.next = t.slots.length ∨ t.IsEmpty t.next := by
  rw [next]
  cases hfree : t.free with
  | nil => exact .inl rfl
  | cons i rest =>
      right
      exact (h.mem_free i).mp (hfree ▸ List.mem_cons_self)

/-- Nothing is overwritten. -/
theorem Exact.not_holds_next (h : t.Exact) (d : κ) : ¬ t.Holds t.next d := by
  rcases h.next_eq with heq | hempty
  · intro hd
    exact absurd hd.lt (heq ▸ lt_irrefl _)
  · exact hempty.not_holds d

theorem Exact.getElem?_place (h : t.Exact) (c : κ) (i : ℕ) :
    (t.place c).slots[i]? = if i = t.next then some (some c) else t.slots[i]? := by
  rw [place, next]
  cases hfree : t.free with
  | nil =>
      rcases lt_trichotomy i t.slots.length with hlt | rfl | hgt
      · simp [List.getElem?_append_left hlt, hlt.ne]
      · simp
      · simp [List.getElem?_append_right hgt.le, hgt.ne', Nat.sub_eq_zero_iff_le, hgt.le, hgt]
  | cons k rest =>
      have hlt := ((h.mem_free k).mp (hfree ▸ List.mem_cons_self)).lt
      rcases eq_or_ne k i with rfl | hne
      · simp [hlt]
      · simp [List.getElem?_set_ne hne, hne.symm]

theorem Exact.holds_place_iff (h : t.Exact) :
    (t.place c).Holds i d ↔ i = t.next ∧ d = c ∨ t.Holds i d := by
  rw [Holds, h.getElem?_place]
  split
  · rename_i hi
    subst hi
    simp [h.not_holds_next, eq_comm]
  · rename_i hi
    simp [Holds, hi]

theorem length_place (t : SlotTable κ) (c : κ) :
    (t.place c).slots.length = if t.free = [] then t.slots.length + 1 else t.slots.length := by
  rw [place]
  cases hfree : t.free with
  | nil => simp
  | cons k rest => simp

theorem Exact.isEmpty_place_iff (h : t.Exact) (c : κ) (i : ℕ) :
    (t.place c).IsEmpty i ↔ i ≠ t.next ∧ t.IsEmpty i := by
  rw [IsEmpty, h.getElem?_place]
  split <;> simp [IsEmpty, *]

theorem Exact.place (h : t.Exact) (hc : ∀ i, ¬ t.Holds i c) : (t.place c).Exact := by
  refine ⟨?_, fun i => ?_, fun i j d hi hj => ?_⟩
  · have hnodup := h.nodup
    rw [SlotTable.place]
    cases hfree : t.free with
    | nil => simp
    | cons k rest => exact (List.nodup_cons.mp (hfree ▸ hnodup)).2
  · have hmem := h.mem_free i
    rw [h.isEmpty_place_iff, ← hmem, SlotTable.place, next]
    cases hfree : t.free with
    | nil => simp
    | cons k rest =>
        have hnotMem := (List.nodup_cons.mp (hfree ▸ h.nodup)).1
        rcases eq_or_ne i k with rfl | hne
        · simp [hnotMem]
        · simp [hne]
  · rcases h.holds_place_iff.mp hi with ⟨hi, hd⟩ | hi
    · rcases h.holds_place_iff.mp hj with ⟨hj, -⟩ | hj
      · rw [hi, hj]
      · exact (hc j (hd ▸ hj)).elim
    · rcases h.holds_place_iff.mp hj with ⟨-, hd⟩ | hj
      · exact (hc i (hd ▸ hi)).elim
      · exact h.holds_inj i j d hi hj

/-! ## Giving up -/

def vacate (t : SlotTable κ) (i : ℕ) : SlotTable κ := ⟨t.slots.set i none, t.free ++ [i]⟩

@[simp] theorem length_vacate (t : SlotTable κ) (i : ℕ) :
    (t.vacate i).slots.length = t.slots.length := List.length_set

theorem getElem?_vacate (hi : i < t.slots.length) (j : ℕ) :
    (t.vacate i).slots[j]? = if j = i then some none else t.slots[j]? := by
  rw [vacate]
  rcases eq_or_ne i j with rfl | hne
  · simp [hi]
  · simp [List.getElem?_set_ne hne, hne.symm]

theorem holds_vacate_iff (hi : i < t.slots.length) :
    (t.vacate i).Holds j d ↔ j ≠ i ∧ t.Holds j d := by
  rw [Holds, getElem?_vacate hi]
  split <;> simp [Holds, *]

theorem Exact.vacate (h : t.Exact) (hi : t.Holds i c) : (t.vacate i).Exact := by
  have hnotMem : i ∉ t.free := fun hmem => ((h.mem_free i).mp hmem).not_holds c hi
  refine ⟨?_, fun j => ?_, fun j k d hj hk => ?_⟩
  · rw [SlotTable.vacate, ← List.concat_eq_append]
    exact h.nodup.concat hnotMem
  · rw [IsEmpty, getElem?_vacate hi.lt, SlotTable.vacate, List.mem_append, List.mem_singleton,
      h.mem_free, IsEmpty]
    split <;> simp [*]
  · exact h.holds_inj j k d ((holds_vacate_iff hi.lt).mp hj).2 ((holds_vacate_iff hi.lt).mp hk).2

/-! ## The entries -/

/-- The entries in the order of their slots. -/
def entries (t : SlotTable κ) : List κ := t.slots.filterMap id

theorem mem_entries : c ∈ t.entries ↔ ∃ i, t.Holds i c := by
  simp only [entries, List.mem_filterMap, id_eq, exists_eq_right, Holds]
  exact List.mem_iff_getElem?

theorem Exact.nodup_entries (h : t.Exact) : t.entries.Nodup := by
  have hpairwise : t.slots.Pairwise fun a b => ∀ c, a = some c → b ≠ some c := by
    rw [List.pairwise_iff_getElem]
    rintro i j hi hj hlt c hc hd
    have heq := h.holds_inj i j c (by rw [Holds, List.getElem?_eq_getElem hi, hc])
      (by rw [Holds, List.getElem?_eq_getElem hj, hd])
    omega
  rw [entries, List.Nodup, List.pairwise_filterMap]
  refine hpairwise.imp fun hne c hc d hd heq => ?_
  subst heq
  exact hne c hc hd

end SlotTable
