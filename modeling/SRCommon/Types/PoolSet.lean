import Mathlib.Data.List.Basic
import Mathlib.Data.List.Induction
import Mathlib.Tactic.Common

/-!
# PoolSet

An array of values by index, with the least and the greatest index that were
set. When the greatest index is set, a new array is made and as many cells as
the new maximum says are copied out of the old one.
-/

namespace SRCommon

/-- A cell that was never written is `none`. -/
structure PoolSet (T : Type) where
  min : UInt32 := 0xFFFFFFFF
  max : UInt32 := 0
  maskPool : Option (List (Option T)) := none

namespace PoolSet

variable {T : Type}

/-- `SR_MIN`. -/
def minAfter (s : PoolSet T) (index : UInt32) : UInt32 := if s.min < index then s.min else index

/-- `SR_MAX`. -/
def maxAfter (s : PoolSet T) (index : UInt32) : UInt32 := if s.max > index then s.max else index

/-- `new T[index + 1]`, with a sum of 32 bits. -/
def newPool (index : UInt32) : List (Option T) := List.replicate (index + 1).toNat none

/-- `memcpy` of so many cells, which must lie in both arrays. -/
def copyCells (target source : List (Option T)) (count : ℕ) : Option (List (Option T)) :=
  if count ≤ source.length ∧ count ≤ target.length then
    some (source.take count ++ target.drop count)
  else none

/-- The array in which `Set` writes. The maximum is the updated one. -/
def poolFor (s : PoolSet T) (index : UInt32) : Option (List (Option T)) :=
  match s.maskPool with
  | none => some (newPool index)
  | some cells =>
      let max := s.maxAfter index
      if max ≤ index then copyCells (newPool index) cells max.toNat else some cells

/-- Without a result outside the arrays. -/
def set (s : PoolSet T) (index : UInt32) (value : T) : Option (PoolSet T) :=
  (s.poolFor index).bind fun cells =>
    if index.toNat < cells.length then
      some
        { min := s.minAfter index
          max := s.maxAfter index
          maskPool := some (cells.set index.toNat (some value)) }
    else none

/-- Without a result where a cell is read that is not there or was never written. -/
def get (s : PoolSet T) (index : UInt32) (defaultValue : T) : Option T :=
  match s.maskPool with
  | none => some defaultValue
  | some cells =>
      if index < s.min ∨ s.max < index then some defaultValue else cells[index.toNat]?.join

/-- The cells that `Set` reads to copy them. -/
def cellsRead (s : PoolSet T) (index : UInt32) : List (Option T) :=
  match s.maskPool with
  | none => []
  | some cells =>
      let max := s.maxAfter index
      if max ≤ index then cells.take max.toNat else []

/-- `Set` for each index and value, in this order. -/
def setAll (calls : List (UInt32 × T)) : Option (PoolSet T) :=
  calls.foldlM (fun s call => s.set call.1 call.2) {}

/-- The value that was set last. -/
def lastSet (calls : List (UInt32 × T)) (index : UInt32) : Option T :=
  (calls.reverse.find? fun call => call.1 = index).map Prod.snd

/-- `Get` answers like a map. -/
def GetsLastSet (calls : List (UInt32 × T)) : Prop :=
  ∃ s, setAll calls = some s ∧
    ∀ index defaultValue, s.get index defaultValue = some ((lastSet calls index).getD defaultValue)

/-- What is asked of each call and of the ones before it. -/
def AtEach (P : List (UInt32 × T) → UInt32 × T → Prop) (calls : List (UInt32 × T)) : Prop :=
  ∀ earlier call later, calls = earlier ++ call :: later → P earlier call

/-- No call copies a cell that was never written. -/
def CopiesWritten (calls : List (UInt32 × T)) : Prop :=
  AtEach (fun earlier call => ∀ s, setAll earlier = some s → none ∉ s.cellsRead call.1) calls

/-! ## Conditions on the calls -/

/-- The size for the index has 32 bits. -/
def IndicesFit (calls : List (UInt32 × T)) : Prop := ∀ call ∈ calls, call.1 ≠ 0xFFFFFFFF

/-- An index that is set after others exceeds one of them by one at the most. -/
def GrowsByOne (calls : List (UInt32 × T)) : Prop :=
  AtEach (fun earlier call => earlier ≠ [] →
    ∃ other ∈ earlier, call.1.toNat ≤ other.1.toNat + 1) calls

/-- When an index is set after others that do not exceed it, all indices below it were set. -/
def FilledBelow (calls : List (UInt32 × T)) : Prop :=
  AtEach (fun earlier call => earlier ≠ [] → (∀ other ∈ earlier, other.1 ≤ call.1) →
    ∀ index < call.1, ∃ other ∈ earlier, other.1 = index) calls

/-- Between two indices that were set all were set. -/
def Gapless (calls : List (UInt32 × T)) : Prop :=
  ∀ first ∈ calls, ∀ last ∈ calls, ∀ index, first.1 ≤ index → index ≤ last.1 →
    ∃ call ∈ calls, call.1 = index

/-! ## The state after calls -/

/-- The least and the greatest index that were set. -/
structure Bounds (calls : List (UInt32 × T)) (s : PoolSet T) : Prop where
  start : calls = [] → s.min = 0xFFFFFFFF ∧ s.max = 0
  min_mem : calls ≠ [] → ∃ call ∈ calls, call.1 = s.min
  max_mem : calls ≠ [] → ∃ call ∈ calls, call.1 = s.max
  le : ∀ call ∈ calls, s.min ≤ call.1 ∧ call.1 ≤ s.max

/-- What the set holds after calls, when there is an array. -/
structure Holds (calls : List (UInt32 × T)) (s : PoolSet T) (cells : List (Option T)) : Prop
    extends Bounds calls s where
  pool : s.maskPool = some cells
  length : cells.length = s.max.toNat + 1
  cell : ∀ index ≤ s.max, cells[index.toNat]? = some (lastSet calls index)

variable {calls : List (UInt32 × T)} {s : PoolSet T} {cells : List (Option T)} {index : UInt32}
  {value : T}

theorem lastSet_concat (calls : List (UInt32 × T)) (call : UInt32 × T) (index : UInt32) :
    lastSet (calls ++ [call]) index =
      if call.1 = index then some call.2 else lastSet calls index := by
  rw [lastSet, List.reverse_append, List.reverse_singleton, List.singleton_append]
  by_cases h : call.1 = index
  · rw [List.find?_cons_of_pos (by simpa using h), if_pos h, Option.map_some]
  · rw [List.find?_cons_of_neg (by simpa using h), if_neg h, lastSet]

theorem lastSet_eq_none_iff : lastSet calls index = none ↔ ∀ call ∈ calls, call.1 ≠ index := by
  simp [lastSet]

theorem lastSet_ne_none_iff : lastSet calls index ≠ none ↔ ∃ call ∈ calls, call.1 = index := by
  rw [Ne, lastSet_eq_none_iff]
  simp

theorem setAll_concat (calls : List (UInt32 × T)) (call : UInt32 × T) :
    setAll (calls ++ [call]) = (setAll calls).bind fun s => s.set call.1 call.2 := by
  simp [setAll, List.foldlM_append]

theorem toNat_add_one (h : index ≠ 0xFFFFFFFF) : (index + 1).toNat = index.toNat + 1 := by
  have hne : index.toNat ≠ 4294967295 := fun heq => h (UInt32.toNat_inj.mp heq)
  have hlt := index.toNat_lt
  rw [UInt32.toNat_add, UInt32.toNat_one]
  omega

theorem maxAfter_of_le (h : s.max ≤ index) : s.maxAfter index = index :=
  if_neg (UInt32.not_lt.mpr h)

theorem maxAfter_of_lt (h : index < s.max) : s.maxAfter index = s.max := if_pos h

theorem index_le_maxAfter : index ≤ s.maxAfter index := by
  rw [maxAfter]
  split
  · next h => exact UInt32.le_of_lt h
  · exact UInt32.le_refl index

theorem max_le_maxAfter : s.max ≤ s.maxAfter index := by
  rw [maxAfter]
  split
  · exact UInt32.le_refl s.max
  · next h => exact UInt32.not_lt.mp h

theorem minAfter_le_index : s.minAfter index ≤ index := by
  rw [minAfter]
  split
  · next h => exact UInt32.le_of_lt h
  · exact UInt32.le_refl index

theorem minAfter_le_min : s.minAfter index ≤ s.min := by
  rw [minAfter]
  split
  · exact UInt32.le_refl s.min
  · next h => exact UInt32.not_lt.mp h

/-- The state after a call, whatever is in the array. -/
def written (s : PoolSet T) (index : UInt32) (cells : List (Option T)) (value : T) : PoolSet T where
  min := s.minAfter index
  max := s.maxAfter index
  maskPool := some (cells.set index.toNat (some value))

theorem Bounds.written (h : Bounds calls s) (index : UInt32) (cells : List (Option T)) (value : T) :
    Bounds (calls ++ [(index, value)]) (s.written index cells value) := by
  have hlast : (index, value) ∈ calls ++ [(index, value)] := List.mem_append_right _ (by simp)
  refine ⟨fun hnil => ?_, fun _ => ?_, fun _ => ?_, fun call hcall => ?_⟩
  · simp at hnil
  · by_cases hmin : s.min < index
    · have hne : calls ≠ [] := by
        intro hnil
        rw [(h.start hnil).1, UInt32.lt_iff_toNat_lt] at hmin
        have hlt := index.toNat_lt
        simp at hmin
        omega
      obtain ⟨call, hcall, heq⟩ := h.min_mem hne
      exact ⟨call, List.mem_append_left _ hcall, heq.trans (if_pos hmin).symm⟩
    · exact ⟨_, hlast, (if_neg hmin).symm⟩
  · by_cases hmax : index < s.max
    · have hne : calls ≠ [] := by
        intro hnil
        rw [(h.start hnil).2, UInt32.lt_iff_toNat_lt] at hmax
        exact Nat.not_lt_zero _ hmax
      obtain ⟨call, hcall, heq⟩ := h.max_mem hne
      exact ⟨call, List.mem_append_left _ hcall, heq.trans (maxAfter_of_lt hmax).symm⟩
    · exact ⟨_, hlast, (maxAfter_of_le (UInt32.not_lt.mp hmax)).symm⟩
  · rcases List.mem_append.mp hcall with hcall | hcall
    · obtain ⟨hmin, hmax⟩ := h.le call hcall
      exact ⟨UInt32.le_trans minAfter_le_min hmin, UInt32.le_trans hmax max_le_maxAfter⟩
    · cases List.mem_singleton.mp hcall
      exact ⟨minAfter_le_index, index_le_maxAfter⟩

/-- What a call leaves in an array that has the earlier values at all other places. -/
theorem Bounds.set (h : Bounds calls s) (hpool : s.poolFor index = some cells)
    (hlength : cells.length = (s.maxAfter index).toNat + 1)
    (hcell : ∀ other ≤ s.maxAfter index, other ≠ index →
      cells[other.toNat]? = some (lastSet calls other)) (value : T) :
    ∃ s' cells', s.set index value = some s' ∧ Holds (calls ++ [(index, value)]) s' cells' := by
  have hlt : index.toNat < cells.length := by
    have hle : index ≤ s.maxAfter index := index_le_maxAfter
    rw [UInt32.le_iff_toNat_le] at hle
    omega
  refine ⟨s.written index cells value, cells.set index.toNat (some value), ?_, ?_⟩
  · rw [PoolSet.set, hpool, Option.bind_some, if_pos hlt, PoolSet.written]
  · refine { h.written index cells value with pool := rfl, length := ?_, cell := ?_ }
    · rw [List.length_set, hlength]
      rfl
    · intro other hother
      rw [lastSet_concat]
      by_cases heq : index = other
      · rw [← heq, List.getElem?_set_self hlt, if_pos rfl]
      · have hne : index.toNat ≠ other.toNat := fun h => heq (UInt32.toNat_inj.mp h)
        rw [List.getElem?_set_ne hne, if_neg heq]
        exact hcell other hother (Ne.symm heq)

/-- The first call makes the array. -/
theorem holds_first (h : index ≠ 0xFFFFFFFF) (value : T) :
    ∃ s cells, ({} : PoolSet T).set index value = some s ∧ Holds [(index, value)] s cells := by
  have hstart : Bounds [] ({} : PoolSet T) := ⟨fun _ => ⟨rfl, rfl⟩, nofun, nofun, nofun⟩
  have hmax : ({} : PoolSet T).maxAfter index = index :=
    maxAfter_of_le (UInt32.le_iff_toNat_le.mpr (Nat.zero_le _))
  have hpool : ({} : PoolSet T).poolFor index = some (newPool index) := rfl
  refine hstart.set hpool ?_ (fun other hother _ => ?_) value
  · rw [newPool, List.length_replicate, toNat_add_one h, hmax]
  · rw [hmax, UInt32.le_iff_toNat_le] at hother
    rw [newPool, List.getElem?_replicate, toNat_add_one h, if_pos (by omega)]
    rfl

/-- A call that does not grow the array, or grows it by one cell. -/
theorem Holds.set (h : Holds calls s cells) (hfits : index ≠ 0xFFFFFFFF)
    (hgrows : index.toNat ≤ s.max.toNat + 1) (value : T) :
    ∃ s' cells', s.set index value = some s' ∧ Holds (calls ++ [(index, value)]) s' cells' := by
  by_cases hmax : s.max ≤ index
  · have hafter := maxAfter_of_le hmax
    have htarget : (newPool index : List (Option T)).length = index.toNat + 1 := by
      rw [newPool, List.length_replicate, toNat_add_one hfits]
    have hpool : s.poolFor index =
        some (cells.take index.toNat ++ (newPool index).drop index.toNat) := by
      have hlength := h.length
      rw [poolFor, h.pool]
      simp only [hafter, UInt32.le_refl, if_true, copyCells]
      rw [if_pos (by omega)]
    refine h.toBounds.set hpool ?_ (fun other hother hne => ?_) value
    · have hlength := h.length
      rw [hafter, List.length_append, List.length_take, List.length_drop]
      omega
    · rw [hafter] at hother
      have hlt : other.toNat < index.toNat := by
        apply Nat.lt_of_le_of_ne (UInt32.le_iff_toNat_le.mp hother)
        exact fun h => hne (UInt32.toNat_inj.mp h)
      have hlength := h.length
      rw [List.getElem?_append_left (by rw [List.length_take]; omega), List.getElem?_take_of_lt hlt]
      exact h.cell other (UInt32.le_iff_toNat_le.mpr (by omega))
  · have hlt := UInt32.not_le.mp hmax
    have hafter := maxAfter_of_lt hlt
    have hpool : s.poolFor index = some cells := by
      rw [poolFor, h.pool]
      simp only [hafter, hmax, if_false]
    refine h.toBounds.set hpool ?_ (fun other hother _ => ?_) value
    · rw [hafter, h.length]
    · rw [hafter] at hother
      exact h.cell other hother

/-- Outside the arrays nothing can be copied. -/
theorem Holds.set_eq_none (h : Holds calls s cells)
    (hindex : index = 0xFFFFFFFF ∨ s.max.toNat + 1 < index.toNat) (value : T) :
    s.set index value = none := by
  have hlength := h.length
  have hmax : s.max ≤ index := by
    rw [UInt32.le_iff_toNat_le]
    have hlt := s.max.toNat_lt
    rcases hindex with rfl | hindex
    · exact Nat.le_of_lt_succ hlt
    · omega
  have houtside : ¬ (index.toNat ≤ cells.length ∧
      index.toNat ≤ (newPool index : List (Option T)).length) := by
    rintro ⟨hsource, htarget⟩
    rcases hindex with rfl | hindex
    · rw [newPool, List.length_replicate] at htarget
      exact absurd htarget (by decide)
    · omega
  have hpool : s.poolFor index = none := by
    rw [poolFor, h.pool]
    simp only [maxAfter_of_le hmax, UInt32.le_refl, if_true, copyCells]
    exact if_neg houtside
  rw [PoolSet.set, hpool, Option.bind_none]

/-! ## Runs -/

section

variable {P Q : List (UInt32 × T) → UInt32 × T → Prop} {call : UInt32 × T}

theorem atEach_nil : AtEach P [] := by
  intro earlier call later h
  simp at h

theorem atEach_concat : AtEach P (calls ++ [call]) ↔ AtEach P calls ∧ P calls call := by
  constructor
  · intro h
    refine ⟨fun earlier other later heq => ?_, h calls call [] rfl⟩
    apply h earlier other (later ++ [call])
    rw [heq, List.append_assoc, List.cons_append]
  · rintro ⟨h, hlast⟩ earlier other later heq
    rcases List.eq_nil_or_concat later with rfl | ⟨init, last, rfl⟩
    · obtain ⟨rfl, hother⟩ := List.append_inj' heq rfl
      cases hother
      exact hlast
    · rw [List.concat_eq_append, ← List.cons_append, ← List.append_assoc] at heq
      obtain ⟨hcalls, -⟩ := List.append_inj' heq rfl
      exact h earlier other init hcalls

theorem AtEach.of_append {later : List (UInt32 × T)} (h : AtEach P (calls ++ later)) :
    AtEach P calls := by
  rintro earlier other rest rfl
  apply h earlier other (rest ++ later)
  rw [List.append_assoc, List.cons_append]

theorem atEach_congr (h : ∀ earlier call later, calls = earlier ++ call :: later →
    (P earlier call ↔ Q earlier call)) : AtEach P calls ↔ AtEach Q calls := by
  constructor
  · intro hP earlier call later heq
    exact (h earlier call later heq).mp (hP earlier call later heq)
  · intro hQ earlier call later heq
    exact (h earlier call later heq).mpr (hQ earlier call later heq)

end

/-- Some earlier index is the greatest one. -/
theorem Bounds.grows_iff (h : Bounds calls s) (hne : calls ≠ []) :
    (∃ other ∈ calls, index.toNat ≤ other.1.toNat + 1) ↔ index.toNat ≤ s.max.toNat + 1 := by
  constructor
  · rintro ⟨other, hother, hle⟩
    have hmax := UInt32.le_iff_toNat_le.mp (h.le other hother).2
    omega
  · intro hle
    obtain ⟨other, hother, heq⟩ := h.max_mem hne
    exact ⟨other, hother, by rwa [heq]⟩

/-- What is known of the state after calls. -/
def After (calls : List (UInt32 × T)) (s : PoolSet T) : Prop :=
  calls = [] ∧ s = {} ∨ calls ≠ [] ∧ ∃ cells, Holds calls s cells

/-- The index has a size of 32 bits and exceeds an earlier one by one at the most. -/
def Reaches (calls : List (UInt32 × T)) (call : UInt32 × T) : Prop :=
  call.1 ≠ 0xFFFFFFFF ∧ (calls ≠ [] → ∃ other ∈ calls, call.1.toNat ≤ other.1.toNat + 1)

theorem After.set_of_reaches {call : UInt32 × T} (h : After calls s) (hcall : Reaches calls call) :
    ∃ s', s.set call.1 call.2 = some s' ∧ After (calls ++ [call]) s' := by
  obtain ⟨hfits, hgrows⟩ := hcall
  have hne : calls ++ [call] ≠ [] := by simp
  rcases h with ⟨rfl, rfl⟩ | ⟨hcalls, cells, hholds⟩
  · obtain ⟨s, cells, hset, hs⟩ := holds_first hfits call.2
    exact ⟨s, hset, .inr ⟨hne, cells, hs⟩⟩
  · have hle := (hholds.grows_iff hcalls).mp (hgrows hcalls)
    obtain ⟨s', cells', hset, hs'⟩ := hholds.set hfits hle call.2
    exact ⟨s', hset, .inr ⟨hne, cells', hs'⟩⟩

theorem After.reaches_of_set {call : UInt32 × T} {s' : PoolSet T} (h : After calls s)
    (hset : s.set call.1 call.2 = some s') : Reaches calls call := by
  rcases h with ⟨rfl, rfl⟩ | ⟨hcalls, cells, hholds⟩
  · refine ⟨fun hlast => ?_, fun hne => absurd rfl hne⟩
    rw [hlast] at hset
    cases hset
  · have hindex : ¬ (call.1 = 0xFFFFFFFF ∨ s.max.toNat + 1 < call.1.toNat) := by
      intro hindex
      rw [hholds.set_eq_none hindex] at hset
      cases hset
    rw [not_or] at hindex
    exact ⟨hindex.1, fun _ => (hholds.grows_iff hcalls).mpr (Nat.le_of_not_lt hindex.2)⟩

theorem indicesFit_and_growsByOne_iff :
    IndicesFit calls ∧ GrowsByOne calls ↔ AtEach Reaches calls := by
  constructor
  · rintro ⟨hfits, hgrows⟩ earlier call later rfl
    exact ⟨hfits call (by simp), hgrows earlier call later rfl⟩
  · intro h
    refine ⟨fun call hcall => ?_, fun earlier call later heq => (h earlier call later heq).2⟩
    obtain ⟨earlier, later, rfl⟩ := List.append_of_mem hcall
    exact (h earlier call later rfl).1

theorem exists_after (h : AtEach Reaches calls) : ∃ s, setAll calls = some s ∧ After calls s := by
  induction calls using List.reverseRecOn with
  | nil => exact ⟨{}, rfl, .inl ⟨rfl, rfl⟩⟩
  | append_singleton calls call ih =>
      obtain ⟨hcalls, hcall⟩ := atEach_concat.mp h
      obtain ⟨s, hs, hafter⟩ := ih hcalls
      obtain ⟨s', hset, hafter'⟩ := hafter.set_of_reaches hcall
      refine ⟨s', ?_, hafter'⟩
      rw [setAll_concat, hs, Option.bind_some, hset]

theorem reaches_of_setAll (h : setAll calls = some s) : AtEach Reaches calls := by
  induction calls using List.reverseRecOn generalizing s with
  | nil => exact atEach_nil
  | append_singleton calls call ih =>
      rw [setAll_concat] at h
      obtain ⟨s₁, hs₁, hset⟩ := Option.bind_eq_some_iff.mp h
      have hcalls := ih hs₁
      obtain ⟨s₂, hs₂, hafter⟩ := exists_after hcalls
      cases hs₁.symm.trans hs₂
      exact atEach_concat.mpr ⟨hcalls, hafter.reaches_of_set hset⟩

theorem after_setAll (h : setAll calls = some s) : After calls s := by
  obtain ⟨s', hs', hafter⟩ := exists_after (reaches_of_setAll h)
  cases h.symm.trans hs'
  exact hafter

/-! ## Reading -/

theorem Holds.get_eq (h : Holds calls s cells) (index : UInt32) (defaultValue : T) :
    s.get index defaultValue = if index < s.min ∨ s.max < index then some defaultValue
      else lastSet calls index := by
  rw [get, h.pool]
  simp only
  by_cases houtside : index < s.min ∨ s.max < index
  · rw [if_pos houtside, if_pos houtside]
  · have hle : index ≤ s.max := UInt32.not_lt.mp fun hlt => houtside (.inr hlt)
    rw [if_neg houtside, if_neg houtside, h.cell index hle, Option.join_some]

/-- Outside its bounds nothing was set. -/
theorem Bounds.lastSet_eq_none (h : Bounds calls s) (hindex : index < s.min ∨ s.max < index) :
    lastSet calls index = none := by
  rw [lastSet_eq_none_iff]
  rintro call hcall rfl
  obtain ⟨hmin, hmax⟩ := h.le call hcall
  rcases hindex with hlt | hlt
  · exact UInt32.not_lt.mpr hmin hlt
  · exact UInt32.not_lt.mpr hmax hlt

theorem Holds.gapless_iff (h : Holds calls s cells) (hne : calls ≠ []) :
    (∀ index defaultValue,
        s.get index defaultValue = some ((lastSet calls index).getD defaultValue)) ↔
      Gapless calls := by
  constructor
  · intro hget first hfirst last hlast index hle hle'
    have hinside : ¬ (index < s.min ∨ s.max < index) := by
      rintro (hlt | hlt)
      · exact UInt32.not_lt.mpr (UInt32.le_trans (h.le first hfirst).1 hle) hlt
      · exact UInt32.not_lt.mpr (UInt32.le_trans hle' (h.le last hlast).2) hlt
    have hvalue := hget index first.2
    rw [h.get_eq, if_neg hinside] at hvalue
    apply lastSet_ne_none_iff.mp
    rw [hvalue]
    exact Option.some_ne_none _
  · intro hgapless index defaultValue
    rw [h.get_eq]
    by_cases houtside : index < s.min ∨ s.max < index
    · rw [if_pos houtside, h.lastSet_eq_none houtside, Option.getD_none]
    · rw [if_neg houtside]
      rw [not_or, UInt32.not_lt, UInt32.not_lt] at houtside
      obtain ⟨first, hfirst, hmin⟩ := h.min_mem hne
      obtain ⟨last, hlast, hmax⟩ := h.max_mem hne
      have hset := hgapless first hfirst last hlast index (hmin ▸ houtside.1) (hmax ▸ houtside.2)
      obtain ⟨value, hvalue⟩ := Option.ne_none_iff_exists'.mp (lastSet_ne_none_iff.mpr hset)
      rw [hvalue, Option.getD_some]

/-- `Get` answers like a map exactly when the array was always enough and has no gap. -/
theorem getsLastSet_iff (calls : List (UInt32 × T)) :
    GetsLastSet calls ↔ IndicesFit calls ∧ GrowsByOne calls ∧ Gapless calls := by
  rw [← and_assoc, indicesFit_and_growsByOne_iff]
  constructor
  · rintro ⟨s, hs, hget⟩
    refine ⟨reaches_of_setAll hs, ?_⟩
    rcases after_setAll hs with ⟨rfl, -⟩ | ⟨hne, cells, hholds⟩
    · nofun
    · exact (hholds.gapless_iff hne).mp hget
  · rintro ⟨hreaches, hgapless⟩
    obtain ⟨s, hs, hafter⟩ := exists_after hreaches
    refine ⟨s, hs, ?_⟩
    rcases hafter with ⟨rfl, rfl⟩ | ⟨hne, cells, hholds⟩
    · exact fun _ _ => rfl
    · exact (hholds.gapless_iff hne).mpr hgapless

/-! ## Copying -/

theorem Holds.none_notMem_take (h : Holds calls s cells)
    (hgrows : index.toNat ≤ s.max.toNat + 1) :
    none ∉ cells.take index.toNat ↔ ∀ other < index, ∃ call ∈ calls, call.1 = other := by
  have hcell (other : UInt32) (hlt : other < index) :
      (cells.take index.toNat)[other.toNat]? = some (lastSet calls other) := by
    rw [UInt32.lt_iff_toNat_lt] at hlt
    rw [List.getElem?_take_of_lt hlt]
    exact h.cell other (UInt32.le_iff_toNat_le.mpr (by omega))
  constructor
  · intro hnone other hlt
    apply lastSet_ne_none_iff.mp
    intro heq
    apply hnone
    rw [← heq]
    exact List.mem_of_getElem? (hcell other hlt)
  · intro hset hnone
    obtain ⟨i, hi⟩ := List.getElem?_of_mem hnone
    have hlt : i < index.toNat := by
      have hlength := (List.getElem?_eq_some_iff.mp hi).1
      rw [List.length_take] at hlength
      omega
    have hother : (UInt32.ofNat i).toNat = i := by
      rw [UInt32.toNat_ofNat']
      exact Nat.mod_eq_of_lt (Nat.lt_trans hlt index.toNat_lt)
    have hlt' : UInt32.ofNat i < index := by rwa [UInt32.lt_iff_toNat_lt, hother]
    have heq := hcell _ hlt'
    rw [hother, hi] at heq
    exact lastSet_ne_none_iff.mpr (hset _ hlt') (Option.some.inj heq).symm

theorem Holds.none_notMem_cellsRead (h : Holds calls s cells)
    (hgrows : index.toNat ≤ s.max.toNat + 1) :
    none ∉ s.cellsRead index ↔
      (s.max ≤ index → ∀ other < index, ∃ call ∈ calls, call.1 = other) := by
  rw [cellsRead, h.pool]
  simp only
  by_cases hmax : s.max ≤ index
  · rw [maxAfter_of_le hmax, if_pos (UInt32.le_refl index), h.none_notMem_take hgrows]
    exact ⟨fun h _ => h, fun h => h hmax⟩
  · rw [maxAfter_of_lt (UInt32.not_le.mp hmax), if_neg hmax]
    exact iff_of_true List.not_mem_nil fun h => absurd h hmax

theorem Bounds.forall_le_iff (h : Bounds calls s) (hne : calls ≠ []) :
    (∀ other ∈ calls, other.1 ≤ index) ↔ s.max ≤ index := by
  constructor
  · intro hle
    obtain ⟨other, hother, heq⟩ := h.max_mem hne
    exact heq ▸ hle other hother
  · intro hmax other hother
    exact UInt32.le_trans (h.le other hother).2 hmax

theorem copiesWritten_iff (h : setAll calls = some s) :
    CopiesWritten calls ↔ FilledBelow calls := by
  have hreaches := reaches_of_setAll h
  apply atEach_congr
  rintro earlier call later rfl
  obtain ⟨s₁, hs₁, hafter⟩ := exists_after hreaches.of_append
  have hread : (∀ s, setAll earlier = some s → none ∉ s.cellsRead call.1) ↔
      none ∉ s₁.cellsRead call.1 := by
    constructor
    · intro hall
      exact hall s₁ hs₁
    · intro hnone s₂ hs₂
      cases hs₁.symm.trans hs₂
      exact hnone
  rw [hread]
  rcases hafter with ⟨rfl, rfl⟩ | ⟨hne, cells, hholds⟩
  · exact iff_of_true List.not_mem_nil fun hne => absurd rfl hne
  · have hgrows := (hholds.grows_iff hne).mp ((hreaches earlier call later rfl).2 hne)
    rw [hholds.none_notMem_cellsRead hgrows, hholds.forall_le_iff hne]
    exact ⟨fun h _ => h, fun h => h hne⟩

/-- Where all lower indices were set the array grows by one cell at the most. -/
theorem FilledBelow.growsByOne (h : FilledBelow calls) : GrowsByOne calls := by
  intro earlier call later heq hne
  by_cases hle : ∀ other ∈ earlier, other.1 ≤ call.1
  · by_cases hzero : call.1.toNat = 0
    · obtain ⟨other, hother⟩ := List.exists_mem_of_ne_nil earlier hne
      exact ⟨other, hother, by omega⟩
    · have hpred : (UInt32.ofNat (call.1.toNat - 1)).toNat = call.1.toNat - 1 := by
        have hlt := call.1.toNat_lt
        rw [UInt32.toNat_ofNat']
        exact Nat.mod_eq_of_lt (by omega)
      have hlt : UInt32.ofNat (call.1.toNat - 1) < call.1 := by
        rw [UInt32.lt_iff_toNat_lt, hpred]
        omega
      obtain ⟨other, hother, hindex⟩ := h earlier call later heq hne hle _ hlt
      refine ⟨other, hother, ?_⟩
      rw [hindex, hpred]
      omega
  · simp only [not_forall] at hle
    obtain ⟨other, hother, hlt⟩ := hle
    rw [UInt32.le_iff_toNat_le] at hlt
    exact ⟨other, hother, by omega⟩

/-- The set is a map with a default, and reads no cell that was never written. -/
theorem getsLastSet_and_copiesWritten_iff (calls : List (UInt32 × T)) :
    GetsLastSet calls ∧ CopiesWritten calls ↔
      IndicesFit calls ∧ FilledBelow calls ∧ Gapless calls := by
  rw [getsLastSet_iff]
  constructor
  · rintro ⟨⟨hfits, hgrows, hgapless⟩, hcopies⟩
    obtain ⟨s, hs, -⟩ := exists_after (indicesFit_and_growsByOne_iff.mp ⟨hfits, hgrows⟩)
    exact ⟨hfits, (copiesWritten_iff hs).mp hcopies, hgapless⟩
  · rintro ⟨hfits, hfilled, hgapless⟩
    obtain ⟨s, hs, -⟩ := exists_after (indicesFit_and_growsByOne_iff.mp ⟨hfits, hfilled.growsByOne⟩)
    exact ⟨⟨hfits, hfilled.growsByOne, hgapless⟩, (copiesWritten_iff hs).mpr hfilled⟩

/-- Of two indices the lower one is set last, and the cell between them is read. -/
theorem not_getsLastSet : ¬ (GetsLastSet [(5, 1), (2, 1)] ∧ CopiesWritten [(5, 1), (2, 1)]) := by
  rintro ⟨⟨s, hs, hget⟩, -⟩
  have hread := hget 3 0
  cases hs
  cases hread

end PoolSet

end SRCommon
