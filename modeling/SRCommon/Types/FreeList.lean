import Mathlib.Data.List.Induction
import Mathlib.Data.List.Nodup
import Mathlib.Order.Lattice
import Mathlib.Tactic.Common
import SRCommon.Lib.PartialRun
import SRCommon.Types.ObjectPool

/-!
# The free list of a pool

The free list is exact when it holds each dead index once. Every operation
keeps it exact except `ShrinkToFit`, which drops dead slots at the end of the
vector and leaves their indices on the stack.
-/

namespace SRCommon

namespace ObjectPool

variable {bits : ℕ} {T : Type} {p : ObjectPool bits T}

/-- The entries are different, below the size, and exactly the indices of dead slots. -/
structure Exact (p : ObjectPool bits T) : Prop where
  nodup : p.freeIndices.Nodup
  mem_iff : ∀ i, i ∈ p.freeIndices ↔ ∃ object, p.objects[i]? = some (false, object)

def liveCount (p : ObjectPool bits T) : ℕ := p.objects.countP Prod.fst

/-- What the pool relies on: `Index` reaches every slot and `uint32_t` every count. -/
structure Sound (p : ObjectPool bits T) : Prop where
  exact : p.Exact
  size_le : p.objects.length ≤ 2 ^ bits
  count_lt : p.liveCount < 2 ^ 32

end ObjectPool

section

variable {bits : ℕ} {T : Type} [BEq T]

/-- What a call leaves of an object that is alive at an index. -/
def PoolCall.keeps (p : ObjectPool bits T) (i : ℕ) (object : T) : PoolCall T → Option T
  | .add _ | .shrinkToFit => some object
  | .removeByIndex index => if i = index then none else some object
  | .removeByObject other => if p.find? other = some i then none else some object
  | .removeIf condition =>
      if (condition i object).1 then none else some (condition i object).2
  | .clear => none

/-- The calls do not name dead objects or indices outside the pool. -/
def PoolCall.NamesAlive (p : ObjectPool bits T) : PoolCall T → Prop
  | .removeByIndex index => p.isAlive index
  | .removeByObject object => ∀ i, p.find? object = some i → p.isAlive i
  | _ => True

/-- `ShrinkToFit` finds no dead tail below a live slot, and `Add` finds numbers for its slot. -/
def PoolCall.Fits (p : ObjectPool bits T) : PoolCall T → Prop
  | .add _ => (p.freeIndices = [] → p.objects.length < 2 ^ bits) ∧ p.liveCount + 1 < 2 ^ 32
  | .shrinkToFit => p.liveCount = 0 ∨ p.isAlive (p.objects.length - 1)
  | _ => True

/-- What a call is to leave behind. -/
structure PoolCall.Serves (p : ObjectPool bits T) (call : PoolCall T) (p' : ObjectPool bits T) :
    Prop where
  exact : p'.Exact
  count : p'.getAliveCount.toNat = p'.liveCount
  stored : ∀ object, call = .add object → ∃ index, p.add object = some (index, p') ∧
    p.isAlive index = false ∧ p'.at? index = some object
  kept : ∀ i object, p.at? i = some object → p'.at? i = call.keeps p i object

end

namespace ObjectPool

variable {bits : ℕ} {T : Type} {p p' : ObjectPool bits T}

/-! ## Slots -/

theorem at?_eq_some {i : ℕ} {object : T} :
    p.at? i = some object ↔ p.objects[i]? = some (true, object) := by
  rw [at?]
  rcases p.objects[i]? with _ | ⟨_ | _, other⟩ <;> simp

theorem isAlive_eq_true {i : ℕ} :
    p.isAlive i = true ↔ ∃ object, p.objects[i]? = some (true, object) := by
  rw [isAlive]
  rcases p.objects[i]? with _ | ⟨_ | _, other⟩ <;> simp

theorem isAlive_eq_false_of_dead {i : ℕ} {object : T} (h : p.objects[i]? = some (false, object)) :
    p.isAlive i = false := by
  rw [isAlive, h]

theorem lt_length_of_getElem? {i : ℕ} {slot : Bool × T} (h : p.objects[i]? = some slot) :
    i < p.objects.length :=
  (List.getElem?_eq_some_iff.mp h).1

/-- The indices of the dead slots, in order. -/
def deadIndices (slots : List (Bool × T)) : List ℕ :=
  (List.range slots.length).filter fun i => !((slots[i]?.map Prod.fst).getD true)

theorem mem_deadIndices {slots : List (Bool × T)} {i : ℕ} :
    i ∈ deadIndices slots ↔ ∃ object, slots[i]? = some (false, object) := by
  rw [deadIndices, List.mem_filter, List.mem_range]
  constructor
  · rintro ⟨hi, hdead⟩
    rw [List.getElem?_eq_getElem hi] at hdead ⊢
    have hfst : slots[i].1 = false := by simpa using hdead
    exact ⟨slots[i].2, congrArg some (Prod.ext hfst rfl)⟩
  · rintro ⟨object, hslot⟩
    exact ⟨(List.getElem?_eq_some_iff.mp hslot).1, by rw [hslot]; rfl⟩

theorem deadIndices_append (slots : List (Bool × T)) (slot : Bool × T) :
    deadIndices (slots ++ [slot]) =
      deadIndices slots ++ if slot.1 then [] else [slots.length] := by
  rw [deadIndices, List.length_append, List.length_singleton, List.range_succ,
    List.filter_append, deadIndices]
  congr 1
  · apply List.filter_congr
    intro i hi
    rw [List.getElem?_append_left (List.mem_range.mp hi)]
  · obtain ⟨_ | _, object⟩ := slot <;> simp

theorem length_deadIndices (slots : List (Bool × T)) :
    slots.countP Prod.fst + (deadIndices slots).length = slots.length := by
  induction slots using List.reverseRecOn with
  | nil => rfl
  | append_singleton slots slot ih =>
      rw [deadIndices_append, List.countP_append, List.length_append, List.length_append,
        List.countP_singleton]
      obtain ⟨_ | _, object⟩ := slot <;> simp <;> omega

theorem Exact.perm_deadIndices (h : p.Exact) : p.freeIndices.Perm (deadIndices p.objects) := by
  have hnodup : (deadIndices p.objects).Nodup := List.nodup_range.filter _
  rw [List.perm_ext_iff_of_nodup h.nodup hnodup]
  intro i
  rw [h.mem_iff, mem_deadIndices]

/-- Live slots and free indices make up the vector. -/
theorem Exact.liveCount_add (h : p.Exact) :
    p.liveCount + p.freeIndices.length = p.objects.length := by
  rw [h.perm_deadIndices.length_eq]
  exact length_deadIndices p.objects

theorem Exact.toNat_getAliveCount (h : p.Exact) (hcount : p.liveCount < 2 ^ 32) :
    p.getAliveCount.toNat = p.liveCount := by
  have hsum := h.liveCount_add
  rw [getAliveCount, UInt64.toNat_toUInt32, UInt64.toNat_sub, UInt64.toNat_ofNat',
    UInt64.toNat_ofNat']
  omega

/-! ## Operations -/

theorem exact_empty : ({} : ObjectPool bits T).Exact := ⟨List.nodup_nil, fun i => by simp⟩

theorem sound_empty : ({} : ObjectPool bits T).Sound :=
  ⟨exact_empty, Nat.zero_le _, Nat.two_pow_pos 32⟩

theorem Exact.eq_of_full (h : p.Exact) (hfree : p.freeIndices = []) (i : ℕ) (object : T) :
    p.objects[i]? ≠ some (false, object) := by
  intro hslot
  have hmem := (h.mem_iff i).mpr ⟨object, hslot⟩
  rw [hfree] at hmem
  cases hmem

/-- With an empty stack the object goes behind the vector. -/
theorem Sound.add_of_full (h : p.Sound) (object : T) (hfree : p.freeIndices = [])
    (hsize : p.objects.length < 2 ^ bits) (hcount : p.liveCount + 1 < 2 ^ 32) :
    ∃ p', p.add object = some (p.objects.length, p') ∧ p'.Sound ∧
      p'.objects = p.objects ++ [(true, object)] := by
  refine ⟨{ p with objects := p.objects ++ [(true, object)] }, ?_, ⟨⟨?_, ?_⟩, ?_, ?_⟩, rfl⟩
  · rw [add, hfree]
    simp only
    rw [toIndex, Nat.mod_eq_of_lt hsize]
  · exact h.exact.nodup
  · intro i
    simp only [hfree, List.not_mem_nil, false_iff, not_exists]
    intro other hslot
    rcases lt_trichotomy i p.objects.length with hlt | rfl | hgt
    · rw [List.getElem?_append_left hlt] at hslot
      exact h.exact.eq_of_full hfree i other hslot
    · simp at hslot
    · rw [List.getElem?_eq_none (by simpa using Nat.succ_le_of_lt hgt)] at hslot
      cases hslot
  · simpa using Nat.succ_le_of_lt hsize
  · simpa [liveCount, List.countP_append] using hcount

/-- A dead slot comes to life and its index leaves the stack. -/
theorem Sound.add_of_free (h : p.Sound) (object : T) {index : ℕ} {rest : List ℕ}
    (hfree : p.freeIndices = index :: rest) (hcount : p.liveCount + 1 < 2 ^ 32) :
    ∃ p', p.add object = some (index, p') ∧ p'.Sound ∧
      (∃ dead, p.objects[index]? = some (false, dead)) ∧
      p'.objects = p.objects.set index (true, object) := by
  obtain ⟨dead, hdead⟩ := (h.exact.mem_iff index).mp (by simp [hfree])
  have hlt := lt_length_of_getElem? hdead
  have hnodup := h.exact.nodup
  rw [hfree, List.nodup_cons] at hnodup
  have hexact : (⟨p.objects.set index (true, object), rest⟩ : ObjectPool bits T).Exact := by
    refine ⟨hnodup.2, fun i => ?_⟩
    rcases eq_or_ne index i with rfl | hne
    · simp [hlt, hnodup.1]
    · have hmem := h.exact.mem_iff i
      rw [hfree, List.mem_cons] at hmem
      simp only [List.getElem?_set_ne hne, ← hmem]
      simp [hne.symm]
  refine ⟨_, ?_, ⟨hexact, ?_, ?_⟩, ⟨dead, hdead⟩, rfl⟩
  · rw [add, hfree]
    simp only
    rw [if_pos hlt]
  · simpa using h.size_le
  · have hsum := h.exact.liveCount_add
    have hsum' := hexact.liveCount_add
    rw [hfree] at hsum
    simp only [List.length_set, List.length_cons] at hsum hsum'
    omega

/-- A live slot dies and its index is pushed. -/
theorem Sound.kill (h : p.Sound) (moved : T → T) {index : ℕ} {object : T}
    (hslot : p.objects[index]? = some (true, object)) :
    (p.kill moved index object).Sound ∧
      ∀ i, (p.kill moved index object).at? i = if i = index then none else p.at? i := by
  have hlt := lt_length_of_getElem? hslot
  have hindex : toIndex bits index = index := Nat.mod_eq_of_lt (hlt.trans_le h.size_le)
  have hnotMem : index ∉ p.freeIndices := by
    rw [h.exact.mem_iff, hslot]
    rintro ⟨other, hother⟩
    cases hother
  have hexact : (p.kill moved index object).Exact := by
    refine ⟨?_, fun i => ?_⟩
    · simpa [ObjectPool.kill, hindex] using ⟨hnotMem, h.exact.nodup⟩
    · rw [ObjectPool.kill, hindex, List.mem_cons]
      rcases eq_or_ne index i with rfl | hne
      · simp [hlt]
      · simp only [List.getElem?_set_ne hne, ← h.exact.mem_iff i]
        simp [hne.symm]
  refine ⟨⟨hexact, by simpa [ObjectPool.kill] using h.size_le, ?_⟩, fun i => ?_⟩
  · have hsum := h.exact.liveCount_add
    have hsum' := hexact.liveCount_add
    have hcount := h.count_lt
    have hlength : (p.kill moved index object).objects.length = p.objects.length :=
      List.length_set
    rw [hlength, ObjectPool.kill, List.length_cons] at hsum'
    rw [← ObjectPool.kill] at hsum'
    omega
  · rw [at?, ObjectPool.kill]
    rcases eq_or_ne index i with rfl | hne
    · simp [hlt]
    · simp only [List.getElem?_set_ne hne, if_neg hne.symm]
      rfl

/-- What `RemoveIf` makes of a slot. -/
def settle (moved : T → T) (condition : ℕ → T → Bool × T) (index : ℕ) : Bool × T → Bool × T
  | (false, object) => (false, object)
  | (true, object) =>
      if (condition index object).1 then (false, moved (condition index object).2)
      else (true, (condition index object).2)

theorem getElem?_removeIfFrom (moved : T → T) (condition : ℕ → T → Bool × T)
    (slots : List (Bool × T)) {k : ℕ} (hk : k + slots.length ≤ 2 ^ bits) (i : ℕ) :
    (removeIfFrom moved bits condition k slots).1[i]? =
      slots[i]?.map (settle moved condition (k + i)) := by
  induction slots generalizing k i with
  | nil => rfl
  | cons slot slots ih =>
      rw [List.length_cons] at hk
      have hindex : toIndex bits k = k := Nat.mod_eq_of_lt (by omega)
      have htail (i : ℕ) : (removeIfFrom moved bits condition (k + 1) slots).1[i]? =
          slots[i]?.map (settle moved condition (k + (i + 1))) := by
        rw [show k + (i + 1) = k + 1 + i by omega]
        exact ih (show k + 1 + slots.length ≤ 2 ^ bits by omega) i
      obtain ⟨_ | _, object⟩ := slot
      · cases i with
        | zero => rfl
        | succ i => simpa [removeIfFrom] using htail i
      · rw [removeIfFrom, hindex]
        cases hremove : (condition k object).1 with
        | false =>
            cases i with
            | zero => simp [settle, hremove]
            | succ i => simpa [hremove] using htail i
        | true =>
            cases i with
            | zero => simp [settle, hremove]
            | succ i => simpa [hremove] using htail i

/-- The indices that `RemoveIf` pushes are those of the live slots it settles as dead. -/
theorem mem_removeIfFrom (moved : T → T) (condition : ℕ → T → Bool × T)
    (slots : List (Bool × T)) {k : ℕ} (hk : k + slots.length ≤ 2 ^ bits) (i : ℕ) :
    i ∈ (removeIfFrom moved bits condition k slots).2.1 ↔ ∃ j object, i = k + j ∧
      slots[j]? = some (true, object) ∧ (condition i object).1 = true := by
  induction slots generalizing k with
  | nil => simp [removeIfFrom]
  | cons slot slots ih =>
      rw [List.length_cons] at hk
      have hindex : toIndex bits k = k := Nat.mod_eq_of_lt (by omega)
      have htail := ih (show k + 1 + slots.length ≤ 2 ^ bits by omega)
      have hsplit : (∃ j object, i = k + j ∧ (slot :: slots)[j]? = some (true, object) ∧
          (condition i object).1 = true) ↔
          (i = k ∧ ∃ object, slot = (true, object) ∧ (condition i object).1 = true) ∨
            i ∈ (removeIfFrom moved bits condition (k + 1) slots).2.1 := by
        rw [htail]
        constructor
        · rintro ⟨_ | j, object, rfl, hslot, hremove⟩
          · exact .inl ⟨rfl, object, by simpa using hslot, hremove⟩
          · exact .inr ⟨j, object, by omega, hslot, hremove⟩
        · rintro (⟨rfl, object, rfl, hremove⟩ | ⟨j, object, rfl, hslot, hremove⟩)
          · exact ⟨0, object, rfl, rfl, hremove⟩
          · exact ⟨j + 1, object, by omega, hslot, hremove⟩
      rw [hsplit]
      obtain ⟨_ | _, object⟩ := slot
      · simp [removeIfFrom]
      · rw [removeIfFrom, hindex]
        cases hremove : (condition k object).1 with
        | false =>
            simp only [hremove, if_true, Bool.false_eq_true, if_false, Prod.mk.injEq, true_and]
            constructor
            · exact .inr
            · rintro (⟨rfl, other, rfl, hother⟩ | hmem)
              · simp [hremove] at hother
              · exact hmem
        | true =>
            simp only [hremove, if_true, List.mem_cons, Prod.mk.injEq, true_and]
            constructor
            · rintro (rfl | hmem)
              · exact .inl ⟨rfl, object, rfl, hremove⟩
              · exact .inr hmem
            · rintro (⟨rfl, -⟩ | hmem)
              · exact .inl rfl
              · exact .inr hmem

theorem nodup_removeIfFrom (moved : T → T) (condition : ℕ → T → Bool × T)
    (slots : List (Bool × T)) {k : ℕ} (hk : k + slots.length ≤ 2 ^ bits) :
    (removeIfFrom moved bits condition k slots).2.1.Nodup := by
  induction slots generalizing k with
  | nil => exact List.nodup_nil
  | cons slot slots ih =>
      rw [List.length_cons] at hk
      have hindex : toIndex bits k = k := Nat.mod_eq_of_lt (by omega)
      have hk' : k + 1 + slots.length ≤ 2 ^ bits := by omega
      have hnotMem : k ∉ (removeIfFrom moved bits condition (k + 1) slots).2.1 := by
        rw [mem_removeIfFrom moved condition slots hk']
        rintro ⟨j, object, hj, -⟩
        omega
      obtain ⟨_ | _, object⟩ := slot
      · exact ih hk'
      · rw [removeIfFrom, hindex]
        cases hremove : (condition k object).1 with
        | false => simpa [hremove] using ih hk'
        | true => simpa [hremove] using ⟨hnotMem, ih hk'⟩

theorem Sound.removeIf (h : p.Sound) (moved : T → T) (condition : ℕ → T → Bool × T) :
    (p.removeIf moved condition).2.Sound ∧ ∀ i,
      (p.removeIf moved condition).2.objects[i]? =
        p.objects[i]?.map (settle moved condition i) := by
  have hk : 0 + p.objects.length ≤ 2 ^ bits := by simpa using h.size_le
  have hslots (i : ℕ) : (p.removeIf moved condition).2.objects[i]? =
      p.objects[i]?.map (settle moved condition i) := by
    simpa [ObjectPool.removeIf] using getElem?_removeIfFrom moved condition p.objects hk i
  have hmem (i : ℕ) : i ∈ (p.removeIf moved condition).2.freeIndices ↔
      (∃ object, p.objects[i]? = some (true, object) ∧ (condition i object).1 = true) ∨
        i ∈ p.freeIndices := by
    simp [ObjectPool.removeIf, mem_removeIfFrom moved condition p.objects hk]
  have hexact : (p.removeIf moved condition).2.Exact := by
    refine ⟨?_, fun i => ?_⟩
    · refine List.nodup_append.mpr ⟨?_, h.exact.nodup, ?_⟩
      · rw [List.nodup_reverse]
        exact nodup_removeIfFrom moved condition p.objects hk
      · rintro i hi j hj rfl
        rw [List.mem_reverse, mem_removeIfFrom moved condition p.objects hk] at hi
        obtain ⟨j, object, hij, hslot, -⟩ := hi
        obtain ⟨other, hother⟩ := (h.exact.mem_iff i).mp hj
        rw [hij, Nat.zero_add, hslot] at hother
        cases hother
    · rw [hmem, hslots, h.exact.mem_iff]
      rcases p.objects[i]? with _ | ⟨_ | _, object⟩
      · simp
      · simp [settle]
      · cases hremove : (condition i object).1 <;> simp [settle, hremove]
  have hlength : (p.removeIf moved condition).2.objects.length = p.objects.length := by
    apply le_antisymm
    · rw [← List.getElem?_eq_none_iff, hslots, List.getElem?_eq_none le_rfl]
      rfl
    · have hnone := hslots (p.removeIf moved condition).2.objects.length
      rw [List.getElem?_eq_none le_rfl, eq_comm, Option.map_eq_none_iff] at hnone
      exact List.getElem?_eq_none_iff.mp hnone
  refine ⟨⟨hexact, hlength ▸ h.size_le, ?_⟩, hslots⟩
  have hsum := h.exact.liveCount_add
  have hsum' := hexact.liveCount_add
  have hcount := h.count_lt
  have hfree : p.freeIndices.length ≤ (p.removeIf moved condition).2.freeIndices.length := by
    simp [ObjectPool.removeIf]
  rw [hlength] at hsum'
  omega

theorem Exact.liveCount_eq_zero_iff (h : p.Exact) :
    p.liveCount = 0 ↔ p.freeIndices.length = p.objects.length := by
  have hsum := h.liveCount_add
  constructor <;> intro heq <;> omega

/-- With no live slot the pool is emptied, and with a live one at the end nothing is dropped. -/
theorem Exact.shrinkToFit_eq_some (h : p.Exact)
    (hfits : p.liveCount = 0 ∨ p.isAlive (p.objects.length - 1)) :
    p.shrinkToFit = some (if p.liveCount = 0 then {} else p) := by
  rw [shrinkToFit]
  simp only [← h.liveCount_eq_zero_iff]
  split
  · rfl
  · rename_i hlive
    obtain ⟨object, hlast⟩ := isAlive_eq_true.mp (hfits.resolve_left hlive)
    have hne : p.objects ≠ [] := by
      intro hnil
      simp [hnil] at hlast
    have hcount : countDead p.objects (p.objects.length - 1) = 0 := by
      cases hindex : p.objects.length - 1 with
      | zero =>
          rw [hindex] at hlast
          simp [countDead, hlast]
      | succ index =>
          rw [hindex] at hlast
          simp [countDead, hlast]
    rw [if_neg hne, if_pos hcount]

/-- Without live slots nothing can be read. -/
theorem at?_eq_none_of_liveCount (h : p.liveCount = 0) (i : ℕ) : p.at? i = none := by
  rw [Option.eq_none_iff_forall_ne_some]
  intro object hat
  rw [liveCount, List.countP_eq_zero] at h
  exact h _ (List.mem_of_getElem? (at?_eq_some.mp hat)) rfl

/-- What `Add` does: a slot that was not alive holds the object, and no other slot changes. -/
theorem Sound.add (h : p.Sound) (object : T)
    (hfits : (p.freeIndices = [] → p.objects.length < 2 ^ bits) ∧ p.liveCount + 1 < 2 ^ 32) :
    ∃ index p', p.add object = some (index, p') ∧ p'.Sound ∧ p.isAlive index = false ∧
      p'.at? index = some object ∧ ∀ i x, p.at? i = some x → p'.at? i = some x := by
  obtain ⟨hsize, hcount⟩ := hfits
  cases hfree : p.freeIndices with
  | nil =>
      obtain ⟨p', hadd, hsound, hobjects⟩ := h.add_of_full object hfree (hsize hfree) hcount
      refine ⟨p.objects.length, p', hadd, hsound, ?_, ?_, fun i x hx => ?_⟩
      · rw [isAlive, List.getElem?_eq_none le_rfl]
      · rw [at?_eq_some, hobjects, List.getElem?_concat_length]
      · rw [at?_eq_some] at hx ⊢
        rw [hobjects, List.getElem?_append_left (lt_length_of_getElem? hx), hx]
  | cons index rest =>
      obtain ⟨p', hadd, hsound, ⟨dead, hdead⟩, hobjects⟩ := h.add_of_free object hfree hcount
      refine ⟨index, p', hadd, hsound, isAlive_eq_false_of_dead hdead, ?_, fun i x hx => ?_⟩
      · rw [at?_eq_some, hobjects, List.getElem?_set_self (lt_length_of_getElem? hdead)]
      · rw [at?_eq_some] at hx ⊢
        have hne : index ≠ i := by
          rintro rfl
          rw [hdead] at hx
          cases hx
        rw [hobjects, List.getElem?_set_ne hne, hx]

theorem Sound.removeByIndex (h : p.Sound) (moved : T → T) {index : ℕ} (halive : p.isAlive index) :
    ∃ object p', p.removeByIndex moved index = some (object, p') ∧ p'.Sound ∧
      ∀ i, p'.at? i = if i = index then none else p.at? i := by
  obtain ⟨object, hslot⟩ := isAlive_eq_true.mp halive
  obtain ⟨hsound, hat⟩ := h.kill moved hslot
  exact ⟨object, _, by rw [ObjectPool.removeByIndex, hslot], hsound, hat⟩

/-! ## Runs -/

section

variable [BEq T] {moved : T → T}

theorem Sound.serves {call : PoolCall T} (h : p'.Sound)
    (hstored : ∀ object, call = .add object → ∃ index, p.add object = some (index, p') ∧
      p.isAlive index = false ∧ p'.at? index = some object)
    (hkept : ∀ i object, p.at? i = some object → p'.at? i = call.keeps p i object) :
    call.Serves p p' :=
  ⟨h.exact, h.exact.toNat_getAliveCount h.count_lt, hstored, hkept⟩

/-- One call on live objects that fits keeps the pool sound and serves. -/
theorem Sound.step (h : p.Sound) {call : PoolCall T}
    (hcall : call.NamesAlive p ∧ call.Fits p) :
    ∃ r, p.step moved call = some r ∧ call.Serves p r.1 ∧ r.1.Sound := by
  obtain ⟨hnames, hfits⟩ := hcall
  cases call with
  | add object =>
      obtain ⟨index, p', hadd, hsound, hdead, hat, hkept⟩ := h.add object hfits
      refine ⟨(p', { index := some index }), by simp [ObjectPool.step, hadd], ?_, hsound⟩
      refine hsound.serves (fun other heq => ?_) hkept
      cases heq
      exact ⟨index, hadd, hdead, hat⟩
  | removeByIndex index =>
      obtain ⟨object, p', hremove, hsound, hat⟩ := h.removeByIndex moved hnames
      refine ⟨(p', { removed := [object] }), by simp [ObjectPool.step, hremove], ?_, hsound⟩
      refine hsound.serves (fun _ heq => by cases heq) fun i x hx => ?_
      rw [hat, hx]
      rfl
  | removeByObject object =>
      cases hfind : p.find? object with
      | none =>
          refine ⟨(p, {}), by simp [ObjectPool.step, removeByObject, hfind], ?_, h⟩
          refine h.serves (fun _ heq => by cases heq) fun i x hx => ?_
          simpa [PoolCall.keeps, hfind] using hx
      | some index =>
          obtain ⟨x, p', hremove, hsound, hat⟩ :=
            h.removeByIndex moved (hnames index hfind)
          refine ⟨(p', {}), by simp [ObjectPool.step, removeByObject, hfind, hremove], ?_, hsound⟩
          refine hsound.serves (fun _ heq => by cases heq) fun i x hx => ?_
          rw [hat, hx, PoolCall.keeps, hfind]
          simp [eq_comm]
  | removeIf condition =>
      obtain ⟨hsound, hslots⟩ := h.removeIf moved condition
      refine ⟨_, rfl, ?_, hsound⟩
      refine hsound.serves (fun _ heq => by cases heq) fun i x hx => ?_
      rw [at?_eq_some] at hx
      rw [at?, hslots, hx]
      cases hremove : (condition i x).1 <;> simp [settle, PoolCall.keeps, hremove]
  | shrinkToFit =>
      have hshrink := h.exact.shrinkToFit_eq_some hfits
      refine ⟨(if p.liveCount = 0 then {} else p, {}), by simp [ObjectPool.step, hshrink], ?_, ?_⟩
      · split
        · rename_i hzero
          refine sound_empty.serves (fun _ heq => by cases heq) fun i x hx => ?_
          rw [at?_eq_none_of_liveCount hzero] at hx
          cases hx
        · exact h.serves (fun _ heq => by cases heq) fun _ _ hx => hx
      · split
        · exact sound_empty
        · exact h
  | clear =>
      refine ⟨({}, {}), rfl, ?_, sound_empty⟩
      exact sound_empty.serves (fun _ heq => by cases heq) fun _ _ _ => rfl

/-- Along calls on live objects that fit, each call serves. -/
theorem serves_of_fits (calls : List (PoolCall T))
    (h : Steps.Along (step moved) (fun (p : ObjectPool bits T) call =>
      call.NamesAlive p ∧ call.Fits p) {} calls) :
    Steps.Always (step moved) (fun (p : ObjectPool bits T) call p' => call.Serves p p') {} calls :=
  h.always (fun _ _ hsound hcall => hsound.step hcall) sound_empty

theorem serves_of_fits_sample :
    Steps.Always (step id) (fun (p : ObjectPool 64 ℕ) call p' => call.Serves p p') {}
      [.add 7, .shrinkToFit, .removeByObject 7] := by
  apply serves_of_fits
  refine ⟨⟨trivial, fun _ => by decide, by decide⟩, fun r hr => ?_⟩
  obtain rfl := Option.get_of_eq_some (by rfl) hr
  refine ⟨⟨trivial, Or.inr (by decide)⟩, fun r hr => ?_⟩
  obtain rfl := Option.get_of_eq_some (by rfl) hr
  refine ⟨⟨fun i hi => ?_, trivial⟩, fun _ _ => trivial⟩
  obtain rfl := Option.get_of_eq_some (by rfl) hi
  decide

/-- Two objects are added, the second is removed, and the vector shrinks below its index. -/
theorem not_serves_of_shrinkToFit :
    ¬∀ calls : List (PoolCall ℕ),
      Steps.Along (step id) (fun (p : ObjectPool 64 ℕ) call => call.NamesAlive p) {} calls →
        Steps.Always (step id) (fun (p : ObjectPool 64 ℕ) call p' => call.Serves p p') {} calls := by
  intro hall
  obtain ⟨r, hr, -, r', hr', -, s, hs, -, s', hs', hserves, -⟩ :=
    hall [.add 7, .add 8, .removeByIndex 1, .shrinkToFit]
      ⟨trivial, fun r hr => ⟨trivial, fun r' hr' => ⟨by
        obtain rfl := Option.get_of_eq_some (by rfl) hr
        obtain rfl := Option.get_of_eq_some (by rfl) hr'
        rfl, fun _ _ => ⟨trivial, fun _ _ => trivial⟩⟩⟩⟩
  obtain rfl := Option.get_of_eq_some (by rfl) hr
  obtain rfl := Option.get_of_eq_some (by rfl) hr'
  obtain rfl := Option.get_of_eq_some (by rfl) hs
  obtain rfl := Option.get_of_eq_some (by rfl) hs'
  obtain ⟨object, hslot⟩ := (hserves.exact.mem_iff 1).mp (by decide)
  cases hslot

end

end ObjectPool

end SRCommon
