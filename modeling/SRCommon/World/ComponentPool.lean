import Mathlib.Order.BooleanAlgebra.Set
import SRCommon.Lib.PartialRun
import SRCommon.Lib.SlotTable
import SRCommon.World.SceneUpdater

/-!
# Components in the pool

The pool is a slot table, and a registered component stores the index of its
slot. The indices run out at `2 ^ 31`, where an `int32_t` becomes negative.
-/

namespace SRCommon

/-- The components that are registered after a call. -/
def UpdaterCall.registered {κ : Type} (R : Set κ) : UpdaterCall κ → Set κ
  | .registerComponent pComponent => insert pComponent R
  | .unRegisterComponent pComponent => R \ {pComponent}
  | _ => R

namespace SceneUpdater

variable {κ : Type} {s : SceneUpdater κ} {R : Set κ} {pComponent c : κ}

/-- A component is registered with an invalid index only. -/
def RegistersNew (s : SceneUpdater κ) : UpdaterCall κ → Prop
  | .registerComponent pComponent => s.indexInSceneUpdater pComponent = idInvalid
  | _ => True

/-- The pool does not grow beyond the indices of an `int32_t`. -/
def Fits (s : SceneUpdater κ) : UpdaterCall κ → Prop
  | .registerComponent _ => s.freeComponentIds = [] → s.componentsPoolSize < 2 ^ 31
  | _ => True

/-- The pool holds exactly the components of a set. -/
structure Exact (s : SceneUpdater κ) (R : Set κ) : Prop where
  registered : ∀ c ∈ R, ∃ i : ℕ, s.indexInSceneUpdater c = i ∧
    ∀ j : ℕ, s.updatableComponents[j]? = some (some c) ↔ j = i
  unregistered : ∀ c ∉ R, s.indexInSceneUpdater c = idInvalid ∧
    ∀ j : ℕ, s.updatableComponents[j]? ≠ some (some c)
  nodup : s.freeComponentIds.Nodup
  mem_free : ∀ i, i ∈ s.freeComponentIds ↔ s.updatableComponents[i]? = some none
  size : s.componentsPoolSize = s.updatableComponents.length

/-- A pass calls every registered component once, and while the scene is paused those that run in
edit mode. -/
def PassesExactly (executeInEditMode : κ → Bool) (s : SceneUpdater κ) (R : Set κ) : Prop :=
  ∀ isPaused, ∃ visited, s.pass executeInEditMode isPaused = some visited ∧ visited.Nodup ∧
    ∀ c, c ∈ visited ↔ c ∈ R ∧ (isPaused = true → executeInEditMode c = true)

def table (s : SceneUpdater κ) : SlotTable κ := ⟨s.updatableComponents, s.freeComponentIds⟩

/-- What the pool relies on. -/
structure Sound (s : SceneUpdater κ) (R : Set κ) : Prop where
  exact : s.table.Exact
  size : s.componentsPoolSize = s.updatableComponents.length
  size_le : s.componentsPoolSize ≤ 2 ^ 31
  registered : ∀ c ∈ R, ∃ i : ℕ, s.indexInSceneUpdater c = i ∧ s.table.Holds i c
  unregistered : ∀ c ∉ R, s.indexInSceneUpdater c = idInvalid ∧ ∀ i, ¬ s.table.Holds i c

theorem sound_empty : ({} : SceneUpdater κ).Sound ∅ where
  exact := SlotTable.exact_empty
  size := rfl
  size_le := Nat.zero_le _
  registered c hc := hc.elim
  unregistered c _ := ⟨rfl, fun i h => by simp [table, SlotTable.Holds] at h⟩

theorem toInt32_of_lt {n : ℕ} (h : n < 2 ^ 31) : toInt32 n = n := if_pos h

theorem toUInt32_natCast {n : ℕ} (h : n < 2 ^ 32) : toUInt32 n = n := by
  rw [toUInt32, Int.emod_eq_of_lt (Int.natCast_nonneg n) (by exact_mod_cast h), Int.toNat_natCast]

namespace Sound

theorem mem_iff (h : s.Sound R) : c ∈ R ↔ ∃ i, s.table.Holds i c := by
  constructor
  · intro hc
    obtain ⟨i, -, hi⟩ := h.registered c hc
    exact ⟨i, hi⟩
  · rintro ⟨i, hi⟩
    by_contra hc
    exact (h.unregistered c hc).2 i hi

theorem exactFor (h : s.Sound R) : s.Exact R where
  registered c hc := by
    obtain ⟨i, hindex, hi⟩ := h.registered c hc
    refine ⟨i, hindex, fun j => ⟨fun hj => h.exact.holds_inj j i c hj hi, ?_⟩⟩
    rintro rfl
    exact hi
  unregistered := h.unregistered
  nodup := h.exact.nodup
  mem_free := h.exact.mem_free
  size := h.size

theorem passesExactly (h : s.Sound R) (executeInEditMode : κ → Bool) :
    s.PassesExactly executeInEditMode R := by
  intro isPaused
  refine ⟨_, if_pos h.size.le, ?_, fun c => ?_⟩
  · rw [h.size, List.take_length]
    exact h.exact.nodup_entries.filter _
  · rw [h.size, List.take_length, List.mem_filter, h.mem_iff]
    refine and_congr (SlotTable.mem_entries (t := s.table)) ?_
    cases isPaused <;> simp

theorem lt_of_holds (h : s.Sound R) {i : ℕ} (hi : s.table.Holds i c) :
    i < s.componentsPoolSize ∧ i < 2 ^ 31 := by
  have hlt := hi.lt
  have hsize := h.size
  have hle := h.size_le
  simp only [table] at hlt
  omega

theorem notMem_of_invalid (h : s.Sound R) (hc : s.indexInSceneUpdater c = idInvalid) :
    c ∉ R := by
  intro hmem
  obtain ⟨i, hi, -⟩ := h.registered c hmem
  rw [hi] at hc
  cases hc

end Sound

theorem Sound.pass (h : s.Sound R) (executeInEditMode : κ → Bool) (isPaused : Bool) :
    ∃ r, ((s.pass executeInEditMode isPaused).map fun visited => (s, visited)) = some r ∧
      r.1.Sound R := by
  obtain ⟨visited, hvisited, -⟩ := h.passesExactly executeInEditMode isPaused
  exact ⟨(s, visited), by rw [hvisited, Option.map_some], h⟩

theorem assign_eq (s : SceneUpdater κ) {i : ℕ} (hi : i < s.updatableComponents.length)
    (pComponent : Option κ) :
    s.assign i pComponent = some { s with
      updatableComponents := s.updatableComponents.set i pComponent } := by
  rw [assign, if_pos ⟨Int.natCast_nonneg i, by exact_mod_cast hi⟩, Int.toNat_natCast]

section

variable [DecidableEq κ]

theorem registerComponent_eq (h : s.Sound R) (hfits : s.Fits (.registerComponent c)) :
    ∃ s', s.registerComponent c = some s' ∧ s'.table = s.table.place c ∧
      s'.indexInSceneUpdater = Function.update s.indexInSceneUpdater c s.table.next ∧
      s'.componentsPoolSize = s'.updatableComponents.length ∧
      s'.componentsPoolSize ≤ 2 ^ 31 := by
  have hsize := h.size
  have hle := h.size_le
  rw [registerComponent, table, SlotTable.place, SlotTable.next]
  cases hfree : s.freeComponentIds with
  | nil =>
      have hlt : s.componentsPoolSize < 2 ^ 31 := hfits hfree
      have hmod : (s.componentsPoolSize + 1) % 2 ^ 32 = s.componentsPoolSize + 1 :=
        Nat.mod_eq_of_lt (by omega)
      refine ⟨_, rfl, ?_, ?_, ?_, ?_⟩
      · simp [table, setIndexIdSceneUpdater]
      · rw [setIndexIdSceneUpdater, toInt32_of_lt hlt, hsize]
        rfl
      · simp only [setIndexIdSceneUpdater]
        rw [hmod, List.length_append, hsize, List.length_singleton]
      · simp only [setIndexIdSceneUpdater, hmod]
        omega
  | cons id rest =>
      have hid := ((h.exact.mem_free id).mp (by simp [table, hfree])).lt
      simp only [table] at hid
      simp only [toInt32_of_lt (show id < 2 ^ 31 by omega)]
      rw [assign_eq _ (by exact hid)]
      exact ⟨_, rfl, rfl, rfl, by simpa [setIndexIdSceneUpdater] using hsize, hle⟩

theorem Sound.registerComponent (h : s.Sound R) (hnew : s.RegistersNew (.registerComponent c))
    (hfits : s.Fits (.registerComponent c)) :
    ∃ s', s.registerComponent c = some s' ∧ s'.Sound (insert c R) := by
  obtain ⟨s', hs', htable, hindex, hsize, hle⟩ := registerComponent_eq h hfits
  have hnotMem := h.notMem_of_invalid hnew
  refine ⟨s', hs', ?_, hsize, hle, fun d hd => ?_, fun d hd => ?_⟩
  · rw [htable]
    exact h.exact.place (h.unregistered c hnotMem).2
  · rw [hindex, htable]
    rcases eq_or_ne d c with rfl | hne
    · exact ⟨_, Function.update_self .., h.exact.holds_place_iff.mpr (.inl ⟨rfl, rfl⟩)⟩
    · obtain ⟨i, hi, hholds⟩ := h.registered d (Set.mem_of_mem_insert_of_ne hd hne)
      exact ⟨i, (Function.update_of_ne hne ..).trans hi, h.exact.holds_place_iff.mpr (.inr hholds)⟩
  · rw [Set.mem_insert_iff, not_or] at hd
    obtain ⟨hinvalid, hholds⟩ := h.unregistered d hd.2
    rw [hindex, htable]
    refine ⟨(Function.update_of_ne hd.1 ..).trans hinvalid, fun i hi => ?_⟩
    rcases h.exact.holds_place_iff.mp hi with ⟨-, heq⟩ | hi
    · exact hd.1 heq
    · exact hholds i hi

theorem Sound.unRegisterComponent (h : s.Sound R) (c : κ) :
    ∃ s', s.unRegisterComponent c = some s' ∧ s'.Sound (R \ {c}) := by
  rw [SceneUpdater.unRegisterComponent]
  by_cases hc : c ∈ R
  · obtain ⟨i, hi, hholds⟩ := h.registered c hc
    obtain ⟨hlt, hsmall⟩ := h.lt_of_holds hholds
    have hlength := h.size ▸ hlt
    have hcast : toUInt32 i = i := toUInt32_natCast (by omega)
    simp only [hi, hcast]
    rw [if_neg (Nat.not_le.mpr hlt), assign_eq _ (by exact hlength)]
    refine ⟨_, rfl, h.exact.vacate hholds, ?_, h.size_le, fun d hd => ?_, fun d hd => ?_⟩
    · simpa [setIndexIdSceneUpdater] using h.size
    · obtain ⟨j, hj, hd'⟩ := h.registered d hd.1
      refine ⟨j, (Function.update_of_ne hd.2 ..).trans hj,
        (SlotTable.holds_vacate_iff hholds.lt).mpr ⟨?_, hd'⟩⟩
      rintro rfl
      exact hd.2 (hd'.unique hholds)
    · rcases eq_or_ne d c with rfl | hne
      · refine ⟨Function.update_self .., fun j hj => ?_⟩
        obtain ⟨hne, hj⟩ := (SlotTable.holds_vacate_iff hholds.lt).mp hj
        exact hne (h.exact.holds_inj j i d hj hholds)
      · obtain ⟨hinvalid, hnone⟩ := h.unregistered d fun hmem => hd ⟨hmem, hne⟩
        refine ⟨(Function.update_of_ne hne ..).trans hinvalid, fun j hj => ?_⟩
        exact hnone j ((SlotTable.holds_vacate_iff hholds.lt).mp hj).2
  · have hcast : toUInt32 idInvalid = 2 ^ 32 - 1 := by decide
    have hle := h.size_le
    simp only [(h.unregistered c hc).1, hcast]
    rw [if_pos (by omega), Set.sdiff_singleton_eq_self hc]
    exact ⟨_, rfl, h.exact, h.size, h.size_le, h.registered, h.unregistered⟩

variable {executeInEditMode : κ → Bool} {call : UpdaterCall κ}

theorem Sound.step (h : s.Sound R) (hnew : s.RegistersNew call) (hfits : s.Fits call) :
    ∃ r, s.step executeInEditMode call = some r ∧ r.1.Sound (call.registered R) := by
  cases call with
  | registerComponent pComponent =>
      obtain ⟨s', hs', hsound⟩ := h.registerComponent hnew hfits
      exact ⟨(s', []), by rw [SceneUpdater.step, hs', Option.map_some], hsound⟩
  | unRegisterComponent pComponent =>
      obtain ⟨s', hs', hsound⟩ := h.unRegisterComponent pComponent
      exact ⟨(s', []), by rw [SceneUpdater.step, hs', Option.map_some], hsound⟩
  | update isPaused | fixedUpdate isPaused | lateUpdate isPaused =>
      exact h.pass executeInEditMode isPaused

theorem Sound.run {calls : List (UpdaterCall κ)} (h : s.Sound R)
    (hcalls : Steps.Along (SceneUpdater.step executeInEditMode)
      (fun s call => s.RegistersNew call ∧ s.Fits call) s calls) :
    ∃ r, Steps.run (SceneUpdater.step executeInEditMode) s calls = some r ∧
      r.1.Sound (calls.foldl (fun R call => call.registered R) R) := by
  induction calls generalizing s R with
  | nil => exact ⟨(s, []), rfl, h⟩
  | cons call calls ih =>
      obtain ⟨⟨hnew, hfits⟩, hrest⟩ := hcalls
      obtain ⟨r, hr, hsound⟩ := h.step hnew hfits
      obtain ⟨r', hr', hsound'⟩ := ih hsound (hrest r hr)
      exact ⟨(r'.1, r.2 :: r'.2), by rw [Steps.run_cons hr, hr', Option.map_some], hsound'⟩

theorem exact_of_fits (calls : List (UpdaterCall κ))
    (h : Steps.Along (SceneUpdater.step executeInEditMode)
      (fun s call => s.RegistersNew call ∧ s.Fits call) {} calls) :
    ∃ r, Steps.run (SceneUpdater.step executeInEditMode) {} calls = some r ∧
      r.1.Exact (calls.foldl (fun R call => call.registered R) ∅) ∧
      r.1.PassesExactly executeInEditMode (calls.foldl (fun R call => call.registered R) ∅) := by
  obtain ⟨r, hr, hsound⟩ := sound_empty.run h
  exact ⟨r, hr, hsound.exactFor, hsound.passesExactly executeInEditMode⟩

end

/-- A slot is given up and taken again. -/
theorem exact_of_fits_sample :
    let calls : List (UpdaterCall ℕ) := [.registerComponent 4, .registerComponent 7,
      .unRegisterComponent 4, .update true, .registerComponent 9]
    Steps.Along (SceneUpdater.step fun _ => true)
        (fun s call => s.RegistersNew call ∧ s.Fits call) {} calls ∧
      ∃ r, Steps.run (SceneUpdater.step fun _ => true) {} calls = some r ∧
        r.1.Exact (calls.foldl (fun R call => call.registered R) ∅) ∧
        r.1.PassesExactly (fun _ => true) (calls.foldl (fun R call => call.registered R) ∅) := by
  intro calls
  have h : Steps.Along (SceneUpdater.step fun _ => true)
      (fun s call => s.RegistersNew call ∧ s.Fits call) {} calls := by
    refine ⟨⟨rfl, fun _ => by decide⟩, ?_⟩
    rintro _ ⟨⟩
    refine ⟨⟨rfl, fun _ => by decide⟩, ?_⟩
    rintro _ ⟨⟩
    refine ⟨⟨trivial, trivial⟩, ?_⟩
    rintro _ ⟨⟩
    refine ⟨⟨trivial, trivial⟩, ?_⟩
    rintro _ ⟨⟩
    refine ⟨⟨rfl, fun hfree => by cases hfree⟩, ?_⟩
    rintro _ ⟨⟩
    trivial
  exact ⟨h, exact_of_fits calls h⟩

/-! ## A pool that is too large -/

/-- The components `0`, …, `n - 1` are registered one after the other. -/
def filled (n : ℕ) : SceneUpdater ℕ where
  dirty := decide (0 < n)
  componentsPoolSize := n
  updatableComponents := (List.range n).map some
  indexInSceneUpdater c := if c < n then toInt32 c else idInvalid

theorem registerComponent_filled {n : ℕ} (hn : n + 1 < 2 ^ 32) :
    (filled n).registerComponent n = some (filled (n + 1)) := by
  have hindex : Function.update (filled n).indexInSceneUpdater n (toInt32 n) =
      (filled (n + 1)).indexInSceneUpdater := by
    funext c
    rcases lt_trichotomy c n with hlt | rfl | hgt
    · rw [Function.update_of_ne hlt.ne]
      exact (if_pos hlt).trans (if_pos (hlt.trans (Nat.lt_succ_self n))).symm
    · simp [filled]
    · rw [Function.update_of_ne hgt.ne']
      exact (if_neg hgt.not_gt).trans (if_neg (Nat.not_lt.mpr (Nat.succ_le_of_lt hgt))).symm
  rw [registerComponent]
  simp only [setIndexIdSceneUpdater]
  rw [show (filled n).freeComponentIds = [] from rfl]
  simp only [show (filled n).componentsPoolSize = n from rfl, hindex, Nat.mod_eq_of_lt hn]
  simp [filled, List.range_succ]

theorem run_filled (n m : ℕ) (hn : n + m < 2 ^ 32) :
    Steps.Along (SceneUpdater.step fun _ => true) RegistersNew (filled n)
        ((List.range' n m).map .registerComponent) ∧
      ∃ os, Steps.run (SceneUpdater.step fun _ => true) (filled n)
        ((List.range' n m).map .registerComponent) = some (filled (n + m), os) := by
  induction m generalizing n with
  | zero => exact ⟨trivial, [], rfl⟩
  | succ m ih =>
      have hstep : (filled n).step (fun _ => true) (.registerComponent n) =
          some (filled (n + 1), []) := by
        rw [step, registerComponent_filled (by omega), Option.map_some]
      have hnew : (filled n).indexInSceneUpdater n = idInvalid := if_neg (lt_irrefl n)
      obtain ⟨halong, os, hrun⟩ := ih (n + 1) (by omega)
      rw [List.range'_succ, List.map_cons]
      refine ⟨⟨hnew, fun r hr => ?_⟩, [] :: os, ?_⟩
      · cases hstep.symm.trans hr
        exact halong
      · rw [Steps.run_cons hstep, hrun, Option.map_some, Nat.add_assoc, Nat.add_comm 1 m]

/-- The component with the number `2 ^ 31` has a negative index. -/
theorem not_exact_filled {n : ℕ} (hn : 2 ^ 31 < n) (R : Set ℕ) : ¬ (filled n).Exact R := by
  intro h
  have hindex : (filled n).indexInSceneUpdater (2 ^ 31) = -2 ^ 31 := by
    simp only [filled, if_pos hn, toInt32, lt_irrefl, if_false]
    rfl
  by_cases hmem : 2 ^ 31 ∈ R
  · obtain ⟨i, hi, -⟩ := h.registered _ hmem
    rw [hindex] at hi
    omega
  · have hinvalid := (h.unregistered _ hmem).1
    rw [hindex] at hinvalid
    cases hinvalid

theorem not_exact_of_many :
    ¬ ∀ calls : List (UpdaterCall ℕ),
      Steps.Along (SceneUpdater.step fun _ => true) RegistersNew {} calls →
      ∃ r, Steps.run (SceneUpdater.step fun _ => true) {} calls = some r ∧
        r.1.Exact (calls.foldl (fun R call => call.registered R) ∅) := by
  intro h
  have hempty : ({} : SceneUpdater ℕ) = filled 0 := by simp [filled]
  obtain ⟨n, hn, hbound⟩ : ∃ n, 2 ^ 31 < n ∧ 0 + n < 2 ^ 32 :=
    ⟨2 ^ 31 + 1, Nat.lt_succ_self _, by decide⟩
  obtain ⟨halong, os, hrun⟩ := run_filled 0 n hbound
  rw [← hempty] at halong hrun
  obtain ⟨r, hr, hexact⟩ := h _ halong
  cases hrun.symm.trans hr
  rw [Nat.zero_add] at hexact
  exact not_exact_filled hn _ hexact

end SceneUpdater

end SRCommon
