import SRCommon.ECS.HierarchyFrame
import SRCommon.Lib.PartialRun
import SRCommon.World.Scene

/-!
# The scene registry

Every object of a scene that is not going to be freed is in the queue of new
objects or in the slot that its id names, and the free indices are those of the
empty slots.
-/

namespace SRCommon

namespace Scene

section

variable {ι ε : Type}

/-- The object has been registered and does not wait to be freed. -/
def Live (s : Scene ι ε) (c : ι) : Prop := s.objects.sceneOf c = some true ∧ c ∉ s.deleteQueue

/-- The registry as it is seen from outside. -/
structure RegistryExact (s : Scene ι ε) : Prop where
  nodup_free : s.table.free.Nodup
  mem_free : ∀ i, i ∈ s.table.free ↔ s.table.IsEmpty i
  nodup_newQueue : s.newQueue.Nodup
  live_of_mem : ∀ c ∈ s.newQueue, s.Live c
  live_of_holds : ∀ i c, s.table.Holds i c → s.Live c
  once : ∀ c, s.Live c → c ∈ s.newQueue ∧ (∀ i, ¬ s.table.Holds i c) ∨
    c ∉ s.newQueue ∧ ∀ i, s.table.Holds i c ↔ i = s.idInScene c

/-- An object that keeps living keeps its slot. -/
def NotOverwritten (s s' : Scene ι ε) : Prop :=
  ∀ i c, s.table.Holds i c → s'.Live c → s'.table.Holds i c

/-- Only objects of the scene are removed from it. -/
def OnScene (s : Scene ι ε) : ℕ × SceneCall ι ε → Prop
  | (_, .remove gameObject) => s.owns gameObject
  | _ => True

/-- The invariant of the registry. New objects have no id, and neither have those outside. -/
structure Registry (s : Scene ι ε) : Prop where
  exact : s.table.Exact
  length_lt : s.table.slots.length < maxSize
  held : ∀ i c, s.table.Holds i c → s.Live c ∧ c ∉ s.newQueue ∧ s.idInScene c = i
  queued : ∀ c ∈ s.newQueue, s.Live c ∧ s.idInScene c = invalidId
  nodup : s.newQueue.Nodup
  covered : ∀ c, s.Live c → c ∈ s.newQueue ∨ s.table.Holds (s.idInScene c) c
  deleted : ∀ c ∈ s.deleteQueue, s.objects.sceneOf c ≠ some false
  outside : ∀ c, s.objects.sceneOf c = some false → s.idInScene c = invalidId
  known : ∀ c, (s.objects.sceneOf c).isSome ∨ c ∈ s.deleteQueue → c ∈ s.created

theorem owns_iff {s : Scene ι ε} {c : ι} : s.owns c = true ↔ s.objects.sceneOf c = some true := by
  rw [owns, SceneHierarchy.sceneOf]
  cases s.objects c <;> simp

theorem registry_empty : (empty : Scene ι ε).Registry where
  exact := SlotTable.exact_empty
  length_lt := by
    change 0 < 2 ^ 63
    decide
  held i c h := by simp [empty, SlotTable.Holds] at h
  queued c h := by cases h
  nodup := List.nodup_nil
  covered c h := by cases h.1
  deleted c h := by cases h
  outside c h := rfl
  known c h := by
    rcases h with h | h
    · cases h
    · cases h

variable {s s' : Scene ι ε} {c : ι} {i : ℕ}

theorem Registry.lt_invalidId (h : s.Registry) (hi : s.table.Holds i c) : i < invalidId := by
  have hlt := hi.lt
  have hlength := h.length_lt
  rw [maxSize] at hlength
  rw [invalidId]
  omega

theorem Registry.registryExact (h : s.Registry) : s.RegistryExact where
  nodup_free := h.exact.nodup
  mem_free := h.exact.mem_free
  nodup_newQueue := h.nodup
  live_of_mem c hc := (h.queued c hc).1
  live_of_holds i c hi := (h.held i c hi).1
  once c hc := by
    by_cases hmem : c ∈ s.newQueue
    · exact .inl ⟨hmem, fun i hi => (h.held i c hi).2.1 hmem⟩
    · refine .inr ⟨hmem, fun i => ⟨fun hi => (h.held i c hi).2.2.symm, ?_⟩⟩
      rintro rfl
      exact (h.covered c hc).resolve_left hmem

/-- Objects that have a slot keep their ids. -/
def KeepsIds (s s' : Scene ι ε) : Prop :=
  ∀ c, s.idInScene c ≠ invalidId → s'.idInScene c = s.idInScene c

theorem KeepsIds.of_eq (h : s'.idInScene = s.idInScene) : s.KeepsIds s' :=
  fun c _ => congrFun h c

theorem KeepsIds.trans {t : Scene ι ε} (h : s.KeepsIds t) (h' : t.KeepsIds s') : s.KeepsIds s' := by
  intro c hc
  have heq := h c hc
  rw [h' c (heq ▸ hc), heq]

/-- Who keeps his id keeps his slot. -/
theorem Registry.notOverwritten (h : s.Registry) (h' : s'.Registry)
    (hids : ∀ i c, s.table.Holds i c → s'.idInScene c = s.idInScene c) : s.NotOverwritten s' := by
  intro i c hi hlive
  have hid : s'.idInScene c = i := (hids i c hi).trans (h.held i c hi).2.2
  rcases h'.covered c hlive with hmem | hholds
  · have hinvalid := (h'.queued c hmem).2
    exact absurd (hinvalid.symm.trans hid) (h.lt_invalidId hi).ne'
  · rwa [hid] at hholds

theorem Registry.notOverwritten_of_keepsIds (h : s.Registry) (h' : s'.Registry)
    (hids : s.KeepsIds s') : s.NotOverwritten s' :=
  h.notOverwritten h' fun i c hi => hids c <| by
    rw [(h.held i c hi).2.2]
    exact (h.lt_invalidId hi).ne

/-- What changes nothing the registry speaks about keeps it. -/
theorem Registry.congr (h : s.Registry) (hscene : s'.objects.sceneOf = s.objects.sceneOf)
    (htable : s'.table = s.table) (hnew : s'.newQueue = s.newQueue)
    (hdelete : s'.deleteQueue = s.deleteQueue) (hids : s'.idInScene = s.idInScene)
    (hcreated : s'.created = s.created) : s'.Registry := by
  have hlive : ∀ c, s'.Live c ↔ s.Live c := fun c => by rw [Live, Live, hscene, hdelete]
  constructor
  · exact htable ▸ h.exact
  · exact htable ▸ h.length_lt
  · intro i c hi
    rw [hlive, hnew, hids]
    exact h.held i c (htable ▸ hi)
  · intro c hc
    rw [hlive, hids]
    exact h.queued c (hnew ▸ hc)
  · exact hnew ▸ h.nodup
  · intro c hc
    rw [hnew, htable, hids]
    exact h.covered c ((hlive c).mp hc)
  · intro c hc
    rw [hscene]
    exact h.deleted c (hdelete ▸ hc)
  · intro c hc
    rw [hids]
    exact h.outside c (hscene ▸ hc)
  · intro c hc
    rw [hscene, hdelete] at hc
    exact hcreated ▸ h.known c hc

/-- An object that waits to be freed has left the queue and its slot. -/
theorem Registry.leave (h : s.Registry) {table : SlotTable ι} {newQueue : List ι}
    (hexact : table.Exact) (hlength : table.slots.length = s.table.slots.length)
    (hholds : ∀ i d, table.Holds i d ↔ d ≠ c ∧ s.table.Holds i d)
    (hmem : ∀ d, d ∈ newQueue ↔ d ≠ c ∧ d ∈ s.newQueue) (hnodup : newQueue.Nodup)
    (hc : s.objects.sceneOf c = some true) (hdelete : s'.deleteQueue = s.deleteQueue ++ [c])
    (htable : s'.table = table) (hnew : s'.newQueue = newQueue) (hobjects : s'.objects = s.objects)
    (hids : s'.idInScene = s.idInScene) (hcreated : s'.created = s.created) : s'.Registry := by
  have hlive : ∀ d, s'.Live d ↔ d ≠ c ∧ s.Live d := fun d => by
    rw [Live, Live, hobjects, hdelete]
    simp only [List.mem_append, List.mem_singleton, not_or]
    tauto
  constructor
  · exact htable ▸ hexact
  · exact htable ▸ hlength ▸ h.length_lt
  · intro i d hi
    rw [htable] at hi
    obtain ⟨hne, hi⟩ := (hholds i d).mp hi
    obtain ⟨hd, hnotMem, hid⟩ := h.held i d hi
    rw [hlive, hnew, hids, hmem]
    exact ⟨⟨hne, hd⟩, fun hboth => hnotMem hboth.2, hid⟩
  · intro d hd
    rw [hnew] at hd
    obtain ⟨hne, hd⟩ := (hmem d).mp hd
    rw [hlive, hids]
    exact ⟨⟨hne, (h.queued d hd).1⟩, (h.queued d hd).2⟩
  · exact hnew ▸ hnodup
  · intro d hd
    obtain ⟨hne, hd⟩ := (hlive d).mp hd
    rw [hnew, htable, hids, hmem, hholds]
    exact (h.covered d hd).imp (⟨hne, ·⟩) (⟨hne, ·⟩)
  · intro d hd
    rw [hobjects]
    rw [hdelete] at hd
    rcases List.mem_append.mp hd with hd | hd
    · exact h.deleted d hd
    · rw [List.mem_singleton.mp hd, hc]
      simp
  · intro d hd
    rw [hids]
    exact h.outside d (hobjects ▸ hd)
  · intro d hd
    rw [hobjects, hdelete] at hd
    refine hcreated ▸ h.known d ?_
    rcases hd with hd | hd
    · exact .inl hd
    rcases List.mem_append.mp hd with hd | hd
    · exact .inr hd
    · rw [List.mem_singleton.mp hd]
      exact .inl (by rw [hc]; rfl)

end

section

variable {ι ε : Type} [DecidableEq ι] {s s' : Scene ι ε} {c : ι} {object : SceneObject ι ε}

/-- A new pointer for an object without a scene. -/
theorem Registry.create (h : s.Registry) (hc : c ∉ s.created)
    (hscene : s'.objects.sceneOf = Function.update s.objects.sceneOf c (some false))
    (htable : s'.table = s.table) (hnew : s'.newQueue = s.newQueue)
    (hdelete : s'.deleteQueue = s.deleteQueue)
    (hids : s'.idInScene = Function.update s.idInScene c invalidId)
    (hcreated : s'.created = c :: s.created) : s'.Registry := by
  have hnone : ¬ (s.objects.sceneOf c).isSome := fun hsome => hc (h.known c (.inl hsome))
  have hlive : ∀ d, s'.Live d ↔ s.Live d := fun d => by
    rw [Live, Live, hscene, hdelete]
    rcases eq_or_ne d c with rfl | hne
    · rw [Function.update_self]
      simp only [Bool.not_eq_true, Option.isSome_eq_false_iff, Option.isNone_iff_eq_none] at hnone
      simp [hnone]
    · rw [Function.update_of_ne hne]
  have hne : ∀ d, s.Live d → d ≠ c := fun d hd heq => hnone (by rw [← heq, hd.1]; rfl)
  constructor
  · exact htable ▸ h.exact
  · exact htable ▸ h.length_lt
  · intro i d hi
    obtain ⟨hd, hmem, hid⟩ := h.held i d (htable ▸ hi)
    rw [hlive, hnew, hids, Function.update_of_ne (hne d hd)]
    exact ⟨hd, hmem, hid⟩
  · intro d hd
    obtain ⟨hd, hid⟩ := h.queued d (hnew ▸ hd)
    rw [hlive, hids, Function.update_of_ne (hne d hd)]
    exact ⟨hd, hid⟩
  · exact hnew ▸ h.nodup
  · intro d hd
    have hd' := (hlive d).mp hd
    rw [hnew, htable, hids, Function.update_of_ne (hne d hd')]
    exact h.covered d hd'
  · intro d hd
    rw [hdelete] at hd
    have hdc : d ≠ c := fun heq => hc (heq ▸ h.known d (.inr hd))
    rw [hscene, Function.update_of_ne hdc]
    exact h.deleted d hd
  · intro d hd
    rw [hids]
    rcases eq_or_ne d c with rfl | hdc
    · exact Function.update_self ..
    · rw [Function.update_of_ne hdc]
      rw [hscene, Function.update_of_ne hdc] at hd
      exact h.outside d hd
  · intro d hd
    rw [hcreated]
    rcases eq_or_ne d c with rfl | hdc
    · exact List.mem_cons_self
    · rw [hscene, Function.update_of_ne hdc, hdelete] at hd
      exact List.mem_cons_of_mem _ (h.known d hd)

/-- The new object waits behind the others. -/
theorem Registry.register (h : s.Registry) (hc : s.objects c = some object)
    (houtside : object.hasScene = false) :
    Registry { s with
      newQueue := s.newQueue ++ [c]
      objects := s.objects.put c { object with hasScene := true } } := by
  have hscene : s.objects.sceneOf c = some false := by
    rw [SceneHierarchy.sceneOf_eq hc, houtside]
  have hscene' : (s.objects.put c { object with hasScene := true }).sceneOf =
      Function.update s.objects.sceneOf c (some true) := SceneHierarchy.sceneOf_put
  have hnotDeleted : c ∉ s.deleteQueue := fun hmem => h.deleted c hmem hscene
  have hne : ∀ d, s.Live d → d ≠ c := fun d hd heq => by
    cases hscene.symm.trans (heq ▸ hd.1)
  have hlive : ∀ d, Live { s with
      newQueue := s.newQueue ++ [c]
      objects := s.objects.put c { object with hasScene := true } } d ↔ s.Live d ∨ d = c :=
    fun d => by
      rw [Live, hscene', Live]
      dsimp only
      rcases eq_or_ne d c with rfl | hdc
      · simpa using hnotDeleted
      · simp [hdc]
  constructor
  · exact h.exact
  · exact h.length_lt
  · intro i d hi
    obtain ⟨hd, hmem, hid⟩ := h.held i d hi
    rw [hlive]
    exact ⟨.inl hd, by simp [hmem, hne d hd], hid⟩
  · intro d hd
    rw [hlive]
    rcases List.mem_append.mp hd with hd | hd
    · obtain ⟨hd, hid⟩ := h.queued d hd
      exact ⟨.inl hd, hid⟩
    · cases List.mem_singleton.mp hd
      exact ⟨.inr rfl, h.outside _ hscene⟩
  · change (s.newQueue ++ [c]).Nodup
    rw [← List.concat_eq_append]
    exact h.nodup.concat fun hmem => hne c (h.queued c hmem).1 rfl
  · intro d hd
    rcases (hlive d).mp hd with hd | rfl
    · exact (h.covered d hd).imp_left fun hmem => List.mem_append_left _ hmem
    · exact .inl (by simp)
  · intro d hd
    rw [hscene']
    rcases eq_or_ne d c with rfl | hdc
    · simp
    · rw [Function.update_of_ne hdc]
      exact h.deleted d hd
  · intro d hd
    rw [hscene'] at hd
    rcases eq_or_ne d c with rfl | hdc
    · simp at hd
    · rw [Function.update_of_ne hdc] at hd
      exact h.outside d hd
  · intro d hd
    rw [hscene'] at hd
    rcases eq_or_ne d c with rfl | hdc
    · exact h.known d (.inl (by rw [hscene]; rfl))
    · rw [Function.update_of_ne hdc] at hd
      exact h.known d hd

/-- An object that does not live any more is freed. -/
theorem Registry.free (h : s.Registry) (hc : ¬ s.Live c) :
    Registry { s with objects := s.objects.free c } := by
  have hscene : (s.objects.free c).sceneOf = Function.update s.objects.sceneOf c none :=
    SceneHierarchy.sceneOf_free
  have hlive : ∀ d, Live { s with objects := s.objects.free c } d ↔ s.Live d := fun d => by
    rw [Live, hscene]
    rcases eq_or_ne d c with rfl | hdc
    · simpa using hc
    · rw [Function.update_of_ne hdc, Live]
  constructor
  · exact h.exact
  · exact h.length_lt
  · intro i d hi
    rw [hlive]
    exact h.held i d hi
  · intro d hd
    rw [hlive]
    exact h.queued d hd
  · exact h.nodup
  · intro d hd
    exact h.covered d ((hlive d).mp hd)
  · intro d hd
    rw [hscene]
    rcases eq_or_ne d c with rfl | hdc
    · simp
    · rw [Function.update_of_ne hdc]
      exact h.deleted d hd
  · intro d hd
    rw [hscene] at hd
    rcases eq_or_ne d c with rfl | hdc
    · simp at hd
    · rw [Function.update_of_ne hdc] at hd
      exact h.outside d hd
  · intro d hd
    rw [hscene] at hd
    rcases eq_or_ne d c with rfl | hdc
    · rcases hd with hd | hd
      · simp at hd
      · exact h.known d (.inr hd)
    · rw [Function.update_of_ne hdc] at hd
      exact h.known d hd

end

section

variable {ι ε : Type} [DecidableEq ι] {s s' : Scene ι ε} {c : ι} {ok : Bool} {rest : List ι}

/-- What a removal leaves alone, and whom it tells. -/
structure Removes (s : Scene ι ε) (c : ι) (s' : Scene ι ε) : Prop where
  registry : s'.Registry
  objects : s'.objects = s.objects
  idInScene : s'.idInScene = s.idInScene
  created : s'.created = s.created
  changed : s'.isHierarchyChanged = true ∨
    s'.isHierarchyChanged = s.isHierarchyChanged ∧ s'.table = s.table ∧ s'.root = s.root ∧
      ¬ s.Live c

theorem Registry.remove (h : s.Registry) (hc : s.objects.sceneOf c = some true)
    (hs' : remove s c = some (s', ok)) : Removes s c s' := by
  obtain ⟨object, -, hs'⟩ := Option.bind_eq_some_iff.mp hs'
  split at hs'
  · cases hs'
  dsimp only at hs'
  -- in none of the branches is the object left in the queue or in a slot
  have hnowhere : (∀ i, ¬ s.table.Holds i c) → c ∉ s.newQueue →
      Registry { s with deleteQueue := s.deleteQueue ++ [c] } ∧ ¬ s.Live c := fun hholds hmem => by
    refine ⟨h.leave (c := c) h.exact rfl (fun i d => ?_) (fun d => ?_) h.nodup hc rfl rfl rfl rfl
      rfl rfl, fun hlive => ?_⟩
    · exact ⟨fun hi => ⟨fun heq => hholds i (heq ▸ hi), hi⟩, And.right⟩
    · exact ⟨fun hd => ⟨fun heq => hmem (heq ▸ hd), hd⟩, And.right⟩
    · rcases h.covered c hlive with hqueued | hheld
      · exact hmem hqueued
      · exact hholds _ hheld
  split at hs'
  · rename_i hid
    have hholds : ∀ i, ¬ s.table.Holds i c := fun i hi => by
      have heq := (h.held i c hi).2.2
      have hlt := hi.lt
      omega
    split at hs'
    · rename_i hmem
      cases hs'
      refine ⟨h.leave (c := c) h.exact rfl (fun i d => ?_) (fun d => ?_) (h.nodup.erase c) hc rfl
        rfl rfl rfl rfl rfl, rfl, rfl, rfl, .inl rfl⟩
      · exact ⟨fun hi => ⟨fun heq => hholds i (heq ▸ hi), hi⟩, And.right⟩
      · exact h.nodup.mem_erase_iff
    · rename_i hmem
      cases hs'
      obtain ⟨hregistry, hdead⟩ := hnowhere hholds hmem
      exact ⟨hregistry, rfl, rfl, rfl, .inr ⟨rfl, rfl, rfl, hdead⟩⟩
  · rename_i hid
    have hmem : c ∉ s.newQueue := fun hmem => by
      have hinvalid : s.idInScene c = 2 ^ 64 - 1 := (h.queued c hmem).2
      have hlength : s.table.slots.length < 2 ^ 63 := h.length_lt
      omega
    split at hs'
    · rename_i hheld
      change s.table.Holds _ c at hheld
      cases hs'
      refine ⟨h.leave (c := c) (h.exact.vacate hheld) (SlotTable.length_vacate _ _) (fun i d => ?_)
        (fun d => ?_) h.nodup hc rfl rfl rfl rfl rfl rfl, rfl, rfl, rfl, .inl rfl⟩
      · rw [SlotTable.holds_vacate_iff hheld.lt]
        refine and_congr_left fun hi => not_congr ⟨?_, ?_⟩
        · rintro rfl
          exact hi.unique hheld
        · rintro rfl
          exact (h.held i d hi).2.2.symm
      · exact ⟨fun hd => ⟨fun heq => hmem (heq ▸ hd), hd⟩, And.right⟩
    · rename_i hheld
      cases hs'
      have hholds : ∀ i, ¬ s.table.Holds i c := fun i hi => by
        rw [(h.held i c hi).2.2] at hheld
        exact hheld hi
      obtain ⟨hregistry, hdead⟩ := hnowhere hholds hmem
      exact ⟨hregistry, rfl, rfl, rfl, .inr ⟨rfl, rfl, rfl, hdead⟩⟩

/-- The object at the front of the queue gets the next slot, which holds nothing. -/
theorem Registry.placeObject (h : Registry { s with newQueue := c :: rest })
    (hs' : placeObject s c = some s') : Registry { s' with newQueue := rest } ∧
      ∀ d, d ≠ c → s'.idInScene d = s.idInScene d := by
  obtain ⟨object, -, hs'⟩ := Option.bind_eq_some_iff.mp hs'
  split at hs'
  · cases hs'
  rename_i hroom
  cases hs'
  refine ⟨?_, fun d hd => Function.update_of_ne hd ..⟩
  have hexact : s.table.Exact := h.exact
  obtain ⟨hlive, -⟩ := h.queued c List.mem_cons_self
  obtain ⟨hnotMem, hnodup⟩ := List.nodup_cons.mp h.nodup
  have hne : ∀ i d, s.table.Holds i d → d ≠ c := fun i d hi heq =>
    (h.held i d hi).2.1 (heq ▸ List.mem_cons_self)
  have hholds := fun i d => hexact.holds_place_iff (c := c) (i := i) (d := d)
  constructor
  · exact hexact.place fun i hi => hne i c hi rfl
  · change (s.table.place c).slots.length < maxSize
    have hlength : s.table.slots.length < maxSize := h.length_lt
    rw [SlotTable.length_place]
    split
    · rename_i hfree
      exact Nat.lt_of_not_le fun hge => hroom ⟨hfree, hge⟩
    · exact hlength
  · intro i d hi
    rcases (hholds i d).mp hi with ⟨rfl, rfl⟩ | hi
    · exact ⟨hlive, hnotMem, Function.update_self ..⟩
    · obtain ⟨hd, hmem, hid⟩ := h.held i d hi
      refine ⟨hd, fun hrest => hmem (List.mem_cons_of_mem _ hrest), ?_⟩
      exact (Function.update_of_ne (hne i d hi) ..).trans hid
  · intro d hd
    obtain ⟨hd', hid⟩ := h.queued d (List.mem_cons_of_mem _ hd)
    refine ⟨hd', (Function.update_of_ne ?_ ..).trans hid⟩
    exact fun heq : d = c => hnotMem (heq ▸ hd)
  · exact hnodup
  · intro d hd
    change d ∈ rest ∨ (s.table.place c).Holds (Function.update s.idInScene c s.table.next d) d
    rcases eq_or_ne d c with rfl | hdc
    · right
      rw [Function.update_self, hholds]
      exact .inl ⟨rfl, rfl⟩
    · rw [Function.update_of_ne hdc, hholds]
      exact (h.covered d hd).imp (fun hmem => (List.mem_cons.mp hmem).resolve_left hdc) .inr
  · exact h.deleted
  · intro d hd
    have hdc : d ≠ c := fun heq => by cases hd.symm.trans (heq ▸ hlive.1)
    exact (Function.update_of_ne hdc ..).trans (h.outside d hd)
  · exact h.known

end

section

variable {ι ε : Type} {s s' t : Scene ι ε} {c : ι} {fuel : ℕ}

/-- Objects are removed and freed, and nothing is registered. -/
structure Shrinks (s s' : Scene ι ε) : Prop where
  registry : s'.Registry
  idInScene : s'.idInScene = s.idInScene
  created : s'.created = s.created
  sceneOf : ∀ c, s'.objects.sceneOf c = s.objects.sceneOf c ∨ s'.objects.sceneOf c = none
  parentOf : ∀ c p, s'.objects.parentOf c = some p → s.objects.parentOf c = some p
  changed : s.isHierarchyChanged = true → s'.isHierarchyChanged = true

theorem Shrinks.refl (h : s.Registry) : Shrinks s s :=
  ⟨h, rfl, rfl, fun _ => .inl rfl, fun _ _ hp => hp, id⟩

theorem Shrinks.trans (h : Shrinks s t) (h' : Shrinks t s') : Shrinks s s' := by
  refine ⟨h'.registry, h'.idInScene.trans h.idInScene, h'.created.trans h.created, fun c => ?_,
    fun c p hp => h.parentOf c p (h'.parentOf c p hp), fun hs => h'.changed (h.changed hs)⟩
  rcases h'.sceneOf c with heq | hnone
  · rw [heq]
    exact h.sceneOf c
  · exact .inr hnone

/-- Only links are cut. -/
theorem Shrinks.of_objects (h : s.Registry) {objects : SceneHierarchy ι ε} {changed : Bool}
    (hscene : objects.sceneOf = s.objects.sceneOf)
    (hparents : ∀ c p, objects.parentOf c = some p → s.objects.parentOf c = some p)
    (hchanged : s.isHierarchyChanged = true → changed = true) :
    Shrinks s { s with objects, isHierarchyChanged := changed } :=
  ⟨h.congr hscene rfl rfl rfl rfl rfl, rfl, rfl, fun _ => .inl (congrFun hscene _), hparents,
    hchanged⟩

theorem Removes.shrinks (h : Removes s c s') : Shrinks s s' where
  registry := h.registry
  idInScene := h.idInScene
  created := h.created
  sceneOf _ := .inl (by rw [h.objects])
  parentOf _ _ hp := h.objects ▸ hp
  changed hs := h.changed.elim id fun hsame => hsame.1.trans hs

/-- A loop of steps that shrink the scene shrinks it. -/
theorem Shrinks.foldlM {f : Scene ι ε → ι → Option (Scene ι ε)}
    (hf : ∀ s c s', s.Registry → f s c = some s' → Shrinks s s') {cs : List ι} (h : s.Registry)
    (hs' : cs.foldlM f s = some s') : Shrinks s s' :=
  Steps.foldlM_invariant (I := fun _ t => Shrinks s t)
    (fun c _ t t' ht ht' => ht.trans (hf t c t' ht.registry ht')) (Shrinks.refl h) hs'

variable [DecidableEq ι]

theorem Shrinks.destroyImpl (h : s.Registry) (hc : ¬ s.Live c)
    (hs' : destroyImpl s c = some s') : Shrinks s s' := by
  obtain ⟨object, -, rfl⟩ := Option.map_eq_some_iff.mp hs'
  refine ⟨h.free hc, rfl, rfl, fun d => ?_, fun d p hp => ?_, id⟩
  · rw [SceneHierarchy.sceneOf_free]
    rcases eq_or_ne d c with rfl | hdc
    · exact .inr (Function.update_self ..)
    · exact .inl (Function.update_of_ne hdc ..)
  · rw [SceneHierarchy.parentOf_free] at hp
    rcases eq_or_ne d c with rfl | hdc
    · rw [Function.update_self] at hp
      cases hp
    · rwa [Function.update_of_ne hdc] at hp

theorem Shrinks.destroyChildren {destroyChild : Scene ι ε → ι → Option (Scene ι ε)}
    (hdestroy : ∀ s c s', s.Registry → destroyChild s c = some s' → Shrinks s s') (h : s.Registry)
    (hs' : destroyChildren destroyChild fuel s c = some s') : Shrinks s s' := by
  induction fuel generalizing s with
  | zero => cases hs'
  | succ fuel ih =>
      obtain ⟨object, hobject, hs'⟩ := Option.bind_eq_some_iff.mp hs'
      split at hs'
      · cases hs'
        exact .refl h
      obtain ⟨t, ht, hs'⟩ := Option.bind_eq_some_iff.mp hs'
      have hshrinks : Shrinks s t := by
        split at ht
        · exact hdestroy s _ t h ht
        · cases ht
          refine .of_objects h (SceneHierarchy.sceneOf_put_same hobject rfl) (fun d p hp => ?_) id
          rwa [SceneHierarchy.parentOf_put_children hobject] at hp
      exact hshrinks.trans (ih hshrinks.registry hs')

variable [DecidableEq ε] {p : ι}

theorem Registry.addChild {ok : Bool} (h : s.Registry)
    (hs' : addChild fuel s p c = some (s', ok)) : s'.Registry ∧ s'.idInScene = s.idInScene := by
  obtain ⟨⟨objects, added⟩, hobjects, hs'⟩ := Option.map_eq_some_iff.mp hs'
  have hscene := SceneHierarchy.sceneOf_addChild hobjects
  dsimp only at hs'
  split at hs' <;> cases hs' <;> exact ⟨h.congr hscene rfl rfl rfl rfl rfl, rfl⟩

theorem Shrinks.removeChild (h : s.Registry) (hs' : removeChild fuel s p c = some s') :
    Shrinks s s' := by
  obtain ⟨⟨objects₁, isSet⟩, hobjects₁, hs'⟩ := Option.bind_eq_some_iff.mp hs'
  obtain ⟨objects, hobjects, rfl⟩ := Option.map_eq_some_iff.mp hs'
  have hscene := SceneHierarchy.sceneOf_removeChild hobjects
  have hparents : ∀ d q, objects.parentOf d = some q → s.objects.parentOf d = some q :=
    fun d q hq => by
      rw [SceneHierarchy.parentOf_removeChild hobjects hobjects₁] at hq
      cases isSet with
      | true =>
          rw [SceneHierarchy.parentOf_setParent hobjects₁] at hq
          rcases eq_or_ne d c with rfl | hdc
          · rw [Function.update_self] at hq
            cases hq
          · rwa [Function.update_of_ne hdc] at hq
      | false =>
          rwa [SceneHierarchy.parentOf_of_rootless
            (SceneHierarchy.rootless_of_setParent hobjects₁)] at hq
  split
  · exact .of_objects h hscene hparents fun _ => rfl
  · exact .of_objects h hscene hparents id

theorem Shrinks.leaveParent (h : s.Registry) (hs' : leaveParent fuel s c = some s') :
    Shrinks s s' := by
  obtain ⟨object, -, hs'⟩ := Option.bind_eq_some_iff.mp hs'
  split at hs'
  · exact .removeChild h hs'
  · cases hs'
    exact .refl h

theorem sceneOf_leaveParent (hs' : Scene.leaveParent fuel s c = some s') :
    s'.objects.sceneOf = s.objects.sceneOf := by
  obtain ⟨object, -, hs'⟩ := Option.bind_eq_some_iff.mp hs'
  split at hs'
  · obtain ⟨⟨objects₁, isSet⟩, -, hs'⟩ := Option.bind_eq_some_iff.mp hs'
    obtain ⟨objects, hobjects, rfl⟩ := Option.map_eq_some_iff.mp hs'
    have hscene := SceneHierarchy.sceneOf_removeChild hobjects
    split <;> exact hscene
  · cases hs'
    rfl

theorem Shrinks.destroyObject (h : s.Registry) (hs' : destroyObject fuel s c = some s') :
    Shrinks s s' := by
  induction fuel generalizing s s' c with
  | zero => cases hs'
  | succ fuel ih =>
      obtain ⟨object, hobject, hs'⟩ := Option.bind_eq_some_iff.mp hs'
      split at hs'
      · cases hs'
        exact .refl h
      obtain ⟨s₁, hs₁, hs'⟩ := Option.bind_eq_some_iff.mp hs'
      have hmarked : Shrinks s { s with
          objects := s.objects.put c { object with isDestroyed := true } } := by
        refine .of_objects h (SceneHierarchy.sceneOf_put_same hobject rfl) (fun d p hp => ?_) id
        rwa [SceneHierarchy.parentOf_put_same hobject
          (rfl : ({ object with isDestroyed := true } : SceneObject ι ε).parent = _)] at hp
      have hleft := hmarked.trans (.leaveParent hmarked.registry hs₁)
      have hscene₁ : s₁.objects.sceneOf c = some object.hasScene := by
        rw [sceneOf_leaveParent hs₁, SceneHierarchy.sceneOf_put, Function.update_self]
      split at hs'
      · rename_i hasScene
        obtain ⟨⟨s₂, ok⟩, hs₂, hs'⟩ := Option.bind_eq_some_iff.mp hs'
        have hremoves := hleft.registry.remove (by rw [hscene₁, hasScene]) hs₂
        have hremoved : Shrinks s₁ s₂ := hremoves.shrinks
        exact (hleft.trans hremoved).trans (.destroyChildren (fun s c s' h hs' => ih h hs')
          hremoves.registry hs')
      · rename_i hasScene
        obtain ⟨s₂, hs₂, hs'⟩ := Option.bind_eq_some_iff.mp hs'
        have hdestroyed : Shrinks s₁ s₂ :=
          .destroyChildren (fun s c s' h hs' => ih h hs') hleft.registry hs₂
        refine (hleft.trans hdestroyed).trans (.destroyImpl hdestroyed.registry ?_ hs')
        rintro ⟨hlive, -⟩
        rcases hdestroyed.sceneOf c with heq | hnone
        · rw [heq, hscene₁] at hlive
          exact hasScene (Option.some.inj hlive)
        · cases hnone.symm.trans hlive

theorem Shrinks.destroyNewQueue (h : s.Registry) (hs' : destroyNewQueue fuel s = some s') :
    Shrinks s s' ∧ s'.newQueue = [] := by
  induction fuel generalizing s with
  | zero => cases hs'
  | succ fuel ih =>
      rw [Scene.destroyNewQueue] at hs'
      split at hs'
      · rename_i hnil
        cases hs'
        exact ⟨.refl h, hnil⟩
      rename_i gameObject rest hcons
      -- what waits in the queue lives
      have hlive := (h.queued gameObject (hcons ▸ List.mem_cons_self)).1
      rw [if_pos (SceneHierarchy.isSome_of_sceneOf hlive.1)] at hs'
      obtain ⟨t, ht, hs'⟩ := Option.bind_eq_some_iff.mp hs'
      have hshrinks := Shrinks.destroyObject h ht
      obtain ⟨hshrinks', hnil⟩ := ih hshrinks.registry hs'
      exact ⟨hshrinks.trans hshrinks', hnil⟩

end

section

variable {ι ε : Type} [DecidableEq ι] {s s' : Scene ι ε} {c : ι} {fuel : ℕ}

theorem Registry.registerSceneObject (h : s.Registry)
    (hs' : registerSceneObject fuel s c = some s') :
    s'.Registry ∧ s'.idInScene = s.idInScene := by
  induction fuel generalizing s s' c with
  | zero => cases hs'
  | succ fuel ih =>
      obtain ⟨object, hobject, hs'⟩ := Option.bind_eq_some_iff.mp hs'
      split at hs'
      · cases hs'
      rename_i hassert
      obtain ⟨t, ht, rfl⟩ := Option.map_eq_some_iff.mp hs'
      have hregistered := h.register hobject (by simpa using fun hscene => hassert (.inr hscene))
      obtain ⟨hregistry, hids⟩ := Steps.foldlM_invariant
        (I := fun _ t => t.Registry ∧ t.idInScene = s.idInScene)
        (fun c _ t t' ht ht' => ⟨(ih ht.1 ht').1, (ih ht.1 ht').2.trans ht.2⟩)
        ⟨hregistered, rfl⟩ ht
      exact ⟨hregistry.congr rfl rfl rfl rfl rfl rfl, hids⟩

/-- The new objects are placed, and the ids of the others stay. -/
theorem Registry.placeObjects (h : s.Registry)
    (hs' : s.newQueue.foldlM Scene.placeObject s = some s') :
    Registry { s' with newQueue := [] } ∧
      ∀ d, d ∉ s.newQueue → s'.idInScene d = s.idInScene d := by
  have hend := Steps.foldlM_invariant
    (I := fun rest t => Registry { t with newQueue := rest } ∧ (∀ d ∈ rest, d ∈ s.newQueue) ∧
      ∀ d, d ∉ s.newQueue → t.idInScene d = s.idInScene d)
    (fun c rest t t' ht ht' => ?_) ⟨h, fun _ hd => hd, fun _ _ => rfl⟩ hs'
  · exact ⟨hend.1, hend.2.2⟩
  · obtain ⟨hregistry, hqueue, hids⟩ := ht
    obtain ⟨hregistry', hids'⟩ := hregistry.placeObject ht'
    refine ⟨hregistry', fun d hd => hqueue d (List.mem_cons_of_mem _ hd), fun d hd => ?_⟩
    rw [hids' d fun heq => hd (heq ▸ hqueue c List.mem_cons_self), hids d hd]

/-- All objects that wait to be freed are freed. -/
theorem Registry.freeDeleted (h : s.Registry)
    (hs' : s.deleteQueue.foldlM destroyImpl s = some s') :
    Registry { s' with deleteQueue := [] } ∧ s'.idInScene = s.idInScene := by
  have hend := Steps.foldlM_invariant
    (I := fun rest t => Shrinks s t ∧ t.deleteQueue = s.deleteQueue ∧
      (∀ d ∈ rest, d ∈ s.deleteQueue) ∧
      ∀ d ∈ s.deleteQueue, d ∈ rest ∨ t.objects.sceneOf d = none)
    (fun c rest t t' ht ht' => ?_) ⟨.refl h, rfl, fun _ hd => hd, fun d hd => .inl hd⟩ hs'
  · obtain ⟨hshrinks, hdelete, -, hfreed⟩ := hend
    refine ⟨?_, hshrinks.idInScene⟩
    have hregistry := hshrinks.registry
    have hlive : ∀ d, Live { s' with deleteQueue := [] } d ↔ s'.Live d := fun d => by
      rw [Live, Live]
      refine and_congr_right fun hd => iff_of_true List.not_mem_nil fun hmem => ?_
      rcases hfreed d (hdelete ▸ hmem) with hfalse | hnone
      · cases hfalse
      · cases hnone.symm.trans hd
    constructor
    · exact hregistry.exact
    · exact hregistry.length_lt
    · intro i d hi
      rw [hlive]
      exact hregistry.held i d hi
    · intro d hd
      rw [hlive]
      exact hregistry.queued d hd
    · exact hregistry.nodup
    · exact fun d hd => hregistry.covered d ((hlive d).mp hd)
    · exact fun d hd => (List.not_mem_nil hd).elim
    · exact hregistry.outside
    · exact fun d hd => hregistry.known d (.inl (hd.resolve_right List.not_mem_nil))
  · obtain ⟨hshrinks, hdelete, hqueue, hfreed⟩ := ht
    obtain ⟨object, -, rfl⟩ := Option.map_eq_some_iff.mp ht'
    have hdead : ¬ t.Live c := fun hlive =>
      hlive.2 (hdelete ▸ hqueue c List.mem_cons_self)
    refine ⟨hshrinks.trans (.destroyImpl hshrinks.registry hdead ht'), hdelete,
      fun d hd => hqueue d (List.mem_cons_of_mem _ hd), fun d hd => ?_⟩
    rw [SceneHierarchy.sceneOf_free]
    rcases eq_or_ne d c with rfl | hdc
    · exact .inr (Function.update_self ..)
    · rw [Function.update_of_ne hdc]
      exact (hfreed d hd).imp_left fun hmem => (List.mem_cons.mp hmem).resolve_left hdc

variable [DecidableEq ε]

theorem Registry.prepare {destroyedComponents : Bool} (h : s.Registry)
    (hs' : prepare fuel s destroyedComponents = some s') : s'.Registry ∧ s.KeepsIds s' := by
  obtain ⟨s₁, hs₁, hs'⟩ := Option.bind_eq_some_iff.mp hs'
  obtain ⟨s₂, hs₂, rfl⟩ := Option.map_eq_some_iff.mp hs'
  generalize htold : (if s.deleteQueue ≠ [] ∨ s.newQueue ≠ [] ∨ destroyedComponents = true then
    s.onChanged else s) = t at hs₁
  obtain ⟨ht, hids⟩ : t.Registry ∧ t.idInScene = s.idInScene := by
    rw [← htold]
    split
    · exact ⟨h.congr rfl rfl rfl rfl rfl rfl, rfl⟩
    · exact ⟨h, rfl⟩
  have hplaced : Registry { s₁ with newQueue := [] } ∧ t.KeepsIds s₁ := by
    split at hs₁
    · obtain ⟨hshrinks, hnil⟩ := Shrinks.destroyNewQueue ht hs₁
      exact ⟨hshrinks.registry.congr rfl rfl hnil.symm rfl rfl rfl, .of_eq hshrinks.idInScene⟩
    · obtain ⟨hregistry, hkept⟩ := ht.placeObjects hs₁
      exact ⟨hregistry, fun c hc => hkept c fun hmem => hc (ht.queued c hmem).2⟩
  obtain ⟨hregistry, hids'⟩ := hplaced.1.freeDeleted hs₂
  refine ⟨hregistry, KeepsIds.trans (.of_eq hids) (hplaced.2.trans ?_)⟩
  exact .of_eq hids'

theorem Registry.destroy (h : s.Registry) (hs' : destroy fuel s = some s') :
    s'.Registry ∧ s.KeepsIds s' := by
  rw [Scene.destroy] at hs'
  split at hs'
  · cases hs'
    exact ⟨h, .of_eq rfl⟩
  obtain ⟨s₁, hs₁, hs'⟩ := Option.bind_eq_some_iff.mp hs'
  obtain ⟨s₂, hs₂, rfl⟩ := Option.map_eq_some_iff.mp hs'
  have hstart : Registry ({ s with isPreDestroyed := true }.getRootSceneObjects).2 ∧
      ({ s with isPreDestroyed := true }.getRootSceneObjects).2.idInScene = s.idInScene := by
    rw [getRootSceneObjects]
    split <;> exact ⟨h.congr rfl rfl rfl rfl rfl rfl, rfl⟩
  have hshrinks := Shrinks.foldlM (fun s c s' h hs' => .destroyObject h hs') hstart.1 hs₁
  obtain ⟨hregistry, hids⟩ := hshrinks.registry.prepare hs₂
  refine ⟨hregistry.congr rfl rfl rfl rfl rfl rfl, ?_⟩
  have hids₁ : s.KeepsIds s₁ := .of_eq (hshrinks.idInScene.trans hstart.2)
  exact hids₁.trans hids

theorem Registry.step {call : ℕ × SceneCall ι ε} {r : Scene ι ε × List ι} (h : s.Registry)
    (hcall : s.OnScene call) (hr : step s call = some r) :
    r.1.Registry ∧ s.NotOverwritten r.1 := by
  have hkeeps : r.1.Registry ∧ s.KeepsIds r.1 → r.1.Registry ∧ s.NotOverwritten r.1 :=
    fun hboth => ⟨hboth.1, h.notOverwritten_of_keepsIds hboth.1 hboth.2⟩
  have hshrinks : Shrinks s r.1 → r.1.Registry ∧ s.NotOverwritten r.1 :=
    fun hshrinks => hkeeps ⟨hshrinks.registry, .of_eq hshrinks.idInScene⟩
  obtain ⟨fuel, call⟩ := call
  cases call with
  | create self entityId =>
      obtain ⟨t, ht, rfl⟩ := Option.map_eq_some_iff.mp hr
      rw [Scene.create] at ht
      split at ht
      · cases ht
      rename_i hfresh
      obtain ⟨objects, hobjects, rfl⟩ := Option.map_eq_some_iff.mp ht
      obtain ⟨-, rfl⟩ := SceneHierarchy.create_eq hobjects
      have hregistry : Registry { s with
          objects := s.objects.put self { entityId, hasScene := false, entityPath := [entityId] }
          created := self :: s.created
          idInScene := Function.update s.idInScene self invalidId } :=
        h.create hfresh SceneHierarchy.sceneOf_put rfl rfl rfl rfl rfl
      refine ⟨hregistry, h.notOverwritten hregistry fun i c hi => Function.update_of_ne ?_ ..⟩
      rintro rfl
      exact hfresh (h.known c (.inl (by rw [(h.held i c hi).1.1]; rfl)))
  | addChild self pChild =>
      obtain ⟨⟨t, ok⟩, ht, rfl⟩ := Option.map_eq_some_iff.mp hr
      obtain ⟨hregistry, hids⟩ := h.addChild ht
      exact hkeeps ⟨hregistry, .of_eq hids⟩
  | removeChild self pChild =>
      obtain ⟨t, ht, rfl⟩ := Option.map_eq_some_iff.mp hr
      exact hshrinks (.removeChild h ht)
  | registerSceneObject ptr =>
      obtain ⟨t, ht, rfl⟩ := Option.map_eq_some_iff.mp hr
      obtain ⟨hregistry, hids⟩ := h.registerSceneObject ht
      exact hkeeps ⟨hregistry, .of_eq hids⟩
  | remove gameObject =>
      obtain ⟨⟨t, ok⟩, ht, rfl⟩ := Option.map_eq_some_iff.mp hr
      have hremoves := h.remove (owns_iff.mp hcall) ht
      exact hshrinks hremoves.shrinks
  | destroyObject self =>
      obtain ⟨t, ht, rfl⟩ := Option.map_eq_some_iff.mp hr
      exact hshrinks (.destroyObject h ht)
  | prepare destroyedComponents =>
      obtain ⟨t, ht, rfl⟩ := Option.map_eq_some_iff.mp hr
      exact hkeeps (h.prepare ht)
  | getRootSceneObjects =>
      cases hr
      refine hkeeps ?_
      dsimp only
      rw [getRootSceneObjects]
      split <;> exact ⟨h.congr rfl rfl rfl rfl rfl rfl, .of_eq rfl⟩
  | destroy =>
      obtain ⟨t, ht, rfl⟩ := Option.map_eq_some_iff.mp hr
      exact hkeeps (h.destroy ht)

end

/-- A parent and its child are registered and placed; one is removed and its slot is used again. -/
def placedAndReused : List (ℕ × SceneCall ℕ ℕ) :=
  [(9, .create 0 10), (9, .create 1 11), (9, .addChild 0 1), (9, .registerSceneObject 0),
    (9, .prepare false), (9, .remove 0), (9, .create 2 12), (9, .registerSceneObject 2),
    (9, .prepare false)]

end Scene

end SRCommon
