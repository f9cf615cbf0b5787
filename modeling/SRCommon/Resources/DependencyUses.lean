import SRCommon.Resources.ResourceContainer
import SRCommon.Resources.ResourceDeletion

/-!
# Use points of dependencies

While no dependency of a resource is added twice and no container is destroyed
that still has dependencies, both sets agree and a resource has a use point for
each container that depends on it.
-/

namespace SRCommon

namespace Containers

variable {ι : Type} {s s' : Containers ι} {base : ι → ℕ} {a a' b c : ι}

/-- The sets agree, and the use points above `base` are those of the dependencies. -/
structure Exact (s : Containers ι) (base : ι → ℕ) : Prop where
  symmetric : ∀ a b, b ∈ s.dependencies a ↔ a ∈ s.parents b
  counted : ∀ b x, s.manager.resource b = some x →
    x.countUses.toNat = base b + {a | b ∈ s.dependencies a}.ncard

/-- What the calls rely on. -/
structure Sound (s : Containers ι) (base : ι → ℕ) : Prop where
  symmetric : ∀ a b, b ∈ s.dependencies a ↔ a ∈ s.parents b
  nodup_dependencies : ∀ a, (s.dependencies a).Nodup
  nodup_parents : ∀ b, (s.parents b).Nodup
  live : ∀ a b, b ∈ s.dependencies a → s.live a = true ∧ s.live b = true
  live_resource : ∀ b, (s.manager.resource b).isSome → s.live b = true
  counted : ∀ b x, s.manager.resource b = some x →
    x.countUses.toNat = base b + (s.parents b).length

theorem Sound.exact (h : s.Sound base) : s.Exact base where
  symmetric := h.symmetric
  counted b x hx := by
    classical
    have hset : {a | b ∈ s.dependencies a} = ((s.parents b).toFinset : Set ι) := by
      ext a
      rw [Set.mem_ofPred_eq, h.symmetric, Finset.mem_coe, List.mem_toFinset]
    rw [h.counted b x hx, hset, Set.ncard_coe_finset,
      List.toFinset_card_of_nodup (h.nodup_parents b)]

/-- The containers before the first dependency. -/
theorem sound_initial (hdependencies : ∀ a, s.dependencies a = []) (hparents : ∀ b, s.parents b = [])
    (hlive : ∀ b, (s.manager.resource b).isSome → s.live b = true)
    (hbase : ∀ b x, s.manager.resource b = some x → x.countUses.toNat = base b) : s.Sound base where
  symmetric a b := by rw [hdependencies, hparents]; simp
  nodup_dependencies a := by rw [hdependencies]; exact List.nodup_nil
  nodup_parents b := by rw [hparents]; exact List.nodup_nil
  live a b hb := by
    rw [hdependencies] at hb
    cases hb
  live_resource := hlive
  counted b x hx := by
    rw [hparents]
    exact hbase b x hx

/-- Fewer resources have less to count. -/
theorem Sound.fewer {manager : ResourceManager ι} (h : s.Sound base)
    (hresource : ∀ q y, manager.resource q = some y → s.manager.resource q = some y) :
    { s with manager }.Sound base where
  symmetric := h.symmetric
  nodup_dependencies := h.nodup_dependencies
  nodup_parents := h.nodup_parents
  live := h.live
  live_resource q hq := by
    obtain ⟨y, hy⟩ := Option.isSome_iff_exists.mp hq
    exact h.live_resource q (by rw [hresource q y hy]; rfl)
  counted q y hy := h.counted q y (hresource q y hy)

variable [DecidableEq ι]

/-- A call on containers that are there. -/
def Applies (s : Containers ι) : ContainerCall ι → Prop
  | .addDependency a b | .removeDependency a b => s.live a = true ∧ s.live b = true
  | .destruct a => s.live a = true

/-- `RemoveDependency` takes the last use point of a resource that was never registered. -/
def Frees (s : Containers ι) (a b : ι) : Prop :=
  b ∈ s.dependencies a ∧ s.manager.Is
    (fun x => x.countUses = 1 ∧ x.isDestroyed = false ∧ x.isRegistered = false) b

/-- A dependency on a resource is new and the resource has room for its use point. A container that
is destroyed has no dependencies left. -/
def Keeps (s : Containers ι) : ContainerCall ι → Prop
  | .addDependency a b => ∀ x, s.manager.resource b = some x →
      b ∉ s.dependencies a ∧ x.countUses.toNat + 1 < 65536
  | .removeDependency a b => s.Frees a b → (s.unlink a b).dependencies b = []
  | .destruct a => s.dependencies a = []

/-! ## Removal -/

theorem mem_dependencies_unlink (h : s.Sound base) :
    c ∈ (s.unlink a b).dependencies a' ↔ c ∈ s.dependencies a' ∧ ¬(a' = a ∧ c = b) := by
  dsimp only [unlink]
  rcases eq_or_ne a' a with rfl | ha
  · rw [Function.update_self, (h.nodup_dependencies a').mem_erase_iff, and_comm]
    simp
  · rw [Function.update_of_ne ha]
    simp [ha]

theorem mem_parents_unlink (h : s.Sound base) :
    a' ∈ (s.unlink a b).parents c ↔ a' ∈ s.parents c ∧ ¬(a' = a ∧ c = b) := by
  dsimp only [unlink]
  rcases eq_or_ne c b with rfl | hc
  · rw [Function.update_self, (h.nodup_parents c).mem_erase_iff, and_comm]
    simp
  · rw [Function.update_of_ne hc]
    simp [hc]

theorem parents_unlink_of_ne (hc : c ≠ b) : (s.unlink a b).parents c = s.parents c :=
  Function.update_of_ne hc ..

/-- A dependency on a container whose use points are counted elsewhere. -/
theorem Sound.unlink {manager : ResourceManager ι} (h : s.Sound base) (hb : b ∈ s.dependencies a)
    (hothers : ∀ q ≠ b, manager.resource q = s.manager.resource q)
    (hlive : (manager.resource b).isSome → s.live b = true)
    (hself : ∀ y, manager.resource b = some y →
      y.countUses.toNat + 1 = base b + (s.parents b).length) :
    { s.unlink a b with manager }.Sound base where
  symmetric a' c := by
    refine (mem_dependencies_unlink h).trans ((and_congr_left fun _ => ?_).trans
      (mem_parents_unlink h).symm)
    exact h.symmetric a' c
  nodup_dependencies a' := by
    dsimp only [Containers.unlink]
    rcases eq_or_ne a' a with rfl | ha
    · rw [Function.update_self]
      exact (h.nodup_dependencies _).erase _
    · rw [Function.update_of_ne ha]
      exact h.nodup_dependencies a'
  nodup_parents c := by
    dsimp only [Containers.unlink]
    rcases eq_or_ne c b with rfl | hc
    · rw [Function.update_self]
      exact (h.nodup_parents _).erase _
    · rw [Function.update_of_ne hc]
      exact h.nodup_parents c
  live a' c hc := h.live a' c ((mem_dependencies_unlink h).mp hc).1
  live_resource q hq := by
    rcases eq_or_ne q b with rfl | hne
    · exact hlive hq
    · exact h.live_resource q (by rwa [← hothers q hne])
  counted q y hy := by
    rcases eq_or_ne q b with rfl | hne
    · have ha : a ∈ s.parents q := (h.symmetric a q).mp hb
      have hlength : ((s.parents q).erase a).length = (s.parents q).length - 1 :=
        List.length_erase_of_mem ha
      have hpos := List.length_pos_of_mem ha
      have hcount := hself y hy
      change y.countUses.toNat = base q + ((Function.update s.parents q _ q)).length
      rw [Function.update_self, hlength]
      omega
    · have hcount := h.counted q y ((hothers q hne).symm.trans hy)
      rw [← parents_unlink_of_ne (s := s) (a := a) hne] at hcount
      exact hcount

/-! ## Destruction -/

/-- The container leaves all its parents. It is no resource any more. -/
theorem Sound.leaveParents (h : s.Sound base) (hgone : s.manager.resource a = none)
    (hdependencies : s.dependencies a = []) :
    ∃ s', Containers.leaveParents a (s.parents a) s = some s' ∧ s'.Sound base ∧
      s'.manager = s.manager ∧ s'.dependencies a = [] ∧ s'.parents a = [] := by
  have hloop : ∀ (parents : List ι) (s : Containers ι), s.Sound base →
      s.manager.resource a = none → s.dependencies a = [] → s.parents a = parents →
      ∃ s', Containers.leaveParents a parents s = some s' ∧ s'.Sound base ∧
        s'.manager = s.manager ∧ s'.dependencies a = [] ∧ s'.parents a = [] := by
    intro parents
    induction parents with
    | nil => exact fun s h _ hdependencies hparents => ⟨s, rfl, h, rfl, hdependencies, hparents⟩
    | cons p parents ih =>
        intro s h hgone hdependencies hparents
        have hp : a ∈ s.dependencies p := by
          rw [h.symmetric, hparents]
          exact List.mem_cons_self
        have hpa : p ≠ a := by
          rintro rfl
          rw [hdependencies] at hp
          cases hp
        rw [Containers.leaveParents, if_pos (by rw [(h.live p a hp).1, decide_eq_true hp]; rfl)]
        have hunlink : (s.unlink p a).Sound base := h.unlink hp (fun _ _ => rfl)
          (fun hsome => h.live_resource a hsome) fun y hy => by rw [hgone] at hy; cases hy
        refine ih _ hunlink hgone ?_ ?_
        · exact (Function.update_of_ne hpa.symm ..).trans hdependencies
        · refine (Function.update_self ..).trans ?_
          rw [hparents, List.erase_cons_head]
  exact hloop _ s h hgone hdependencies rfl

theorem Sound.destructContainer (h : s.Sound base) (hgone : s.manager.resource a = none)
    (hdependencies : s.dependencies a = []) :
    ∃ s', s.destructContainer a = some s' ∧ s'.Sound base := by
  obtain ⟨s₁, hs₁, hsound, hmanager, hdeps, hparents⟩ := h.leaveParents hgone hdependencies
  rw [Containers.destructContainer, hs₁, Option.map_some]
  refine ⟨_, rfl, ?_⟩
  have hsets : Function.update s₁.dependencies a [] = s₁.dependencies := by
    rw [← hdeps, Function.update_eq_self]
  have hsets' : Function.update s₁.parents a [] = s₁.parents := by
    rw [← hparents, Function.update_eq_self]
  rw [hsets, hsets']
  refine ⟨hsound.symmetric, hsound.nodup_dependencies, hsound.nodup_parents, fun p c hc => ?_,
    fun q hq => ?_, hsound.counted⟩
  · have hpa : p ≠ a := by
      rintro rfl
      rw [hdeps] at hc
      cases hc
    have hca : c ≠ a := by
      rintro rfl
      have hp := (hsound.symmetric p c).mp hc
      rw [hparents] at hp
      cases hp
    obtain ⟨hp, hc⟩ := hsound.live p c hc
    exact ⟨(Function.update_of_ne hpa ..).trans hp, (Function.update_of_ne hca ..).trans hc⟩
  · have hqa : q ≠ a := by
      rintro rfl
      rw [hmanager, hgone] at hq
      cases hq
    exact (Function.update_of_ne hqa ..).trans (hsound.live_resource q hq)

theorem Sound.destruct (h : s.Sound base) (hlive : s.live a = true)
    (hdependencies : s.dependencies a = []) : ∃ s', s.destruct a = some s' ∧ s'.Sound base := by
  rw [Containers.destruct, if_pos hlive]
  cases hx : s.manager.resource a with
  | none =>
      rw [Option.isSome_none, if_neg Bool.false_ne_true, Option.bind_some]
      exact h.destructContainer hx hdependencies
  | some x =>
      rw [Option.isSome_some, if_pos rfl, IResource.deleteResource, hx, Option.map_some,
        Option.bind_some]
      refine Sound.destructContainer (h.fewer fun q y hy => ?_) (Function.update_self ..)
        hdependencies
      rcases eq_or_ne q a with rfl | hq
      · exact absurd ((Function.update_self ..).symm.trans hy) (by simp)
      · exact (Function.update_of_ne hq ..).symm.trans hy

/-! ## Use points -/

theorem removeUsePoint_eq {m : ResourceManager ι} {x : Resource} (hx : m.resource b = some x)
    (hpos : x.countUses ≠ 0) :
    ∃ result m', IResource.removeUsePoint m b = some (result, m') ∧
      (∀ q ≠ b, m'.resource q = m.resource q) ∧
      (m'.resource b = none ∧ x.countUses = 1 ∧ x.isDestroyed = false ∧ x.isRegistered = false ∨
        ∃ y, m'.resource b = some y ∧ y.countUses = x.countUses - 1) := by
  rw [IResource.removeUsePoint, hx, Option.bind_some, if_neg hpos]
  dsimp only
  have hself := ResourceManager.resource_modify_self (f := fun x => { x with
    countUses := x.countUses - 1
    usePoints := x.usePoints - 1 }) hx
  have hothers : ∀ q ≠ b, (m.modify b fun x => { x with
      countUses := x.countUses - 1
      usePoints := x.usePoints - 1 }).resource q = m.resource q :=
    fun q hq => ResourceManager.resource_modify_of_ne hq
  generalize m.modify b (fun x => { x with
    countUses := x.countUses - 1
    usePoints := x.usePoints - 1 }) = m₁ at hself hothers
  split
  · rename_i hunused
    split
    · have hdestroy := ResourceManager.resource_modify_self
        (f := fun x => { x with isDestroyed := true }) hself
      rw [← ResourceManager.resource_destroy] at hdestroy
      refine ⟨_, _, rfl, fun q hq => ?_, .inr ⟨_, hdestroy, rfl⟩⟩
      rw [ResourceManager.resource_destroy, ResourceManager.resource_modify_of_ne hq, hothers q hq]
    · rename_i hregistered
      rw [IResource.deleteResource, hself, Option.map_some, Option.map_some]
      refine ⟨_, _, rfl, fun q hq => (Function.update_of_ne hq ..).trans (hothers q hq),
        .inl ⟨Function.update_self .., ?_, hunused.2, Bool.eq_false_of_not_eq_true hregistered⟩⟩
      exact (UInt16.sub_eq_iff_eq_add.mp hunused.1).trans (UInt16.zero_add 1)
  · exact ⟨_, _, rfl, hothers, .inr ⟨_, hself, rfl⟩⟩

theorem Sound.removeDependency (h : s.Sound base) (hlive : s.live a = true ∧ s.live b = true)
    (hfrees : s.Frees a b → (s.unlink a b).dependencies b = []) :
    ∃ s', s.removeDependency a b = some s' ∧ s'.Sound base := by
  rw [Containers.removeDependency, if_pos (by rw [hlive.1, hlive.2]; rfl)]
  split
  · exact ⟨s, rfl, h⟩
  rename_i hboth
  obtain ⟨hb, ha⟩ := not_or.mp hboth
  rw [not_not] at hb ha
  dsimp only
  have hpos := List.length_pos_of_mem ha
  cases hx : s.manager.resource b with
  | none =>
      have hnone : (s.unlink a b).manager.resource b = none := hx
      rw [hnone, Option.isSome_none, if_neg Bool.false_ne_true]
      refine ⟨_, rfl, h.unlink hb (fun _ _ => rfl) (fun _ => hlive.2) fun y hy => ?_⟩
      rw [hx] at hy
      cases hy
  | some x =>
      have hcount := h.counted b x hx
      have hne : x.countUses ≠ 0 := by
        intro hzero
        rw [hzero] at hcount
        change 0 = _ at hcount
        omega
      have hsome : (s.unlink a b).manager.resource b = some x := hx
      obtain ⟨result, m', hm', hothers, hself⟩ := removeUsePoint_eq hsome hne
      rw [hsome, Option.isSome_some, if_pos rfl, hm', Option.bind_some]
      dsimp only
      have hle : 1 ≤ x.countUses := by
        rw [UInt16.le_iff_toNat_le]
        exact Nat.one_le_iff_ne_zero.mpr fun hzero => hne (UInt16.toNat_inj.mp hzero)
      have hsound : { s.unlink a b with manager := m' }.Sound base := by
        refine h.unlink hb hothers (fun _ => hlive.2) fun y hy => ?_
        rcases hself with ⟨hnone, -⟩ | ⟨z, hz, hzcount⟩
        · rw [hnone] at hy
          cases hy
        · rw [hz] at hy
          cases hy
          rw [hzcount, UInt16.toNat_sub_of_le _ _ hle, hcount]
          change _ - 1 + 1 = _
          omega
      rcases hself with ⟨hnone, hfree⟩ | ⟨z, hz, -⟩
      · rw [hnone, Option.isSome_none, if_neg Bool.false_ne_true]
        exact hsound.destructContainer hnone (hfrees ⟨hb, x, hx, hfree⟩)
      · rw [hz, Option.isSome_some, if_pos rfl]
        exact ⟨_, rfl, hsound⟩

/-- A dependency, which is new if it is counted. -/
theorem Sound.addDependency (h : s.Sound base) (hlive : s.live a = true ∧ s.live b = true)
    (hnew : ∀ x, s.manager.resource b = some x →
      b ∉ s.dependencies a ∧ x.countUses.toNat + 1 < 65536) :
    ∃ s', s.addDependency a b = some s' ∧ s'.Sound base := by
  have hmanager : ∃ manager, (if (s.manager.resource b).isSome then
      IResource.addUsePoint s.manager b else some s.manager) = some manager ∧
      (∀ q ≠ b, manager.resource q = s.manager.resource q) ∧
      ∀ y, manager.resource b = some y → y.countUses.toNat =
        base b + ((s.parents b).insert a).length := by
    cases hx : s.manager.resource b with
    | none =>
        refine ⟨s.manager, if_neg Bool.false_ne_true, fun _ _ => rfl, fun y hy => ?_⟩
        rw [hx] at hy
        cases hy
    | some x =>
        obtain ⟨hnot, hroom⟩ := hnew x hx
        rw [Option.isSome_some, if_pos rfl, IResource.addUsePoint, hx, Option.map_some]
        refine ⟨_, rfl, fun q hq => ResourceManager.resource_modify_of_ne hq, fun y hy => ?_⟩
        rw [ResourceManager.resource_modify_self hx] at hy
        cases hy
        have ha : a ∉ s.parents b := fun hmem => hnot ((h.symmetric a b).mpr hmem)
        rw [List.length_insert_of_not_mem ha, ← Nat.add_assoc, ← h.counted b x hx]
        rw [UInt16.toNat_add]
        exact Nat.mod_eq_of_lt hroom
  obtain ⟨manager, hm, hothers, hself⟩ := hmanager
  rw [Containers.addDependency, if_pos (by rw [hlive.1, hlive.2]; rfl), hm, Option.map_some]
  refine ⟨_, rfl, ?_⟩
  have hdependencies : ∀ a' c, c ∈ Function.update s.dependencies a ((s.dependencies a).insert b) a' ↔
      c ∈ s.dependencies a' ∨ a' = a ∧ c = b := by
    intro a' c
    rcases eq_or_ne a' a with rfl | ha
    · rw [Function.update_self, List.mem_insert_iff, or_comm]
      simp
    · rw [Function.update_of_ne ha]
      simp [ha]
  refine ⟨fun a' c => ?_, fun a' => ?_, fun c => ?_, fun a' c hc => ?_, fun q hq => ?_,
    fun q y hy => ?_⟩
  · rw [hdependencies, h.symmetric]
    dsimp only
    rcases eq_or_ne c b with rfl | hc
    · rw [Function.update_self, List.mem_insert_iff, or_comm]
      simp
    · rw [Function.update_of_ne hc]
      simp [hc]
  · dsimp only
    rcases eq_or_ne a' a with rfl | ha
    · rw [Function.update_self]
      exact (h.nodup_dependencies _).insert
    · rw [Function.update_of_ne ha]
      exact h.nodup_dependencies a'
  · dsimp only
    rcases eq_or_ne c b with rfl | hc
    · rw [Function.update_self]
      exact (h.nodup_parents _).insert
    · rw [Function.update_of_ne hc]
      exact h.nodup_parents c
  · rcases (hdependencies a' c).mp hc with hc | ⟨rfl, rfl⟩
    · exact h.live a' c hc
    · exact hlive
  · rcases eq_or_ne q b with rfl | hne
    · exact hlive.2
    · exact h.live_resource q (by rwa [← hothers q hne])
  · dsimp only
    rcases eq_or_ne q b with rfl | hne
    · rw [Function.update_self]
      exact hself y hy
    · rw [Function.update_of_ne hne]
      exact h.counted q y ((hothers q hne).symm.trans hy)

/-! ## Runs -/

theorem Sound.step {call : ContainerCall ι} (h : s.Sound base) (hcall : s.Applies call)
    (hkeeps : s.Keeps call) : ∃ r, s.step call = some r ∧ r.1.Sound base := by
  cases call with
  | addDependency a b =>
      obtain ⟨s', hs', hsound⟩ := h.addDependency hcall hkeeps
      exact ⟨(s', ()), by rw [Containers.step, hs', Option.map_some], hsound⟩
  | removeDependency a b =>
      obtain ⟨s', hs', hsound⟩ := h.removeDependency hcall hkeeps
      exact ⟨(s', ()), by rw [Containers.step, hs', Option.map_some], hsound⟩
  | destruct a =>
      obtain ⟨s', hs', hsound⟩ := h.destruct hcall hkeeps
      exact ⟨(s', ()), by rw [Containers.step, hs', Option.map_some], hsound⟩

/-- In a run that keeps to the conditions every call comes to its end, and the use points are
exact. -/
theorem exact_of_keeps {calls : List (ContainerCall ι)}
    (hdependencies : ∀ a, s.dependencies a = []) (hparents : ∀ b, s.parents b = [])
    (hlive : ∀ b, (s.manager.resource b).isSome → s.live b = true)
    (hbase : ∀ b x, s.manager.resource b = some x → x.countUses.toNat = base b)
    (h : Steps.Along step (fun s call => s.Applies call ∧ s.Keeps call) s calls) :
    ∃ r, Steps.run step s calls = some r ∧ r.1.Exact base := by
  have hrun : ∀ {s : Containers ι}, s.Sound base →
      Steps.Along step (fun s call => s.Applies call ∧ s.Keeps call) s calls →
      ∃ r, Steps.run step s calls = some r ∧ r.1.Sound base := by
    clear h
    induction calls with
    | nil => exact fun {s} hs _ => ⟨(s, []), rfl, hs⟩
    | cons call calls ih =>
        rintro s hs ⟨⟨happlies, hkeeps⟩, hrest⟩
        obtain ⟨r, hr, hsound⟩ := hs.step happlies hkeeps
        obtain ⟨r', hr', hsound'⟩ := ih hsound (hrest r hr)
        exact ⟨(r'.1, r.2 :: r'.2), by rw [Steps.run_cons hr, hr', Option.map_some], hsound'⟩
  obtain ⟨r, hr, hsound⟩ := hrun (sound_initial hdependencies hparents hlive hbase) h
  exact ⟨r, hr, hsound.exact⟩

/-- Two containers, the second of which is a registered resource. -/
def withResource : Containers Bool where
  manager := { resource := fun b => if b then some {
    resourceHashName := 7
    resourceId := [97]
    resourcePath := [97]
    isRegistered := true } else none }
  live _ := true

theorem exact_of_keeps_sample :
    ∃ r, Steps.run step withResource [.addDependency false true, .removeDependency false true,
      .addDependency false true] = some r ∧ r.1.Exact fun _ => 0 := by
  refine exact_of_keeps (fun _ => rfl) (fun _ => rfl) (fun _ _ => rfl) (fun b x hx => ?_) ?_
  · cases b <;> cases hx
    rfl
  · refine ⟨⟨⟨rfl, rfl⟩, fun x hx => ?_⟩, ?_⟩
    · cases hx
      decide
    rintro _ ⟨⟩
    refine ⟨⟨⟨rfl, rfl⟩, fun _ => rfl⟩, ?_⟩
    rintro _ ⟨⟩
    refine ⟨⟨⟨rfl, rfl⟩, fun x hx => ?_⟩, fun _ _ => trivial⟩
    cases hx
    decide

/-- The same dependency is added twice and removed once, which leaves a use point. -/
theorem not_exact_of_twice :
    ∃ r, Steps.run step withResource [.addDependency false true, .addDependency false true,
      .removeDependency false true] = some r ∧ ¬ r.1.Exact fun _ => 0 := by
  refine ⟨_, rfl, fun h => ?_⟩
  have hcount := h.counted true _ rfl
  generalize hset : {a | _} = dependents at hcount
  have hempty : dependents = ∅ := by
    rw [← hset]
    refine Set.eq_empty_of_forall_notMem fun a ha => ?_
    cases a <;> cases ha
  rw [hempty, Set.ncard_empty] at hcount
  cases hcount

end Containers

end SRCommon
