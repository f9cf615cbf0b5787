import SRCommon.Lib.PartialRun
import SRCommon.Resources.ResourceManager

/-!
# Deletion of resources

The queue of the manager holds the resources that are destroyed and not yet
deleted, and its indices hold those that are registered. A resource is deleted
with no use point, and once.
-/

namespace SRCommon

namespace ResourceManager

variable {ι : Type} {m m' : ResourceManager ι} {r q : ι} {x : Resource}

/-- The resource is there and has the property. -/
def Is (m : ResourceManager ι) (P : Resource → Prop) (r : ι) : Prop :=
  ∃ x, m.resource r = some x ∧ P x

/-- The resources that are deleted, and those in the queue and the indices. -/
structure Safe (m : ResourceManager ι) : Prop where
  nodup_destroyed : m.destroyed.Nodup
  mem_destroyed : ∀ r, r ∈ m.destroyed ↔ m.Is (fun x => x.isDestroyed = true) r
  nodup_deleted : (m.deleted.map Prod.fst).Nodup
  unused : ∀ r n, (r, n) ∈ m.deleted → n = 0
  gone : ∀ r ∈ m.deleted.map Prod.fst, m.resource r = none ∧ r ∉ m.destroyed ∧
    ∀ h, r ∉ (m.resources h).resources ∧
      (∀ id, ¬KeyedSets.Mem (m.resources h).copies id r) ∧
      ∀ path, ¬KeyedSets.Mem (m.resources h).info path r

/-- The indices hold the resources that satisfy `P`, each under its keys. -/
structure Indexes (m : ResourceManager ι) (P : Resource → ι → Prop) : Prop where
  nodup_resources : ∀ h, (m.resources h).resources.Nodup
  mem_resources : ∀ h r, r ∈ (m.resources h).resources ↔
    m.Is (fun x => P x r ∧ x.resourceHashName = h) r
  unique_copies : ∀ h, KeyedSets.Unique (m.resources h).copies
  mem_copies : ∀ h id r, KeyedSets.Mem (m.resources h).copies id r ↔
    m.Is (fun x => P x r ∧ x.resourceHashName = h ∧ x.resourceId = id) r
  unique_info : ∀ h, KeyedSets.Unique (m.resources h).info
  mem_info : ∀ h path r, KeyedSets.Mem (m.resources h).info path r ↔
    m.Is (fun x => P x r ∧ x.resourceHashName = h ∧ x.resourcePath = path) r

/-- What the calls rely on. -/
structure Sound (m : ResourceManager ι) : Prop where
  nodup_destroyed : m.destroyed.Nodup
  mem_destroyed : ∀ r, r ∈ m.destroyed ↔ m.Is (fun x => x.isDestroyed = true) r
  indexes : m.Indexes fun x _ => x.isRegistered = true
  counted : ∀ r x, m.resource r = some x → x.countUses.toNat = x.usePoints
  nodup_deleted : (m.deleted.map Prod.fst).Nodup
  deleted : ∀ r n, (r, n) ∈ m.deleted → m.resource r = none ∧ n = 0

theorem Is.isSome {P : Resource → Prop} (h : m.Is P r) : (m.resource r).isSome := by
  obtain ⟨x, hx, -⟩ := h
  rw [hx]
  rfl

theorem is_iff {P : Resource → Prop} (hx : m.resource r = some x) : m.Is P r ↔ P x := by
  constructor
  · rintro ⟨y, hy, hP⟩
    rw [hx] at hy
    cases hy
    exact hP
  · exact fun hP => ⟨x, hx, hP⟩

theorem is_congr {P P' : Resource → Prop} (hresource : m'.resource = m.resource)
    (hP : ∀ x, m.resource r = some x → (P' x ↔ P x)) : m'.Is P' r ↔ m.Is P r := by
  rw [Is, Is, hresource]
  exact exists_congr fun x => and_congr_right (hP x)

theorem is_and {P : Resource → Prop} {c : Prop} : m.Is P r ∧ c ↔ m.Is (fun x => P x ∧ c) r := by
  constructor
  · rintro ⟨⟨x, hx, hP⟩, hc⟩
    exact ⟨x, hx, hP, hc⟩
  · rintro ⟨x, hx, hP, hc⟩
    exact ⟨⟨x, hx, hP⟩, hc⟩

theorem Sound.safe (h : m.Sound) : m.Safe where
  nodup_destroyed := h.nodup_destroyed
  mem_destroyed := h.mem_destroyed
  nodup_deleted := h.nodup_deleted
  unused r n hr := (h.deleted r n hr).2
  gone r hr := by
    obtain ⟨⟨r, n⟩, hmem, rfl⟩ := List.mem_map.mp hr
    obtain ⟨hnone, -⟩ := h.deleted r n hmem
    have hno : ∀ P, ¬m.Is P r := by
      rintro P ⟨x, hx, -⟩
      rw [hnone] at hx
      cases hx
    refine ⟨hnone, fun hmem => hno _ ((h.mem_destroyed r).mp hmem), fun k => ⟨?_, ?_, ?_⟩⟩
    · exact fun hmem => hno _ ((h.indexes.mem_resources k r).mp hmem)
    · exact fun id hmem => hno _ ((h.indexes.mem_copies k id r).mp hmem)
    · exact fun path hmem => hno _ ((h.indexes.mem_info k path r).mp hmem)

theorem sound_empty : ({} : ResourceManager ι).Sound := by
  have hno : ∀ P r, ¬({} : ResourceManager ι).Is P r := by
    rintro P r ⟨x, hx, -⟩
    cases hx
  refine ⟨List.nodup_nil, fun r => iff_of_false List.not_mem_nil (hno _ r), ⟨?_, ?_, ?_, ?_, ?_, ?_⟩,
    ?_, List.nodup_nil, ?_⟩
  · exact fun h => List.nodup_nil
  · exact fun h r => iff_of_false List.not_mem_nil (hno _ r)
  · exact fun h => KeyedSets.unique_none
  · exact fun h id r => iff_of_false KeyedSets.not_mem_none (hno _ r)
  · exact fun h => KeyedSets.unique_none
  · exact fun h path r => iff_of_false KeyedSets.not_mem_none (hno _ r)
  · intro r x hx
    cases hx
  · intro r n hr
    cases hr

theorem usePoints_eq_zero (h : m.Sound) (hx : m.resource r = some x) (hcount : ¬x.countUses > 0) :
    x.usePoints = 0 := by
  have hzero : x.countUses = 0 := UInt16.le_zero_iff.mp (UInt16.not_lt.mp hcount)
  rw [← h.counted r x hx, hzero]
  rfl

/-! ## Changes of one resource -/

theorem Indexes.congr {P P' : Resource → ι → Prop} (h : m.Indexes P)
    (hresources : m'.resources = m.resources)
    (hkeys : ∀ k id path r, (m'.Is (fun x => P' x r ∧ x.resourceHashName = k) r ↔
      m.Is (fun x => P x r ∧ x.resourceHashName = k) r) ∧
      (m'.Is (fun x => P' x r ∧ x.resourceHashName = k ∧ x.resourceId = id) r ↔
        m.Is (fun x => P x r ∧ x.resourceHashName = k ∧ x.resourceId = id) r) ∧
      (m'.Is (fun x => P' x r ∧ x.resourceHashName = k ∧ x.resourcePath = path) r ↔
        m.Is (fun x => P x r ∧ x.resourceHashName = k ∧ x.resourcePath = path) r)) :
    m'.Indexes P' where
  nodup_resources k := by
    rw [hresources]
    exact h.nodup_resources k
  mem_resources k r := by
    rw [hresources, (hkeys k [] [] r).1]
    exact h.mem_resources k r
  unique_copies k := by
    rw [hresources]
    exact h.unique_copies k
  mem_copies k id r := by
    rw [hresources, (hkeys k id [] r).2.1]
    exact h.mem_copies k id r
  unique_info k := by
    rw [hresources]
    exact h.unique_info k
  mem_info k path r := by
    rw [hresources, (hkeys k [] path r).2.2]
    exact h.mem_info k path r

variable [DecidableEq ι]

theorem resource_modify {f : Resource → Resource} :
    (m.modify r f).resource r = (m.resource r).map f := Function.update_self ..

theorem resource_modify_self {f : Resource → Resource} (hx : m.resource r = some x) :
    (m.modify r f).resource r = some (f x) := by
  rw [resource_modify, hx, Option.map_some]

theorem resource_modify_of_ne {f : Resource → Resource} (hq : q ≠ r) :
    (m.modify r f).resource q = m.resource q := Function.update_of_ne hq ..

/-- A change that no property sees. -/
theorem is_modify {f : Resource → Resource} {P : Resource → Prop} (hP : ∀ x, P (f x) ↔ P x) :
    (m.modify r f).Is P q ↔ m.Is P q := by
  rcases eq_or_ne q r with rfl | hq
  · rw [Is, Is, resource_modify]
    cases m.resource q with
    | none => simp
    | some x => simp [hP]
  · rw [Is, Is, resource_modify_of_ne hq]

/-- The parts of a resource that the queue and the indices depend on. -/
structure SameKeys (x y : Resource) : Prop where
  isDestroyed : x.isDestroyed = y.isDestroyed
  isRegistered : x.isRegistered = y.isRegistered
  resourceHashName : x.resourceHashName = y.resourceHashName
  resourceId : x.resourceId = y.resourceId
  resourcePath : x.resourcePath = y.resourcePath

theorem Sound.modify {f : Resource → Resource} (h : m.Sound) (hf : ∀ x, SameKeys (f x) x)
    (hcount : ∀ x, m.resource r = some x → (f x).countUses.toNat = (f x).usePoints) :
    (m.modify r f).Sound where
  nodup_destroyed := h.nodup_destroyed
  mem_destroyed q := by
    rw [is_modify fun x => by rw [(hf x).isDestroyed]]
    exact h.mem_destroyed q
  indexes := by
    refine h.indexes.congr rfl fun k id path q => ⟨?_, ?_, ?_⟩ <;> refine is_modify fun x => ?_
    · rw [(hf x).isRegistered, (hf x).resourceHashName]
    · rw [(hf x).isRegistered, (hf x).resourceHashName, (hf x).resourceId]
    · rw [(hf x).isRegistered, (hf x).resourceHashName, (hf x).resourcePath]
  counted q y hy := by
    rcases eq_or_ne q r with rfl | hq
    · cases hx : m.resource q with
      | none =>
          rw [resource_modify, hx] at hy
          cases hy
      | some x =>
          rw [resource_modify_self hx] at hy
          cases hy
          exact hcount x hx
    · rw [resource_modify_of_ne hq] at hy
      exact h.counted q y hy
  nodup_deleted := h.nodup_deleted
  deleted q n hq := by
    obtain ⟨hnone, hn⟩ := h.deleted q n hq
    refine ⟨?_, hn⟩
    rcases eq_or_ne q r with rfl | hne
    · rw [resource_modify, hnone, Option.map_none]
    · rw [resource_modify_of_ne hne, hnone]

theorem Sound.setLifetime (h : m.Sound) (lifetime : Int64) :
    (IResource.setLifetime m r lifetime).Sound :=
  h.modify (fun _ => ⟨rfl, rfl, rfl, rfl, rfl⟩) fun x hx => h.counted r x hx

/-- `isDestroyed` is set and the queue changes with it. -/
theorem Sound.flag {f : Resource → Resource} (h : m.Sound) (hx : m.resource r = some x)
    (hf : SameKeys { f x with isDestroyed := x.isDestroyed } x)
    (hcount : (f x).countUses.toNat = (f x).usePoints) {destroyed : List ι}
    (hnodup : destroyed.Nodup) (hself : r ∈ destroyed ↔ (f x).isDestroyed = true)
    (hothers : ∀ q ≠ r, q ∈ destroyed ↔ q ∈ m.destroyed) :
    ({ m with destroyed }.modify r f).Sound := by
  have hfx : ({ m with destroyed }.modify r f).resource r = some (f x) := resource_modify_self hx
  have hkeys : ∀ {P : Resource → Prop} (q : ι), (P (f x) ↔ P x) →
      (({ m with destroyed }.modify r f).Is P q ↔ m.Is P q) := by
    intro P q hP
    rcases eq_or_ne q r with rfl | hq
    · rw [is_iff hfx, is_iff hx, hP]
    · rw [Is, resource_modify_of_ne hq]
      exact Iff.rfl
  refine ⟨hnodup, fun q => ?_, ?_, fun q y hy => ?_, h.nodup_deleted, fun q n hq => ?_⟩
  · rcases eq_or_ne q r with rfl | hq
    · rw [is_iff hfx]
      exact hself
    · rw [Is, resource_modify_of_ne hq]
      exact (hothers q hq).trans (h.mem_destroyed q)
  · have hregistered : (f x).isRegistered = x.isRegistered := hf.isRegistered
    have hhash : (f x).resourceHashName = x.resourceHashName := hf.resourceHashName
    have hid : (f x).resourceId = x.resourceId := hf.resourceId
    have hpath : (f x).resourcePath = x.resourcePath := hf.resourcePath
    refine h.indexes.congr rfl fun k id path q => ⟨hkeys q ?_, hkeys q ?_, hkeys q ?_⟩
    · rw [hregistered, hhash]
    · rw [hregistered, hhash, hid]
    · rw [hregistered, hhash, hpath]
  · rcases eq_or_ne q r with rfl | hq
    · rw [hfx] at hy
      cases hy
      exact hcount
    · rw [resource_modify_of_ne hq] at hy
      exact h.counted q y hy
  · obtain ⟨hnone, hn⟩ := h.deleted q n hq
    refine ⟨?_, hn⟩
    rcases eq_or_ne q r with rfl | hne
    · rw [hx] at hnone
      cases hnone
    · rw [resource_modify_of_ne hne]
      exact hnone

theorem Sound.destroy (h : m.Sound) (hx : m.resource r = some x) :
    (IResource.destroy m r).Sound := by
  have hkeys : SameKeys { x with isDestroyed := x.isDestroyed } x := ⟨rfl, rfl, rfl, rfl, rfl⟩
  rw [IResource.destroy, ResourceManager.destroy]
  split
  · rename_i hmem
    exact h.flag hx hkeys (h.counted r x hx) h.nodup_destroyed (iff_of_true hmem rfl)
      fun q _ => Iff.rfl
  · rename_i hmem
    have hnodup : (m.destroyed ++ [r]).Nodup :=
      List.nodup_append.mpr ⟨h.nodup_destroyed, List.nodup_singleton r, fun a ha b hb heq =>
        hmem (List.mem_singleton.mp hb ▸ heq ▸ ha)⟩
    exact h.flag (f := fun x => { x with isDestroyed := true }) hx hkeys (h.counted r x hx) hnodup
      (by simp) fun q hq => by simp [hq]

/-! ## Resources that go -/

theorem is_gone {P : Resource → Prop} (hresource : m'.resource = Function.update m.resource r none) :
    m'.Is P q ↔ m.Is (fun x => P x ∧ q ≠ r) q := by
  rw [Is, hresource]
  rcases eq_or_ne q r with rfl | hq
  · rw [Function.update_self]
    refine iff_of_false ?_ ?_
    · rintro ⟨x, hx, -⟩
      cases hx
    · rintro ⟨x, -, -, hne⟩
      exact hne rfl
  · rw [Function.update_of_ne hq, Is]
    simp [hq]

/-- A resource without use points that was taken from the queue and from the indices. -/
theorem Sound.gone (h : m.Sound) (hx : m.resource r = some x) (hpoints : x.usePoints = 0)
    (hresource : m'.resource = Function.update m.resource r none)
    (hnodup : m'.destroyed.Nodup) (hmem : ∀ q, q ∈ m'.destroyed ↔ q ∈ m.destroyed ∧ q ≠ r)
    (hindexes : { m' with resource := m.resource }.Indexes fun x q => x.isRegistered = true ∧ q ≠ r)
    (hdeleted : m'.deleted = m.deleted ++ [(r, x.usePoints)]) : m'.Sound where
  nodup_destroyed := hnodup
  mem_destroyed q := by
    rw [is_gone hresource, hmem, h.mem_destroyed, is_and]
  indexes := by
    refine hindexes.congr rfl fun k id path q => ⟨?_, ?_, ?_⟩ <;>
      rw [is_gone hresource] <;> refine exists_congr fun y => and_congr_right fun _ => ?_ <;>
      tauto
  counted q y hy := by
    rw [hresource] at hy
    rcases eq_or_ne q r with rfl | hq
    · rw [Function.update_self] at hy
      cases hy
    · rw [Function.update_of_ne hq] at hy
      exact h.counted q y hy
  nodup_deleted := by
    rw [hdeleted, List.map_append, List.map_singleton]
    refine List.nodup_append.mpr ⟨h.nodup_deleted, List.nodup_singleton r, fun a ha b hb heq => ?_⟩
    obtain ⟨⟨a, n⟩, han, rfl⟩ := List.mem_map.mp ha
    have hnone := (h.deleted a n han).1
    rw [show a = r from heq.trans (List.mem_singleton.mp hb), hx] at hnone
    cases hnone
  deleted q n hq := by
    rw [hdeleted] at hq
    rw [hresource]
    rcases List.mem_append.mp hq with hq | hq
    · obtain ⟨hnone, hn⟩ := h.deleted q n hq
      refine ⟨?_, hn⟩
      rcases eq_or_ne q r with rfl | hne
      · exact Function.update_self ..
      · rw [Function.update_of_ne hne, hnone]
    · cases List.mem_singleton.mp hq
      exact ⟨Function.update_self .., hpoints⟩

/-- A resource that is not registered and not destroyed. -/
theorem Sound.deleteResource (h : m.Sound) (hx : m.resource r = some x) (hpoints : x.usePoints = 0)
    (hdestroyed : x.isDestroyed = false) (hregistered : x.isRegistered = false) :
    ∃ m', IResource.deleteResource m r = some m' ∧ m'.Sound := by
  refine ⟨_, by rw [IResource.deleteResource, hx, Option.map_some], ?_⟩
  have hne : ∀ {q y}, m.resource q = some y → y.isRegistered = true → q ≠ r := by
    rintro q y hy hyes rfl
    rw [hx] at hy
    cases hy
    rw [hregistered] at hyes
    cases hyes
  refine h.gone hx hpoints rfl h.nodup_destroyed (fun q => ?_) ?_ rfl
  · refine iff_self_and.mpr ?_
    rintro hq rfl
    rw [h.mem_destroyed, is_iff hx, hdestroyed] at hq
    cases hq
  · refine h.indexes.congr rfl fun k id path q => ⟨?_, ?_, ?_⟩ <;>
      refine exists_congr fun y => and_congr_right fun hy => ?_ <;>
      have := @hne q y hy <;> tauto

theorem Sound.index_remove (h : m.Sound) (hx : m.resource r = some x) :
    ∃ m', m.remove r x = some m' ∧ m'.resource = m.resource ∧ m'.destroyed = m.destroyed ∧
      m'.deleted = m.deleted ∧ m'.Indexes fun x q => x.isRegistered = true ∧ q ≠ r := by
  have hkeys : ∀ {q y}, m.resource q = some y → q = r → y = x := by
    rintro q y hy rfl
    rw [hx] at hy
    cases hy
    rfl
  rw [remove]
  cases hregistered : x.isRegistered with
  | false =>
      refine ⟨m, if_neg Bool.false_ne_true, rfl, rfl, rfl, ?_⟩
      refine h.indexes.congr rfl fun k id path q => ⟨?_, ?_, ?_⟩ <;>
        refine exists_congr fun y => and_congr_right fun hy => ?_ <;>
        have hyx := @hkeys q y hy <;> grind
  | true =>
      obtain ⟨copies, hcopies, -⟩ := (h.indexes.mem_copies x.resourceHashName x.resourceId r).mpr
        ⟨x, hx, hregistered, rfl, rfl⟩
      obtain ⟨loaded, hloaded, -⟩ := (h.indexes.mem_info x.resourceHashName x.resourcePath r).mpr
        ⟨x, hx, hregistered, rfl, rfl⟩
      rw [if_pos rfl, ResourceType.remove, hcopies, Option.elim_some, hloaded, Option.map_some,
        Option.map_some]
      refine ⟨_, rfl, rfl, rfl, rfl, ?_⟩
      refine ⟨fun k => ?_, fun k q => ?_, fun k => ?_, fun k id q => ?_, fun k => ?_,
        fun k path q => ?_⟩ <;> dsimp only <;> rcases eq_or_ne k x.resourceHashName with rfl | hk
      · rw [Function.update_self]
        exact (h.indexes.nodup_resources _).erase r
      · rw [Function.update_of_ne hk]
        exact h.indexes.nodup_resources k
      · rw [Function.update_self]
        dsimp only
        rw [(h.indexes.nodup_resources _).mem_erase_iff, h.indexes.mem_resources, and_comm, is_and]
        exact is_congr rfl fun y hy => by tauto
      · rw [Function.update_of_ne hk, h.indexes.mem_resources]
        refine is_congr rfl fun y hy => ?_
        have hyx := hkeys hy
        grind
      · rw [Function.update_self]
        exact (h.indexes.unique_copies _).erase hcopies
      · rw [Function.update_of_ne hk]
        exact h.indexes.unique_copies k
      · rw [Function.update_self]
        dsimp only
        rw [KeyedSets.mem_erase (h.indexes.unique_copies _) hcopies, h.indexes.mem_copies, is_and]
        refine is_congr rfl fun y hy => ?_
        have hyx := hkeys hy
        grind
      · rw [Function.update_of_ne hk, h.indexes.mem_copies]
        refine is_congr rfl fun y hy => ?_
        have hyx := hkeys hy
        grind
      · rw [Function.update_self]
        exact (h.indexes.unique_info _).erase hloaded
      · rw [Function.update_of_ne hk]
        exact h.indexes.unique_info k
      · rw [Function.update_self]
        dsimp only
        rw [KeyedSets.mem_erase (h.indexes.unique_info _) hloaded, h.indexes.mem_info, is_and]
        refine is_congr rfl fun y hy => ?_
        have hyx := hkeys hy
        grind
      · rw [Function.update_of_ne hk, h.indexes.mem_info]
        refine is_congr rfl fun y hy => ?_
        have hyx := hkeys hy
        grind

/-! ## Garbage collection -/

theorem resource_destroy : (IResource.destroy m r).resource =
    (m.modify r fun x => { x with isDestroyed := true }).resource := by
  rw [IResource.destroy, ResourceManager.destroy]
  split <;> rfl

theorem resource_destroy_isSome :
    ((IResource.destroy m r).resource q).isSome = (m.resource q).isSome := by
  rw [resource_destroy]
  rcases eq_or_ne q r with rfl | hq
  · rw [resource_modify, Option.isSome_map]
  · rw [resource_modify_of_ne hq]

theorem Sound.collectUnused {order : List ι} (h : m.Sound)
    (horder : ∀ r ∈ order, (m.resource r).isSome) :
    ∃ m', ResourceManager.collectUnused order m = some m' ∧ m'.Sound := by
  induction order generalizing m with
  | nil => exact ⟨m, rfl, h⟩
  | cons r order ih =>
      obtain ⟨x, hx⟩ := Option.isSome_iff_exists.mp (horder r List.mem_cons_self)
      rw [ResourceManager.collectUnused, hx, Option.bind_some]
      split
      · exact ih h fun q hq => horder q (List.mem_cons_of_mem r hq)
      · refine ih (h.destroy hx) fun q hq => ?_
        rw [resource_destroy_isSome]
        exact horder q (List.mem_cons_of_mem r hq)

/-- A turn of the loop that deletes. -/
theorem Sound.collect {i : ℕ} {lifetime : Int64} (h : m.Sound) (hi : m.destroyed[i]? = some r)
    (hx : m.resource r = some x) (hcount : ¬x.countUses > 0) :
    ∃ m', ((IResource.setLifetime m r lifetime).remove r x).bind (fun m₁ =>
        IResource.deleteResource { m₁ with destroyed := m₁.destroyed.eraseIdx i } r) = some m' ∧
      m'.Sound ∧ m'.destroyed = m.destroyed.eraseIdx i := by
  have hset := h.setLifetime (r := r) lifetime
  have hx' : (IResource.setLifetime m r lifetime).resource r = some { x with lifetime } :=
    resource_modify_self hx
  obtain ⟨m₁, hm₁, hresource, hdestroyed, hdeleted, hindexes⟩ := hset.index_remove hx'
  have hremove : (IResource.setLifetime m r lifetime).remove r x = some m₁ := hm₁
  have hqueue : m₁.destroyed = m.destroyed := hdestroyed
  have herase : m.destroyed.eraseIdx i = m.destroyed.erase r := by
    obtain ⟨hlt, rfl⟩ := List.getElem?_eq_some_iff.mp hi
    exact (h.nodup_destroyed.erase_getElem i hlt).symm
  rw [hremove, Option.bind_some, IResource.deleteResource]
  dsimp only
  rw [hresource, hx', Option.map_some, hqueue]
  refine ⟨_, rfl, ?_, rfl⟩
  refine hset.gone hx' (usePoints_eq_zero hset hx' hcount) rfl ?_ (fun q => ?_) ?_ ?_
  · exact herase ▸ h.nodup_destroyed.erase r
  · dsimp only
    rw [herase, h.nodup_destroyed.mem_erase_iff, and_comm]
    rfl
  · exact hindexes.congr rfl fun k id path q =>
      ⟨is_congr hresource.symm fun _ _ => Iff.rfl, is_congr hresource.symm fun _ _ => Iff.rfl,
        is_congr hresource.symm fun _ _ => Iff.rfl⟩
  · dsimp only
    rw [hdeleted]

/-- The loop comes to the end of the queue: a turn that does not go on shortens it. -/
theorem Sound.gcLoop {force : Bool} {gcDt : UInt64} {fuel i : ℕ} (h : m.Sound)
    (hi : i ≤ m.destroyed.length)
    (hfuel : m.destroyed.length * m.destroyed.length + (m.destroyed.length - i) + 1 ≤ fuel) :
    ∃ m', ResourceManager.gcLoop force gcDt fuel i m = some m' ∧ m'.Sound := by
  induction fuel generalizing m i with
  | zero => exact absurd hfuel (Nat.not_succ_le_zero _)
  | succ fuel ih =>
      rw [ResourceManager.gcLoop]
      cases hr : m.destroyed[i]? with
      | none => exact ⟨m, rfl, h⟩
      | some r =>
          have hlt : i < m.destroyed.length := (List.getElem?_eq_some_iff.mp hr).1
          obtain ⟨x, hx, hdestroyed⟩ := (h.mem_destroyed r).mp (List.mem_of_getElem? hr)
          rw [Option.elim_some, hx, Option.bind_some, if_pos hdestroyed]
          dsimp only
          split
          · refine ih (h.setLifetime _) hlt ?_
            change m.destroyed.length * m.destroyed.length + (m.destroyed.length - (i + 1)) + 1 ≤ fuel
            omega
          · rename_i hgo
            have hcount : ¬x.countUses > 0 := by
              intro hpos
              exact hgo (by simp [hpos])
            obtain ⟨m', hm', hsound, hqueue⟩ := h.collect hr hx hcount
            rw [← Option.bind_assoc, hm', Option.bind_some]
            have hlength : m'.destroyed.length + 1 = m.destroyed.length := by
              rw [hqueue, List.length_eraseIdx_of_lt hlt]
              omega
            refine ih hsound (Nat.zero_le _) ?_
            rw [← hlength, Nat.succ_mul, Nat.mul_succ] at hfuel
            omega

theorem Sound.gc {dirty force : Bool} {gcDt : UInt64} {order : List ι} (h : m.Sound)
    (horder : force = true → ∀ r ∈ order, (m.resource r).isSome) :
    ∃ m', m.gc dirty force gcDt order = some m' ∧ m'.Sound := by
  rw [ResourceManager.gc]
  split
  · exact ⟨m, rfl, h⟩
  have hloop : ∀ {m : ResourceManager ι}, m.Sound → ∃ m',
      ResourceManager.gcLoop force gcDt m.gcFuel 0 m = some m' ∧ m'.Sound := by
    intro m hm
    refine hm.gcLoop (Nat.zero_le _) ?_
    rw [gcFuel, Nat.succ_mul, Nat.mul_succ]
    omega
  cases force with
  | false => exact hloop h
  | true =>
      obtain ⟨m₁, hm₁, hsound⟩ := h.collectUnused (horder rfl)
      rw [if_pos rfl, hm₁, Option.bind_some]
      exact hloop hsound

/-! ## The other calls -/

theorem Sound.addUsePoint (h : m.Sound) (hx : m.resource r = some x)
    (hroom : x.usePoints + 1 < 65536) :
    ∃ m', IResource.addUsePoint m r = some m' ∧ m'.Sound := by
  rw [IResource.addUsePoint, hx, Option.map_some]
  refine ⟨_, rfl, h.modify (fun _ => ⟨rfl, rfl, rfl, rfl, rfl⟩) fun y hy => ?_⟩
  rw [hx] at hy
  cases hy
  rw [UInt16.toNat_add, h.counted r x hx]
  exact Nat.mod_eq_of_lt hroom

theorem Sound.checkResourceUsage (h : m.Sound) (hx : m.resource r = some x) :
    ∃ m', IResource.checkResourceUsage m r = some m' ∧ m'.Sound := by
  rw [IResource.checkResourceUsage, hx, Option.bind_some]
  split
  · rename_i hunused
    split
    · exact ⟨_, rfl, h.destroy hx⟩
    · rename_i hregistered
      refine h.deleteResource hx ?_ hunused.2 (Bool.eq_false_of_not_eq_true hregistered)
      exact usePoints_eq_zero h hx (by rw [hunused.1]; decide)
  · exact ⟨m, rfl, h⟩

theorem Sound.removeUsePoint (h : m.Sound) (hx : m.resource r = some x) :
    ∃ result, IResource.removeUsePoint m r = some result ∧ result.2.Sound := by
  rw [IResource.removeUsePoint, hx, Option.bind_some]
  split
  · exact ⟨_, rfl, h⟩
  rename_i hpos
  have hcount : (x.countUses - 1).toNat = x.usePoints - 1 := by
    have hle : 1 ≤ x.countUses := by
      rw [UInt16.le_iff_toNat_le]
      exact Nat.one_le_iff_ne_zero.mpr fun hzero => hpos (UInt16.toNat_inj.mp hzero)
    rw [UInt16.toNat_sub_of_le _ _ hle, h.counted r x hx]
    rfl
  have hm : (m.modify r fun x => { x with
      countUses := x.countUses - 1
      usePoints := x.usePoints - 1 }).Sound := by
    refine h.modify (fun _ => ⟨rfl, rfl, rfl, rfl, rfl⟩) fun y hy => ?_
    rw [hx] at hy
    cases hy
    exact hcount
  have hx' := resource_modify_self (f := fun x => { x with
    countUses := x.countUses - 1
    usePoints := x.usePoints - 1 }) hx
  dsimp only
  split
  · rename_i hunused
    split
    · exact ⟨_, rfl, hm.destroy hx'⟩
    · rename_i hregistered
      obtain ⟨m', hm', hsound⟩ := hm.deleteResource hx'
        (usePoints_eq_zero hm hx' (by dsimp only; rw [hunused.1]; decide)) hunused.2
        (Bool.eq_false_of_not_eq_true hregistered)
      rw [hm', Option.map_some]
      exact ⟨_, rfl, hsound⟩
  · exact ⟨_, rfl, hm⟩

theorem Sound.kill (h : m.Sound) (hx : m.resource r = some x) :
    ∃ result, IResource.kill m r = some result ∧ result.2.Sound := by
  rw [IResource.kill, hx, Option.map_some]
  refine ⟨_, rfl, ?_⟩
  split
  · dsimp only
    split
    · exact h.setLifetime 0
    · exact (h.destroy hx).setLifetime 0
  · exact h

theorem Sound.forceDestroy (h : m.Sound) (hx : m.resource r = some x) :
    ∃ result, IResource.forceDestroy m r = some result ∧ result.2.Sound := by
  rw [IResource.forceDestroy, hx, Option.map_some]
  refine ⟨_, rfl, ?_⟩
  split
  · exact h
  · have hm : (m.modify r fun x => { x with isForceDestroyed := true }).Sound :=
      h.modify (fun _ => ⟨rfl, rfl, rfl, rfl, rfl⟩) fun y hy => h.counted r y hy
    exact hm.destroy (resource_modify_self hx)

theorem resource_reviveResource_isSome :
    ((IResource.reviveResource m r).resource q).isSome = (m.resource q).isSome := by
  rw [IResource.reviveResource]
  rcases eq_or_ne q r with rfl | hq
  · rw [resource_modify, Option.isSome_map]
  · rw [resource_modify_of_ne hq]

theorem Sound.reviveResource (h : m.Sound) (hx : m.resource r = some x) :
    ∃ result, m.reviveResource r = some result ∧ result.2.Sound ∧
      ∀ q, (result.2.resource q).isSome = (m.resource q).isSome := by
  rw [ResourceManager.reviveResource, hx, Option.map_some]
  refine ⟨_, rfl, ?_⟩
  split
  · split
    · split
      · refine ⟨?_, fun q => resource_reviveResource_isSome⟩
        refine h.flag hx ⟨rfl, rfl, rfl, rfl, rfl⟩ (h.counted r x hx) (h.nodup_destroyed.erase r) ?_ ?_
        · exact iff_of_false (fun hr => (h.nodup_destroyed.mem_erase_iff.mp hr).1 rfl)
            Bool.false_ne_true
        · intro q hq
          rw [h.nodup_destroyed.mem_erase_iff]
          exact and_iff_right hq
      · exact ⟨h, fun q => rfl⟩
    · exact ⟨h, fun q => rfl⟩
  · exact ⟨h, fun q => rfl⟩

theorem Sound.findCopy {order : List ι} (h : m.Sound)
    (horder : ∀ r ∈ order, (m.resource r).isSome) :
    ∃ result, ResourceManager.findCopy order m = some result ∧ result.2.Sound := by
  induction order generalizing m with
  | nil => exact ⟨_, rfl, h⟩
  | cons r order ih =>
      obtain ⟨x, hx⟩ := Option.isSome_iff_exists.mp (horder r List.mem_cons_self)
      obtain ⟨⟨revived, m₁⟩, hm₁, hsound, hkeeps⟩ := h.reviveResource hx
      rw [ResourceManager.findCopy, hm₁, Option.bind_some]
      dsimp only
      split
      · exact ⟨_, rfl, hsound⟩
      · refine ih hsound fun q hq => ?_
        rw [hkeeps]
        exact horder q (List.mem_cons_of_mem r hq)

theorem Sound.find {hashTypeName : UInt64} {id : StringAtom} {order : List ι} (h : m.Sound)
    (horder : ∀ copies, (m.resources hashTypeName).copies id = some copies → order.Perm copies) :
    ∃ result, m.find hashTypeName id order = some result ∧ result.2.Sound := by
  rw [ResourceManager.find]
  cases hcopies : (m.resources hashTypeName).copies id with
  | none => exact ⟨_, rfl, h⟩
  | some copies =>
      have hperm := horder copies hcopies
      rw [Option.elim_some, if_pos hperm]
      obtain ⟨⟨found, m₁⟩, hm₁, hsound⟩ := h.findCopy fun r hr =>
        Is.isSome ((h.indexes.mem_copies _ _ r).mp ⟨copies, hcopies, hperm.mem_iff.mp hr⟩)
      rw [hm₁, Option.map_some]
      refine ⟨_, rfl, ?_⟩
      cases found with
      | none => exact hsound
      | some r => exact hsound.setLifetime _

theorem Sound.registerResource (h : m.Sound) (hx : m.resource r = some x) :
    ∃ m', m.registerResource r = some m' ∧ m'.Sound := by
  rw [ResourceManager.registerResource, hx, Option.map_some]
  refine ⟨_, rfl, ?_⟩
  split
  · exact h
  generalize hm' : ResourceManager.modify _ r _ = m'
  have hself : m'.resource r = some { x with isRegistered := true } := by
    rw [← hm']
    exact resource_modify_self hx
  have hothers : ∀ q ≠ r, m'.resource q = m.resource q := by
    intro q hq
    rw [← hm', resource_modify_of_ne hq]
  have hdestroyed : m'.destroyed = m.destroyed := by rw [← hm']; rfl
  have hdeleted : m'.deleted = m.deleted := by rw [← hm']; rfl
  have hresources : m'.resources = Function.update m.resources x.resourceHashName
      ((m.resources x.resourceHashName).add r x) := by rw [← hm']; rfl
  have hsame : ∀ P, ∀ q ≠ r, m'.Is P q ↔ m.Is P q := fun P q hq => by rw [Is, hothers q hq]; rfl
  have hmem : ∀ k q, q ∈ (m'.resources k).resources ↔
      q ∈ (m.resources k).resources ∨ k = x.resourceHashName ∧ q = r := by
    intro k q
    rw [hresources]
    rcases eq_or_ne k x.resourceHashName with rfl | hk
    · rw [Function.update_self, ResourceType.add, List.mem_insert_iff, or_comm]
      simp
    · rw [Function.update_of_ne hk]
      simp [hk]
  have hcopies : ∀ k id q, KeyedSets.Mem (m'.resources k).copies id q ↔
      KeyedSets.Mem (m.resources k).copies id q ∨
        k = x.resourceHashName ∧ id = x.resourceId ∧ q = r := by
    intro k id q
    rw [hresources]
    rcases eq_or_ne k x.resourceHashName with rfl | hk
    · rw [Function.update_self, ResourceType.add, KeyedSets.mem_add]
      simp
    · rw [Function.update_of_ne hk]
      simp [hk]
  have hinfo : ∀ k path q, KeyedSets.Mem (m'.resources k).info path q ↔
      KeyedSets.Mem (m.resources k).info path q ∨
        k = x.resourceHashName ∧ path = x.resourcePath ∧ q = r := by
    intro k path q
    rw [hresources]
    rcases eq_or_ne k x.resourceHashName with rfl | hk
    · rw [Function.update_self, ResourceType.add, KeyedSets.mem_add]
      simp
    · rw [Function.update_of_ne hk]
      simp [hk]
  refine ⟨hdestroyed ▸ h.nodup_destroyed, fun q => ?_, ⟨fun k => ?_, fun k q => ?_, fun k => ?_,
    fun k id q => ?_, fun k => ?_, fun k path q => ?_⟩, fun q y hy => ?_,
    hdeleted ▸ h.nodup_deleted, fun q n hq => ?_⟩
  · rw [hdestroyed, h.mem_destroyed]
    rcases eq_or_ne q r with rfl | hq
    · rw [is_iff hx, is_iff hself]
    · exact (hsame _ q hq).symm
  · rw [hresources]
    rcases eq_or_ne k x.resourceHashName with rfl | hk
    · rw [Function.update_self]
      exact (h.indexes.nodup_resources _).insert
    · rw [Function.update_of_ne hk]
      exact h.indexes.nodup_resources k
  · rw [hmem k q, h.indexes.mem_resources]
    rcases eq_or_ne q r with rfl | hq
    · rw [is_iff hx, is_iff hself]
      grind
    · rw [hsame _ q hq]
      exact or_iff_left fun hboth => hq hboth.2
  · rw [hresources]
    rcases eq_or_ne k x.resourceHashName with rfl | hk
    · rw [Function.update_self]
      exact (h.indexes.unique_copies _).add
    · rw [Function.update_of_ne hk]
      exact h.indexes.unique_copies k
  · rw [hcopies k id q, h.indexes.mem_copies]
    rcases eq_or_ne q r with rfl | hq
    · rw [is_iff hx, is_iff hself]
      grind
    · rw [hsame _ q hq]
      exact or_iff_left fun hboth => hq hboth.2.2
  · rw [hresources]
    rcases eq_or_ne k x.resourceHashName with rfl | hk
    · rw [Function.update_self]
      exact (h.indexes.unique_info _).add
    · rw [Function.update_of_ne hk]
      exact h.indexes.unique_info k
  · rw [hinfo k path q, h.indexes.mem_info]
    rcases eq_or_ne q r with rfl | hq
    · rw [is_iff hx, is_iff hself]
      grind
    · rw [hsame _ q hq]
      exact or_iff_left fun hboth => hq hboth.2.2
  · rcases eq_or_ne q r with rfl | hq
    · rw [hself] at hy
      cases hy
      exact h.counted q x hx
    · rw [hothers q hq] at hy
      exact h.counted q y hy
  · rw [hdeleted] at hq
    obtain ⟨hnone, hn⟩ := h.deleted q n hq
    refine ⟨?_, hn⟩
    rcases eq_or_ne q r with rfl | hne
    · rw [hx] at hnone
      cases hnone
    · rw [hothers q hne, hnone]

/-- A new object. -/
theorem Sound.create (h : m.Sound) (hnew : m.resource r = none) (hx : x.isDestroyed = false)
    (hregistered : x.isRegistered = false) (hcount : x.countUses.toNat = x.usePoints)
    (hfresh : r ∉ m.deleted.map Prod.fst) :
    { m with resource := Function.update m.resource r (some x) }.Sound := by
  generalize hm' : ({ m with resource := Function.update m.resource r (some x) } :
    ResourceManager ι) = m'
  have hself : m'.resource r = some x := by
    rw [← hm']
    exact Function.update_self ..
  have hothers : ∀ q ≠ r, m'.resource q = m.resource q := by
    intro q hq
    rw [← hm']
    exact Function.update_of_ne hq ..
  have hsame : ∀ P q, ¬P x → (m'.Is P q ↔ m.Is P q) := by
    intro P q hP
    rcases eq_or_ne q r with rfl | hq
    · rw [is_iff hself]
      refine iff_of_false hP ?_
      rintro ⟨y, hy, -⟩
      rw [hnew] at hy
      cases hy
    · rw [Is, hothers q hq]
      rfl
  have hdestroyed : m'.destroyed = m.destroyed := by rw [← hm']
  have hdeleted : m'.deleted = m.deleted := by rw [← hm']
  have hresources : m'.resources = m.resources := by rw [← hm']
  refine ⟨hdestroyed ▸ h.nodup_destroyed, fun q => ?_, ?_, fun q y hy => ?_,
    hdeleted ▸ h.nodup_deleted, fun q n hq => ?_⟩
  · rw [hdestroyed, hsame _ q (by rw [hx]; exact Bool.false_ne_true)]
    exact h.mem_destroyed q
  · refine h.indexes.congr hresources fun k id path q => ⟨hsame _ q ?_, hsame _ q ?_, hsame _ q ?_⟩ <;>
      rintro ⟨hyes, -⟩ <;> exact Bool.false_ne_true (hregistered.symm.trans hyes)
  · rcases eq_or_ne q r with rfl | hq
    · rw [hself] at hy
      cases hy
      exact hcount
    · rw [hothers q hq] at hy
      exact h.counted q y hy
  · rw [hdeleted] at hq
    obtain ⟨hnone, hn⟩ := h.deleted q n hq
    refine ⟨?_, hn⟩
    rcases eq_or_ne q r with rfl | hne
    · exact absurd (List.mem_map_of_mem hq) hfresh
    · rw [hothers q hne, hnone]

/-! ## Runs -/

/-- A call on an object that is there, or that creates a new one. No resource gets `65536` use
points, and the sets are passed in one of their orders. -/
def Applies (m : ResourceManager ι) : ResourceCall ι → Prop
  | .create pResource .. => m.resource pResource = none ∧ pResource ∉ m.deleted.map Prod.fst
  | .addUsePoint pResource => m.Is (fun x => x.usePoints + 1 < 65536) pResource
  | .registerResource pResource | .removeUsePoint pResource | .checkResourceUsage pResource
  | .kill pResource | .forceDestroy pResource => (m.resource pResource).isSome
  | .find hashTypeName id order =>
      ∀ copies, (m.resources hashTypeName).copies id = some copies → order.Perm copies
  | .gc _ force _ order => force = true → ∀ r, r ∈ order ↔ ∃ h, r ∈ (m.resources h).resources

theorem Sound.step {call : ResourceCall ι} (h : m.Sound) (hcall : m.Applies call) :
    ∃ result, m.step call = some result ∧ result.1.Sound := by
  cases call with
  | create pResource _ _ _ _ _ => exact ⟨_, rfl, h.create hcall.1 rfl rfl rfl hcall.2⟩
  | addUsePoint pResource =>
      obtain ⟨x, hx, hroom⟩ := hcall
      obtain ⟨m', hm', hsound⟩ := h.addUsePoint hx hroom
      exact ⟨(m', ()), by rw [ResourceManager.step, hm', Option.map_some], hsound⟩
  | registerResource pResource =>
      obtain ⟨x, hx⟩ := Option.isSome_iff_exists.mp hcall
      obtain ⟨m', hm', hsound⟩ := h.registerResource hx
      exact ⟨(m', ()), by rw [ResourceManager.step, hm', Option.map_some], hsound⟩
  | removeUsePoint pResource =>
      obtain ⟨x, hx⟩ := Option.isSome_iff_exists.mp hcall
      obtain ⟨result, hm', hsound⟩ := h.removeUsePoint hx
      exact ⟨(result.2, ()), by rw [ResourceManager.step, hm', Option.map_some], hsound⟩
  | checkResourceUsage pResource =>
      obtain ⟨x, hx⟩ := Option.isSome_iff_exists.mp hcall
      obtain ⟨m', hm', hsound⟩ := h.checkResourceUsage hx
      exact ⟨(m', ()), by rw [ResourceManager.step, hm', Option.map_some], hsound⟩
  | kill pResource =>
      obtain ⟨x, hx⟩ := Option.isSome_iff_exists.mp hcall
      obtain ⟨result, hm', hsound⟩ := h.kill hx
      exact ⟨(result.2, ()), by rw [ResourceManager.step, hm', Option.map_some], hsound⟩
  | forceDestroy pResource =>
      obtain ⟨x, hx⟩ := Option.isSome_iff_exists.mp hcall
      obtain ⟨result, hm', hsound⟩ := h.forceDestroy hx
      exact ⟨(result.2, ()), by rw [ResourceManager.step, hm', Option.map_some], hsound⟩
  | find hashTypeName id order =>
      obtain ⟨result, hm', hsound⟩ := h.find hcall
      exact ⟨(result.2, ()), by rw [ResourceManager.step, hm', Option.map_some], hsound⟩
  | gc dirty force gcDt order =>
      obtain ⟨m', hm', hsound⟩ := h.gc fun hforce r hr => by
        obtain ⟨k, hk⟩ := (hcall hforce r).mp hr
        exact ((h.indexes.mem_resources k r).mp hk).isSome
      exact ⟨(m', ()), by rw [ResourceManager.step, hm', Option.map_some], hsound⟩

/-- Every call of a run comes to its end, and resources are deleted safely. -/
theorem safe_of_applies {calls : List (ResourceCall ι)}
    (h : Steps.Along step Applies ({} : ResourceManager ι) calls) :
    ∃ r, Steps.run step ({} : ResourceManager ι) calls = some r ∧ r.1.Safe := by
  have hrun : ∀ {m : ResourceManager ι}, m.Sound → Steps.Along step Applies m calls →
      ∃ r, Steps.run step m calls = some r ∧ r.1.Sound := by
    clear h
    induction calls with
    | nil => exact fun {m} hm _ => ⟨(m, []), rfl, hm⟩
    | cons call calls ih =>
        rintro m hm ⟨hcall, hrest⟩
        obtain ⟨r, hr, hsound⟩ := hm.step hcall
        obtain ⟨r', hr', hsound'⟩ := ih hsound (hrest r hr)
        exact ⟨(r'.1, r.2 :: r'.2), by rw [Steps.run_cons hr, hr', Option.map_some], hsound'⟩
  obtain ⟨r, hr, hsound⟩ := hrun sound_empty h
  exact ⟨r, hr, hsound.safe⟩

/-- A resource is registered, used, given up and collected, with a second one beside it. -/
theorem safe_of_applies_sample :
    let calls : List (ResourceCall ℕ) := [.create 0 7 [97] [98] true true, .registerResource 0,
      .addUsePoint 0, .removeUsePoint 0, .create 1 7 [97] [98] true false, .checkResourceUsage 1,
      .gc false false 40000 []]
    Steps.Along step Applies ({} : ResourceManager ℕ) calls ∧
      ∃ r, Steps.run step ({} : ResourceManager ℕ) calls = some r ∧ r.1.Safe := by
  intro calls
  have h : Steps.Along step Applies ({} : ResourceManager ℕ) calls := by
    refine ⟨⟨rfl, by decide⟩, ?_⟩
    rintro _ ⟨⟩
    refine ⟨rfl, ?_⟩
    rintro _ ⟨⟩
    refine ⟨⟨_, rfl, by decide⟩, ?_⟩
    rintro _ ⟨⟩
    refine ⟨rfl, ?_⟩
    rintro _ ⟨⟩
    refine ⟨⟨rfl, by decide⟩, ?_⟩
    rintro _ ⟨⟩
    refine ⟨rfl, ?_⟩
    rintro _ ⟨⟩
    exact ⟨nofun, fun _ _ => trivial⟩
  exact ⟨h, safe_of_applies h⟩

end ResourceManager

end SRCommon
