import SRCommon.ECS.EntityManager

/-!
# Ids of entities

An id is given twice, or taken from its reservation, exactly when an entity
takes a pending id that is reserved or in use. Random ids are always free.
-/

namespace SRCommon

namespace Entities

variable {ε : Type} {s : Entities ε} {id : UInt64} {e : ε} {m : EntityManager ε}

/-- Ids that are in use differ from each other and are resolved to their entities. -/
structure Resolves (s : Entities ε) : Prop where
  distinct : (s.given.map Prod.fst).Nodup
  valid : ∀ p ∈ s.given, p.1 ≠ entityIdMax ∧ s.entityId p.2 = p.1
  found : ∀ id e, s.manager.findById id = some e ↔ (id, e) ∈ s.given

theorem resolves_initial : ({} : Entities ε).Resolves where
  distinct := List.nodup_nil
  valid := nofun
  found _ _ := ⟨nofun, nofun⟩

theorem Resolves.manager (h : s.Resolves) (hm : m.entities = s.manager.entities) :
    ({ s with manager := m } : Entities ε).Resolves where
  distinct := h.distinct
  valid := h.valid
  found id e := by
    rw [EntityManager.findById, hm]
    exact h.found id e

theorem Resolves.unregister (h : s.Resolves) (id : UInt64) :
    ({ s with
      manager := s.manager.unregister id
      given := s.given.filter fun p => p.1 ≠ id } : Entities ε).Resolves where
  distinct := h.distinct.sublist (List.filter_sublist.map Prod.fst)
  valid p hp := h.valid p (List.mem_filter.mp hp).1
  found k e := by
    rw [EntityManager.findById, EntityManager.unregister_entities, List.mem_filter]
    by_cases hk : k = id
    · subst hk
      simp
    · rw [Function.update_of_ne hk]
      simpa [hk, EntityManager.findById] using h.found k e

/-- Ids stay unique, and a reserved id goes to the entity that is constructed for it. -/
def Issued (s : Entities ε) (request : EntityRequest ε) (s' : Entities ε) : Prop :=
  s'.Resolves ∧ ∀ id e, (id, e) ∈ s'.given → (id, e) ∉ s.given → id ∈ s.manager.reserved →
    ∃ draws, request = .getReserved id (some (e, draws))

/-- An entity takes no pending id that is in use, and none that is reserved for another one. -/
def Free (s : Entities ε) : EntityRequest ε → Prop
  | .register e _ =>
      s.entityId e = entityIdMax → s.manager.nextId ≠ entityIdMax →
        s.manager.nextId ∉ s.manager.reserved ∧ s.manager.entities s.manager.nextId = none
  | .getReserved id (some (e, _)) =>
      s.entityId e = entityIdMax → id ≠ entityIdMax → id ∈ s.manager.reserved →
        s.manager.entities id = none
  | _ => True

theorem issued_of_given {request : EntityRequest ε} {s' : Entities ε} (h : s'.Resolves)
    (hgiven : ∀ p ∈ s'.given, p ∈ s.given) : s.Issued request s' :=
  ⟨h, fun _ _ hmem hnew => absurd (hgiven _ hmem) hnew⟩

/-- An entity without an id is not among those that have one. -/
theorem Resolves.notMem_given (h : s.Resolves) (he : s.entityId e = entityIdMax) :
    (id, e) ∉ s.given := fun hmem => by
  obtain ⟨hvalid, hentity⟩ := h.valid _ hmem
  exact hvalid (hentity.symm.trans he)

variable [DecidableEq ε]

theorem give_entityId : (s.give id e m).entityId = Function.update s.entityId e id := rfl

theorem give_given (he : s.entityId e = entityIdMax) :
    (s.give id e m).given = s.given ++ [(id, e)] := if_pos he

/-- A free id is given to an entity that has none. -/
theorem Resolves.give (h : s.Resolves) (he : s.entityId e = entityIdMax) (hid : id ≠ entityIdMax)
    (hfree : s.manager.entities id = none)
    (hm : m.entities = Function.update s.manager.entities id (some e)) :
    (s.give id e m).Resolves := by
  have hnew : ∀ e', (id, e') ∉ s.given := fun e' hmem => by
    rw [← h.found, EntityManager.findById, hfree] at hmem
    cases hmem
  have hother : ∀ p ∈ s.given, p.2 ≠ e := fun p hp hpe => by
    obtain ⟨hvalid, hentity⟩ := h.valid p hp
    rw [hpe, he] at hentity
    exact hvalid hentity.symm
  constructor
  · rw [give_given he, List.map_append, List.nodup_append]
    refine ⟨h.distinct, List.nodup_singleton _, ?_⟩
    intro k hk k' hk' hkk
    obtain ⟨p, hp, rfl⟩ := List.mem_map.mp hk
    obtain rfl := List.mem_singleton.mp hk'
    exact hnew p.2 (hkk ▸ hp)
  · intro p hp
    rw [give_given he, List.mem_append, List.mem_singleton] at hp
    rcases hp with hp | rfl
    · obtain ⟨hvalid, hentity⟩ := h.valid p hp
      rw [give_entityId, Function.update_of_ne (hother p hp)]
      exact ⟨hvalid, hentity⟩
    · rw [give_entityId, Function.update_self]
      exact ⟨hid, rfl⟩
  · intro k e'
    rw [give_given he, List.mem_append, List.mem_singleton, Prod.mk.injEq]
    change m.entities k = some e' ↔ _
    rw [hm]
    by_cases hk : k = id
    · subst hk
      rw [Function.update_self, Option.some_inj]
      constructor
      · rintro rfl
        exact Or.inr ⟨rfl, rfl⟩
      · rintro (hmem | ⟨-, rfl⟩)
        · exact absurd hmem (hnew e')
        · rfl
    · rw [Function.update_of_ne hk]
      simpa [hk, EntityManager.findById] using h.found k e'

theorem mem_given_give (he : s.entityId e = entityIdMax) {p : UInt64 × ε} :
    p ∈ (s.give id e m).given ↔ p ∈ s.given ∨ p = (id, e) := by
  rw [give_given he, List.mem_append, List.mem_singleton]

/-- An id that is in use cannot be given again. -/
theorem not_resolves_give (h : s.Resolves) (he : s.entityId e = entityIdMax)
    (hused : s.manager.entities id ≠ none) : ¬ (s.give id e m).Resolves := by
  intro h'
  obtain ⟨e', he'⟩ := Option.ne_none_iff_exists'.mp hused
  have hdistinct := h'.distinct
  rw [give_given he, List.map_append, List.nodup_append] at hdistinct
  have hmem : id ∈ s.given.map Prod.fst := List.mem_map.mpr ⟨_, (h.found id e').mp he', rfl⟩
  exact hdistinct.2.2 id hmem id (List.mem_singleton.mpr rfl) rfl

/-- What `Register` gives to an entity without an id: a pending id, or a random one. -/
theorem register_cases (h : s.Resolves) {draws : List UInt64} {r : UInt64 × Entities ε}
    (hr : s.register e draws = some r) :
    (s.entityId e ≠ entityIdMax ∧ r.2 = s) ∨
      (s.entityId e = entityIdMax ∧ (∀ p, p ∈ r.2.given ↔ p ∈ s.given ∨ p = (r.1, e)) ∧
        (r.2.Resolves ↔ s.manager.entities r.1 = none) ∧
        (s.manager.nextId ≠ entityIdMax ∧ r.1 = s.manager.nextId ∨
          s.manager.nextId = entityIdMax ∧ r.1 ∉ s.manager.reserved ∧
            s.manager.entities r.1 = none)) := by
  obtain ⟨q, hq, rfl⟩ := Option.map_eq_some_iff.mp hr
  rcases EntityManager.register_cases hq with ⟨hk, rfl⟩ | ⟨hk, hnext, hid, hm⟩ |
    ⟨hk, hnext, haccepts, hm⟩
  · refine Or.inl ⟨hk, ?_⟩
    change s.give (s.entityId e) e s.manager = s
    rw [give, if_neg hk, Function.update_eq_self]
  · refine Or.inr ⟨hk, fun p => mem_given_give hk, ?_, Or.inl ⟨hnext, hid⟩⟩
    constructor
    · intro hresolves
      by_contra hused
      exact not_resolves_give h hk hused hresolves
    · intro hfree
      rw [hid] at hfree
      exact h.give hk (hid ▸ hnext) (hid ▸ hfree) (hid ▸ hm hfree)
  · obtain ⟨hfree, hreserved, hvalid⟩ := EntityManager.of_accepts haccepts
    exact Or.inr ⟨hk, fun p => mem_given_give hk,
      iff_of_true (h.give hk hvalid hfree hm) hfree, Or.inr ⟨hnext, hreserved, hfree⟩⟩

theorem issued_register_iff (h : s.Resolves) {draws : List UInt64} {r : UInt64 × Entities ε}
    (hr : s.register e draws = some r) :
    s.Issued (.register e draws) r.2 ↔ s.Free (.register e draws) := by
  rcases register_cases h hr with ⟨hk, hs⟩ | ⟨hk, hgiven, hresolves, hnext | hnext⟩
  · rw [hs]
    exact iff_of_true (issued_of_given h fun p hp => hp) fun hk' => absurd hk' hk
  · obtain ⟨hpending, hid⟩ := hnext
    rw [hid] at hresolves hgiven
    constructor
    · rintro ⟨hsound, hkept⟩ - -
      refine ⟨fun hmem => ?_, hresolves.mp hsound⟩
      obtain ⟨_, hrequest⟩ := hkept s.manager.nextId e ((hgiven _).mpr (Or.inr rfl))
        (h.notMem_given hk) hmem
      cases hrequest
    · intro hfree
      obtain ⟨hreserved, hunused⟩ := hfree hk hpending
      refine ⟨hresolves.mpr hunused, fun k e' hmem hnew hk' => ?_⟩
      obtain ⟨rfl, -⟩ := Prod.mk.inj (((hgiven _).mp hmem).resolve_left hnew)
      exact absurd hk' hreserved
  · obtain ⟨hpending, hreserved, hunused⟩ := hnext
    refine iff_of_true ⟨hresolves.mpr hunused, fun k e' hmem hnew hk' => ?_⟩
      fun _ hnot => absurd hpending hnot
    obtain ⟨rfl, -⟩ := Prod.mk.inj (((hgiven _).mp hmem).resolve_left hnew)
    exact absurd hk' hreserved

theorem issued_getReserved_iff (h : s.Resolves) {allocated : Option (ε × List UInt64)}
    {r : Option ε × Entities ε} (hr : s.getReserved id (allocate allocated) = some r) :
    s.Issued (.getReserved id allocated) r.2 ↔ s.Free (.getReserved id allocated) := by
  have h₁ : ({ s with manager := { s.manager with nextId := id } } : Entities ε).Resolves :=
    h.manager rfl
  unfold getReserved at hr
  split at hr
  · next hid =>
    rcases allocated with _ | ⟨e, draws⟩
    · cases hr
      exact iff_of_true (issued_of_given h₁ fun p hp => hp) trivial
    · obtain ⟨q, hq, rfl⟩ := Option.map_eq_some_iff.mp hr
      rcases register_cases h₁ hq with ⟨hk, hs⟩ | ⟨hk, hgiven, hresolves, hnext | hnext⟩
      · rw [hs]
        exact iff_of_true (issued_of_given h₁ fun p hp => hp) fun hk' => absurd hk' hk
      · obtain ⟨hpending, hq₁⟩ := hnext
        change q.1 = id at hq₁
        rw [hq₁] at hresolves hgiven
        constructor
        · exact fun hissued _ _ _ => hresolves.mp hissued.1
        · intro hfree
          refine ⟨hresolves.mpr (hfree hk hpending hid), fun k e' hmem hnew _ => ?_⟩
          obtain ⟨rfl, rfl⟩ := Prod.mk.inj (((hgiven _).mp hmem).resolve_left hnew)
          exact ⟨draws, rfl⟩
      · obtain ⟨hpending, hreserved, hunused⟩ := hnext
        refine iff_of_true ⟨hresolves.mpr hunused, fun k e' hmem hnew hk' => ?_⟩
          fun _ hnot => absurd hpending hnot
        obtain ⟨rfl, -⟩ := Prod.mk.inj (((hgiven _).mp hmem).resolve_left hnew)
        exact absurd hk' hreserved
  · next hid =>
    cases hr
    refine iff_of_true (issued_of_given h fun p hp => hp) ?_
    rcases allocated with _ | ⟨e, draws⟩
    · trivial
    · exact fun _ _ hmem => absurd hmem hid

theorem issued_iff {request : EntityRequest ε} (h : s.Resolves)
    {r : Entities ε × EntityAnswer ε} (hr : step s request = some r) :
    s.Issued request r.1 ↔ s.Free request := by
  cases request with
  | reserve id =>
      cases hr
      exact iff_of_true (issued_of_given (h.manager rfl) fun p hp => hp) trivial
  | getReserved id allocated =>
      obtain ⟨q, hq, rfl⟩ := Option.map_eq_some_iff.mp hr
      exact issued_getReserved_iff h hq
  | register e draws =>
      obtain ⟨q, hq, rfl⟩ := Option.map_eq_some_iff.mp hr
      exact issued_register_iff h hq
  | unregister id =>
      cases hr
      refine iff_of_true (issued_of_given (h.unregister id) fun p hp => ?_) trivial
      exact (List.mem_filter.mp hp).1
  | unReserve id =>
      cases hr
      refine iff_of_true (issued_of_given (h.manager ?_) fun p hp => hp) trivial
      exact s.manager.entities_tryUnReserve id
  | tryUnReserve id =>
      cases hr
      refine iff_of_true (issued_of_given (h.manager ?_) fun p hp => hp) trivial
      exact s.manager.entities_tryUnReserve id

/-- Only a random draw can go on for ever. -/
theorem register_eq_none {draws : List UInt64} (h : s.register e draws = none) :
    s.manager.nextId = entityIdMax := by
  by_contra hnext
  have h := Option.map_eq_none_iff.mp h
  unfold EntityManager.register at h
  rw [if_pos hnext] at h
  split at h <;> cases h

theorem free_of_step_eq_none {request : EntityRequest ε} (h : step s request = none) :
    s.Free request := by
  cases request with
  | register e draws =>
      exact fun _ hnext => absurd (register_eq_none (Option.map_eq_none_iff.mp h)) hnext
  | getReserved id allocated =>
      rcases allocated with _ | ⟨e, draws⟩
      · trivial
      · intro _ hid hmem
        have h := Option.map_eq_none_iff.mp h
        rw [getReserved, if_pos hmem] at h
        exact absurd (register_eq_none (Option.map_eq_none_iff.mp h)) hid
  | reserve id => cases h
  | unregister id => cases h
  | unReserve id => cases h
  | tryUnReserve id => cases h

/-- Ids are unique and resolvable in the runs that hand out no pending id that is taken. -/
theorem issued_iff_free (requests : List (EntityRequest ε)) :
    Steps.Throughout step Issued ({} : Entities ε) requests ↔
      Steps.Along step Free ({} : Entities ε) requests :=
  Steps.throughout_iff_along (fun _ _ _ h hr => issued_iff h hr) (fun _ _ _ h => h.1)
    (fun _ _ _ h => free_of_step_eq_none h) resolves_initial requests

/-- An allocator that constructs nothing leaves its id to the next entity. A reserved id that is
in use already is given a second time. -/
theorem not_issued :
    ¬ Steps.Throughout step Issued ({} : Entities ℕ)
        [.reserve 5, .getReserved 5 none, .register 0 [7]] ∧
      ¬ Steps.Throughout step Issued ({} : Entities ℕ)
        [.register 0 [5], .reserve 5, .getReserved 5 (some (1, [7]))] := by
  constructor
  · intro h
    have hissued := (((h _ rfl).2 _ rfl).2 _ rfl).1
    obtain ⟨draws, hrequest⟩ := hissued.2 5 0 (by decide) (by decide) (by decide)
    cases hrequest
  · intro h
    have hresolves := (((h _ rfl).2 _ rfl).2 _ rfl).1.1
    exact absurd hresolves.distinct (by decide)

end Entities

end SRCommon
