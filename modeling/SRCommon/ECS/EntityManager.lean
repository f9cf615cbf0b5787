import Mathlib.Data.Finset.Basic
import SRCommon.Lib.PartialRun

/-!
# The entity manager

Entities take their ids from `EntityManager` when they are constructed. The
checks against ids that are in use are compiled in debug builds only, and the
model is the release build. A call holds the mutex of the manager from its
start to its end.
-/

namespace SRCommon

/-- `ENTITY_ID_MAX`. -/
def entityIdMax : UInt64 := 0xffffffffffffffff

structure EntityManager (ε : Type) where
  entities : UInt64 → Option ε := fun _ => none
  reserved : Finset UInt64 := ∅
  nextId : UInt64 := entityIdMax

variable {ε : Type}

namespace EntityManager

variable (m : EntityManager ε)

def reserve (id : UInt64) : EntityManager ε := { m with reserved := insert id m.reserved }

/-- A random id that `Register` does not draw again. -/
def accepts (id : UInt64) : Bool :=
  (m.entities id).isNone && decide (id ∉ m.reserved) && decide (id ≠ entityIdMax)

/-- `m_entities.insert` leaves an entry that is there as it is. -/
def insertEntity (id : UInt64) (entity : ε) : EntityManager ε :=
  if (m.entities id).isSome then m
  else { m with entities := Function.update m.entities id (some entity) }

/-- The pending id is no longer reserved, and none is pending. -/
def taken : EntityManager ε :=
  { m with reserved := m.reserved.erase m.nextId, nextId := entityIdMax }

/-- There is no result while every draw collides. -/
def register (entity : ε) (entityId : UInt64) (draws : List UInt64) :
    Option (UInt64 × EntityManager ε) :=
  if entityId ≠ entityIdMax then some (entityId, m)
  else if m.nextId ≠ entityIdMax then some (m.nextId, m.taken.insertEntity m.nextId entity)
  else (draws.find? m.accepts).map fun id => (id, m.insertEntity id entity)

def unregister (id : UInt64) : EntityManager ε :=
  if (m.entities id).isNone then m else { m with entities := Function.update m.entities id none }

def findById (id : UInt64) : Option ε := m.entities id

def tryUnReserve (id : UInt64) : Bool × EntityManager ε :=
  if id ∈ m.reserved then (true, { m with reserved := m.reserved.erase id }) else (false, m)

def unReserve (id : UInt64) : Bool × EntityManager ε := m.tryUnReserve id

theorem entities_insertEntity_of_none {id : UInt64} (h : m.entities id = none) (entity : ε) :
    (m.insertEntity id entity).entities = Function.update m.entities id (some entity) := by
  rw [insertEntity, h]
  rfl

theorem unregister_entities (id : UInt64) :
    (m.unregister id).entities = Function.update m.entities id none := by
  unfold unregister
  split
  · next h => rw [← Option.isNone_iff_eq_none.mp h, Function.update_eq_self]
  · rfl

theorem entities_tryUnReserve (id : UInt64) : (m.tryUnReserve id).2.entities = m.entities := by
  unfold tryUnReserve
  split <;> rfl

variable {m} {id : UInt64} {e : ε}

/-- The manager takes a pending id without a look at it, and checks a random one. -/
theorem register_cases {k : UInt64} {draws : List UInt64}
    {r : UInt64 × EntityManager ε} (h : m.register e k draws = some r) :
    (k ≠ entityIdMax ∧ r = (k, m)) ∨
      (k = entityIdMax ∧ m.nextId ≠ entityIdMax ∧ r.1 = m.nextId ∧
        (m.entities m.nextId = none →
          r.2.entities = Function.update m.entities m.nextId (some e))) ∨
      (k = entityIdMax ∧ m.nextId = entityIdMax ∧ m.accepts r.1 = true ∧
        r.2.entities = Function.update m.entities r.1 (some e)) := by
  unfold register at h
  split at h
  · next hk =>
    cases h
    exact Or.inl ⟨hk, rfl⟩
  · next hk =>
    have hk := not_not.mp hk
    split at h
    · next hnext =>
      cases h
      exact Or.inr (Or.inl ⟨hk, hnext, rfl, fun hnone =>
        entities_insertEntity_of_none (taken m) hnone e⟩)
    · next hnext =>
      obtain ⟨id, hid, rfl⟩ := Option.map_eq_some_iff.mp h
      have haccepts := List.find?_some hid
      refine Or.inr (Or.inr ⟨hk, not_not.mp hnext, haccepts, ?_⟩)
      apply entities_insertEntity_of_none
      unfold accepts at haccepts
      simp only [Bool.and_eq_true, Option.isNone_iff_eq_none] at haccepts
      exact haccepts.1.1

theorem of_accepts (h : m.accepts id = true) :
    m.entities id = none ∧ id ∉ m.reserved ∧ id ≠ entityIdMax := by
  unfold accepts at h
  simp only [Bool.and_eq_true, Option.isNone_iff_eq_none, decide_eq_true_eq] at h
  exact ⟨h.1.1, h.1.2, h.2⟩

end EntityManager

/-- The manager with the entities that were constructed. -/
structure Entities (ε : Type) where
  manager : EntityManager ε := {}
  entityId : ε → UInt64 := fun _ => entityIdMax
  /-- The ids that `Register` gave away, until they are unregistered. -/
  given : List (UInt64 × ε) := []

inductive EntityRequest (ε : Type) where
  | reserve (id : UInt64)
  | getReserved (id : UInt64) (allocated : Option (ε × List UInt64))
  | register (entity : ε) (draws : List UInt64)
  | unregister (id : UInt64)
  | unReserve (id : UInt64)
  | tryUnReserve (id : UInt64)

inductive EntityAnswer (ε : Type) where
  | done (success : Bool)
  | id (id : UInt64)
  | entity (entity : Option ε)

namespace Entities

variable [DecidableEq ε] (s : Entities ε)

/-- An entity that has no id yet keeps the one that is given to it. -/
def give (id : UInt64) (entity : ε) (manager : EntityManager ε) : Entities ε where
  manager
  entityId := Function.update s.entityId entity id
  given := if s.entityId entity = entityIdMax then s.given ++ [(id, entity)] else s.given

/-- The constructor of an entity: `m_entityId = Register(this)`. -/
def register (entity : ε) (draws : List UInt64) : Option (UInt64 × Entities ε) :=
  (s.manager.register entity (s.entityId entity) draws).map fun r =>
    (r.1, s.give r.1 entity r.2)

/-- The allocators of `GetReserved` construct one entity, or none. -/
def allocate : Option (ε × List UInt64) → Entities ε → Option (Option ε × Entities ε)
  | none, s => some (none, s)
  | some (entity, draws), s => (s.register entity draws).map fun r => (some entity, r.2)

def getReserved (id : UInt64) (allocator : Entities ε → Option (Option ε × Entities ε)) :
    Option (Option ε × Entities ε) :=
  if id ∈ s.manager.reserved then allocator { s with manager := { s.manager with nextId := id } }
  else some (none, s)

def step (s : Entities ε) : EntityRequest ε → Option (Entities ε × EntityAnswer ε)
  | .reserve id => some ({ s with manager := s.manager.reserve id }, .done true)
  | .getReserved id allocated =>
      (s.getReserved id (allocate allocated)).map fun r => (r.2, .entity r.1)
  | .register entity draws => (s.register entity draws).map fun r => (r.2, .id r.1)
  | .unregister id =>
      let given := s.given.filter fun p => p.1 ≠ id
      some ({ s with manager := s.manager.unregister id, given }, .done true)
  | .unReserve id =>
      let r := s.manager.unReserve id
      some ({ s with manager := r.2 }, .done r.1)
  | .tryUnReserve id =>
      let r := s.manager.tryUnReserve id
      some ({ s with manager := r.2 }, .done r.1)

end Entities

end SRCommon
