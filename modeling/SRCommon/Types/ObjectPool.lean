import Mathlib.Algebra.Group.Nat.Defs
import Mathlib.Data.List.Basic
import Mathlib.Tactic.Common
import SRCommon.Lib.PartialRun

/-!
# ObjectPool

`SR_HTYPES_NS::ObjectPool<T, Index>`: slots that are alive or dead, and a
stack of indices of dead slots. `Index` is an unsigned type of so many bits.
An operation is `none` where it terminates the program or leaves the vector.
`RemoveByObject` compares dead slots too, which hold what was left behind by a
move.
-/

namespace SRCommon

/-- `m_freeIndices` has its top first. -/
structure ObjectPool (bits : ℕ) (T : Type) where
  objects : List (Bool × T) := []
  freeIndices : List ℕ := []

namespace ObjectPool

variable {bits : ℕ} {T : Type}

/-- The conversion to `Index`. -/
def toIndex (bits n : ℕ) : ℕ := n % 2 ^ bits

/-- The difference of two sizes of 64 bits is returned as a `uint32_t`. -/
def getAliveCount (p : ObjectPool bits T) : UInt32 :=
  (UInt64.ofNat p.objects.length - UInt64.ofNat p.freeIndices.length).toUInt32

def isEmpty (p : ObjectPool bits T) : Bool := p.objects.length = p.freeIndices.length

def isAlive (p : ObjectPool bits T) (index : ℕ) : Bool :=
  match p.objects[index]? with
  | some (alive, _) => alive
  | none => false

/-- `At`. -/
def at? (p : ObjectPool bits T) (index : ℕ) : Option T :=
  match p.objects[index]? with
  | some (true, object) => some object
  | _ => none

def add (p : ObjectPool bits T) (object : T) : Option (ℕ × ObjectPool bits T) :=
  match p.freeIndices with
  | [] => some (toIndex bits p.objects.length, { p with objects := p.objects ++ [(true, object)] })
  | index :: rest =>
      if index < p.objects.length then
        some (index, ⟨p.objects.set index (true, object), rest⟩)
      else none

def clear (_ : ObjectPool bits T) : ObjectPool bits T := {}

/-- The loop of `ShrinkToFit` from an index down to the last slot that is alive. -/
def countDead (objects : List (Bool × T)) : ℕ → ℕ
  | 0 => if (objects[0]?.map Prod.fst).getD false then 0 else 1
  | index + 1 =>
      if (objects[index + 1]?.map Prod.fst).getD false then 0 else countDead objects index + 1

/-- Without slots `m_objects.size() - 1` is the largest index there is. -/
def shrinkToFit (p : ObjectPool bits T) : Option (ObjectPool bits T) :=
  if p.freeIndices.length = p.objects.length then some p.clear
  else if p.objects = [] then none
  else
    let count := countDead p.objects (p.objects.length - 1)
    if count = 0 then some p
    else some { p with objects := p.objects.take (p.objects.length - count) }

section

variable (moved : T → T)

/-- A slot dies, and what is moved out of it leaves `moved` behind. -/
def kill (p : ObjectPool bits T) (index : ℕ) (object : T) : ObjectPool bits T :=
  ⟨p.objects.set index (false, moved object), toIndex bits index :: p.freeIndices⟩

def removeByIndex (p : ObjectPool bits T) (index : ℕ) : Option (T × ObjectPool bits T) :=
  match p.objects[index]? with
  | some (true, object) => some (object, p.kill moved index object)
  | _ => none

/-- The first slot that holds the object, alive or not. -/
def find? [BEq T] (p : ObjectPool bits T) (object : T) : Option ℕ :=
  p.objects.findIdx? fun slot => slot.2 == object

def removeByObject [BEq T] (p : ObjectPool bits T) (object : T) : Option (ObjectPool bits T) :=
  match p.find? object with
  | none => some p
  | some i => (p.removeByIndex moved i).map Prod.snd

/-- The loop of `RemoveIf`: the slots it leaves, the indices it pushes and the objects it hands to
the deleter. The condition may change the object. -/
def removeIfFrom (bits : ℕ) (condition : ℕ → T → Bool × T) :
    ℕ → List (Bool × T) → List (Bool × T) × List ℕ × List T
  | _, [] => ([], [], [])
  | index, (isAlive, object) :: slots =>
      let (slots, pushed, deleted) := removeIfFrom bits condition (index + 1) slots
      if isAlive then
        let (remove, object) := condition (toIndex bits index) object
        if remove then
          ((false, moved object) :: slots, toIndex bits index :: pushed, object :: deleted)
        else ((true, object) :: slots, pushed, deleted)
      else ((false, object) :: slots, pushed, deleted)

def removeIf (p : ObjectPool bits T) (condition : ℕ → T → Bool × T) :
    List T × ObjectPool bits T :=
  let (slots, pushed, deleted) := removeIfFrom moved bits condition 0 p.objects
  (deleted, ⟨slots, pushed.reverse ++ p.freeIndices⟩)

end

end ObjectPool

/-! ## Calls -/

inductive PoolCall (T : Type) where
  | add (object : T)
  | removeByIndex (index : ℕ)
  | removeByObject (object : T)
  | removeIf (condition : ℕ → T → Bool × T)
  | shrinkToFit
  | clear

/-- The index that `Add` returns, and the objects that are handed out. -/
structure PoolAnswer (T : Type) where
  index : Option ℕ := none
  removed : List T := []

namespace ObjectPool

variable {bits : ℕ} {T : Type} [BEq T] (moved : T → T)

def step (p : ObjectPool bits T) : PoolCall T → Option (ObjectPool bits T × PoolAnswer T)
  | .add object => (p.add object).map fun r => (r.2, { index := some r.1 })
  | .removeByIndex index =>
      (p.removeByIndex moved index).map fun r => (r.2, { removed := [r.1] })
  | .removeByObject object => (p.removeByObject moved object).map fun p => (p, {})
  | .removeIf condition =>
      let (deleted, p) := p.removeIf moved condition
      some (p, { removed := deleted })
  | .shrinkToFit => p.shrinkToFit.map fun p => (p, {})
  | .clear => some (p.clear, {})

/-! ## Removal by object -/

/-- A slot holds an equal object and none before it does, alive or dead. -/
structure FirstEqual (p : ObjectPool bits T) (object : T) (i : ℕ) (slot : Bool × T) : Prop where
  holds : p.objects[i]? = some slot
  equal : slot.2 == object
  first : ∀ j < i, ∀ other, p.objects[j]? = some other → ¬ other.2 == object

/-- The first slot that holds an equal object, if there is any, is alive and `Index` reaches it. -/
def FirstIsAlive (p : ObjectPool bits T) (object : T) : Prop :=
  ∀ i slot, p.FirstEqual object i slot → slot.1 = true ∧ i < 2 ^ bits

/-- The program goes on. One live slot with an equal object dies and its index is free, or there
is none and nothing changes. -/
def RemovesOne (p : ObjectPool bits T) (object : T) : Prop :=
  ∃ p', p.removeByObject moved object = some p' ∧
    ((∃ (i : ℕ) (x left : T), p.objects[i]? = some (true, x) ∧ x == object ∧
        p'.objects = p.objects.set i (false, left) ∧ p'.freeIndices = i :: p.freeIndices) ∨
      (∀ (i : ℕ) (x : T), p.objects[i]? = some (true, x) → ¬ x == object) ∧ p' = p)

variable {moved} {p : ObjectPool bits T} {object : T} {i : ℕ}

theorem find?_eq_some_iff : p.find? object = some i ↔ ∃ slot, p.FirstEqual object i slot := by
  rw [find?, List.findIdx?_eq_some_iff_getElem]
  constructor
  · rintro ⟨hi, hequal, hfirst⟩
    refine ⟨p.objects[i], List.getElem?_eq_getElem hi, hequal, fun j hj other hother => ?_⟩
    obtain ⟨hj', rfl⟩ := List.getElem?_eq_some_iff.mp hother
    exact hfirst j hj
  · rintro ⟨slot, hslot, hequal, hfirst⟩
    obtain ⟨hi, rfl⟩ := List.getElem?_eq_some_iff.mp hslot
    refine ⟨hi, hequal, fun j hj => ?_⟩
    have hj' : j < p.objects.length := Nat.lt_trans hj hi
    exact hfirst j hj _ (List.getElem?_eq_getElem hj')

theorem find?_eq_none_iff :
    p.find? object = none ↔
      ∀ (i : ℕ) (slot : Bool × T), p.objects[i]? = some slot → ¬ slot.2 == object := by
  rw [find?, List.findIdx?_eq_none_iff]
  constructor
  · intro h i slot hslot
    simp [h slot (List.mem_of_getElem? hslot)]
  · intro h slot hslot
    obtain ⟨i, hi⟩ := List.getElem?_of_mem hslot
    simpa using h i slot hi

/-- What the loop does at the slot where it stops. -/
theorem FirstEqual.removeByObject_eq {alive : Bool} {x : T}
    (h : p.FirstEqual object i (alive, x)) :
    p.removeByObject moved object = if alive then some (p.kill moved i x) else none := by
  have hholds := h.holds
  rw [removeByObject, find?_eq_some_iff.mpr ⟨_, h⟩]
  simp only [removeByIndex, hholds]
  cases alive <;> rfl

theorem removesOne_iff : p.RemovesOne moved object ↔ p.FirstIsAlive object := by
  constructor
  · rintro ⟨p', hp', hdone⟩ i ⟨alive, x⟩ hfirst
    rw [hfirst.removeByObject_eq] at hp'
    cases alive with
    | false => cases hp'
    | true =>
        refine ⟨rfl, ?_⟩
        cases hp'
        rcases hdone with ⟨j, y, left, hy, -, hobjects, hfree⟩ | ⟨hnone, -⟩
        · have hindex : toIndex bits i = j := (List.cons.inj hfree).1
          -- A truncated index is that of another slot, which stays alive.
          by_cases hij : i = j
          · rw [hij, toIndex] at hindex
            rw [hij, ← hindex]
            exact Nat.mod_lt j (Nat.two_pow_pos bits)
          · have hlive := congrArg (·[j]?) hobjects
            simp [kill, List.getElem?_set, hij, hy] at hlive
        · exact absurd hfirst.equal (hnone i x hfirst.holds)
  · intro h
    cases hfind : p.find? object with
    | none =>
        have hnone := find?_eq_none_iff.mp hfind
        refine ⟨p, by rw [removeByObject, hfind], .inr ⟨fun i x hx => ?_, rfl⟩⟩
        exact hnone i (true, x) hx
    | some i =>
        obtain ⟨⟨alive, x⟩, hfirst⟩ := find?_eq_some_iff.mp hfind
        obtain ⟨rfl, hi⟩ := h i _ hfirst
        refine ⟨p.kill moved i x, by rw [hfirst.removeByObject_eq, if_pos rfl], .inl ?_⟩
        refine ⟨i, x, moved x, hfirst.holds, hfirst.equal, rfl, ?_⟩
        rw [kill, toIndex, Nat.mod_eq_of_lt hi]

/-- Of the calls of a run those are meant that remove by an object. -/
def AtRemovals (P : ObjectPool bits T → T → Prop) (p : ObjectPool bits T) (call : PoolCall T) :
    Prop :=
  ∀ object, call = .removeByObject object → P p object

/-- In a run the removals by object are right exactly where they meet the condition. -/
theorem removals_iff (calls : List (PoolCall T)) :
    Steps.Along (step moved) (AtRemovals (RemovesOne moved)) ({} : ObjectPool bits T) calls ↔
      Steps.Along (step moved) (AtRemovals FirstIsAlive) ({} : ObjectPool bits T) calls := by
  apply Steps.along_congr
  intro p call
  apply forall_congr'
  intro object
  exact imp_congr_right fun _ => removesOne_iff

/-- Of two equal objects the first is removed by its index, and a move leaves it as it is. -/
theorem not_removals :
    ¬ Steps.Along (step id) (AtRemovals (RemovesOne id)) ({} : ObjectPool 64 ℕ)
      [.add 7, .add 7, .removeByIndex 0, .removeByObject 7] := by
  rintro ⟨-, h⟩
  obtain ⟨-, h⟩ := h _ rfl
  obtain ⟨-, h⟩ := h _ rfl
  obtain ⟨h, -⟩ := h _ rfl
  obtain ⟨p', hp', -⟩ := h 7 rfl
  cases hp'

end ObjectPool

/-! ## What a move leaves behind -/

namespace ObjectPool

variable {bits : ℕ} {T : Type} {moved : T → T} {p : ObjectPool bits T}

/-- What a dead slot holds was left behind by a move. -/
def LeftBehind (moved : T → T) (slot : Bool × T) : Prop :=
  slot.1 = false → ∃ object, slot.2 = moved object

def DeadAreMoved (moved : T → T) (p : ObjectPool bits T) : Prop :=
  ∀ slot ∈ p.objects, LeftBehind moved slot

theorem deadAreMoved_empty : ({} : ObjectPool bits T).DeadAreMoved moved := by
  intro slot hslot
  cases hslot

theorem leftBehind_alive (object : T) : LeftBehind moved (true, object) := nofun

theorem leftBehind_set {objects : List (Bool × T)} {slot : Bool × T}
    (h : ∀ slot ∈ objects, LeftBehind moved slot) (hslot : LeftBehind moved slot) (i : ℕ) :
    ∀ other ∈ objects.set i slot, LeftBehind moved other := by
  intro other hother
  rcases List.mem_or_eq_of_mem_set hother with hmem | rfl
  · exact h other hmem
  · exact hslot

theorem DeadAreMoved.removeByIndex {index : ℕ} {r : T × ObjectPool bits T}
    (h : p.DeadAreMoved moved) (hr : p.removeByIndex moved index = some r) :
    r.2.DeadAreMoved moved := by
  rw [ObjectPool.removeByIndex] at hr
  split at hr
  · cases hr
    exact leftBehind_set h (fun _ => ⟨_, rfl⟩) index
  · cases hr

theorem leftBehind_removeIfFrom (condition : ℕ → T → Bool × T) {slots : List (Bool × T)}
    (h : ∀ slot ∈ slots, LeftBehind moved slot) (index : ℕ) :
    ∀ slot ∈ (removeIfFrom moved bits condition index slots).1, LeftBehind moved slot := by
  induction slots generalizing index with
  | nil => nofun
  | cons slot slots ih =>
      obtain ⟨hslot, hslots⟩ := List.forall_mem_cons.mp h
      obtain ⟨alive, object⟩ := slot
      have hrest := ih hslots (index + 1)
      rw [removeIfFrom]
      cases alive with
      | false => exact List.forall_mem_cons.mpr ⟨hslot, hrest⟩
      | true =>
          simp only [if_true]
          split
          · exact List.forall_mem_cons.mpr ⟨fun _ => ⟨_, rfl⟩, hrest⟩
          · exact List.forall_mem_cons.mpr ⟨leftBehind_alive _, hrest⟩

theorem DeadAreMoved.shrinkToFit {p' : ObjectPool bits T} (h : p.DeadAreMoved moved)
    (hp' : p.shrinkToFit = some p') : p'.DeadAreMoved moved := by
  rw [ObjectPool.shrinkToFit] at hp'
  split at hp'
  · cases hp'
    exact deadAreMoved_empty
  · split at hp'
    · cases hp'
    · simp only at hp'
      split at hp'
      · cases hp'
        exact h
      · cases hp'
        intro slot hslot
        exact h slot (List.mem_of_mem_take hslot)

variable [BEq T]

theorem DeadAreMoved.step {call : PoolCall T} {r : ObjectPool bits T × PoolAnswer T}
    (h : p.DeadAreMoved moved) (hr : p.step moved call = some r) : r.1.DeadAreMoved moved := by
  cases call with
  | add object =>
      obtain ⟨⟨index, p'⟩, hadd, rfl⟩ := Option.map_eq_some_iff.mp hr
      rw [add] at hadd
      split at hadd
      · cases hadd
        exact List.forall_mem_append.mpr ⟨h, by simpa using leftBehind_alive object⟩
      · split at hadd
        · cases hadd
          exact leftBehind_set h (leftBehind_alive object) _
        · cases hadd
  | removeByIndex index =>
      obtain ⟨⟨object, p'⟩, hremove, rfl⟩ := Option.map_eq_some_iff.mp hr
      exact h.removeByIndex hremove
  | removeByObject object =>
      obtain ⟨p', hremove, rfl⟩ := Option.map_eq_some_iff.mp hr
      rw [ObjectPool.removeByObject] at hremove
      split at hremove
      · cases hremove
        exact h
      · obtain ⟨q, hq, rfl⟩ := Option.map_eq_some_iff.mp hremove
        exact h.removeByIndex hq
  | removeIf condition =>
      cases hr
      exact leftBehind_removeIfFrom condition h 0
  | shrinkToFit =>
      obtain ⟨p', hshrink, rfl⟩ := Option.map_eq_some_iff.mp hr
      exact h.shrinkToFit hshrink
  | clear =>
      cases hr
      exact deadAreMoved_empty

theorem deadAreMoved_run {calls : List (PoolCall T)}
    {r : ObjectPool bits T × List (PoolAnswer T)}
    (h : Steps.run (ObjectPool.step moved) ({} : ObjectPool bits T) calls = some r) :
    r.1.DeadAreMoved moved :=
  Steps.run_invariant (fun _ _ _ hp hr => DeadAreMoved.step hp hr) deadAreMoved_empty h

/-- An object that nothing left behind by a move equals is never found dead. -/
theorem DeadAreMoved.firstIsAlive (h : p.DeadAreMoved moved) (hsize : p.objects.length ≤ 2 ^ bits)
    {object : T} (hobject : ∀ other, ¬ moved other == object) : p.FirstIsAlive object := by
  rintro i ⟨alive, x⟩ ⟨hholds, hequal, -⟩
  have hi := (List.getElem?_eq_some_iff.mp hholds).1
  refine ⟨?_, Nat.lt_of_lt_of_le hi hsize⟩
  cases alive with
  | true => rfl
  | false =>
      obtain ⟨other, hother⟩ := h _ (List.mem_of_getElem? hholds) rfl
      have hx : x = moved other := hother
      rw [hx] at hequal
      exact absurd hequal (hobject other)

end ObjectPool

end SRCommon
