import Mathlib.Data.Finset.Card
import Mathlib.Data.Finset.Sort
import Mathlib.Data.Nat.ModEq
import Mathlib.Tactic.Common
import SRCommon.Lib.PartialRun

/-!
# SafeGateArray

Values are queued for addition and for removal until the next flush. A flush
counts every queued value, the container only those that it did not know, or
knew.
-/

namespace SRCommon

structure SafeGateArray (T : Type) where
  add : Finset T := ∅
  remove : Finset T := ∅
  container : Finset T := ∅
  needFlush : Bool := false
  count : UInt32 := 0

inductive GateRequest (T : Type) where
  | add (value : T)
  | remove (value : T)
  | flush
  | clear

namespace SafeGateArray

variable {T : Type}

/-- `Empty`. -/
def isEmpty (s : SafeGateArray T) : Bool := s.count = 0

/-- The queues stay as they are. -/
def clear (s : SafeGateArray T) : SafeGateArray T := { s with count := 0, container := ∅ }

/-- `Count` and `Empty` tell the truth. -/
structure Exact (s : SafeGateArray T) : Prop where
  count : s.count.toNat = s.container.card
  isEmpty : s.isEmpty = true ↔ s.container = ∅

theorem exact_empty : ({} : SafeGateArray T).Exact := by
  constructor <;> simp [isEmpty]

/-- `Empty` follows `Count`. -/
theorem exact_iff_count {s : SafeGateArray T} : s.Exact ↔ s.count.toNat = s.container.card := by
  refine ⟨Exact.count, fun h => ⟨h, ?_⟩⟩
  rw [isEmpty, decide_eq_true_iff, ← Finset.card_eq_zero, ← h, ← UInt32.toNat_inj]
  rfl

variable [LinearOrder T]

/-- `Add`. -/
def queueAdd (s : SafeGateArray T) (value : T) : SafeGateArray T :=
  { s with add := insert value s.add, needFlush := true }

/-- `Remove`. -/
def queueRemove (s : SafeGateArray T) (value : T) : SafeGateArray T :=
  { s with remove := insert value s.remove, needFlush := true }

/-- One value of the loop over `m_add`. -/
def addOne (r : Finset T × UInt32) (value : T) : Finset T × UInt32 :=
  (insert value r.1, r.2 + 1)

/-- One value of the loop over `m_remove`. -/
def removeOne (r : Finset T × UInt32) (value : T) : Finset T × UInt32 :=
  (r.1.erase value, r.2 - 1)

def flush (s : SafeGateArray T) : SafeGateArray T :=
  let r := s.add.sort.foldl addOne (s.container, s.count)
  let r := s.remove.sort.foldl removeOne r
  { add := ∅, remove := ∅, container := r.1, needFlush := false, count := r.2 }

def step (s : SafeGateArray T) : GateRequest T → Option (SafeGateArray T × Unit)
  | .add value => some (s.queueAdd value, ())
  | .remove value => some (s.queueRemove value, ())
  | .flush => some (s.flush, ())
  | .clear => some (s.clear, ())

/-- A flush adds as many values that are stored already as it removes values that are not stored
after the additions, and leaves no more values than `Count` can tell. -/
def Balanced (s : SafeGateArray T) : GateRequest T → Prop
  | .flush =>
      (s.add ∩ s.container).card ≡ (s.remove \ (s.container ∪ s.add)).card [MOD 2 ^ 32] ∧
        ((s.container ∪ s.add) \ s.remove).card < 2 ^ 32
  | _ => True

variable {s : SafeGateArray T} {request : GateRequest T}

theorem foldl_addOne (values : List T) (r : Finset T × UInt32) :
    values.foldl addOne r = (r.1 ∪ values.toFinset, r.2 + UInt32.ofNat values.length) := by
  induction values generalizing r with
  | nil => simp
  | cons value values ih =>
      rw [List.foldl_cons, ih, addOne, List.toFinset_cons, List.length_cons]
      apply Prod.ext
      · rw [Finset.insert_union, Finset.union_insert]
      · simp only [UInt32.ofNat_add]
        grind

theorem foldl_removeOne (values : List T) (r : Finset T × UInt32) :
    values.foldl removeOne r = (r.1 \ values.toFinset, r.2 - UInt32.ofNat values.length) := by
  induction values generalizing r with
  | nil => simp
  | cons value values ih =>
      rw [List.foldl_cons, ih, removeOne, List.toFinset_cons, List.length_cons]
      apply Prod.ext
      · rw [Finset.erase_sdiff_comm, Finset.sdiff_insert]
      · simp only [UInt32.ofNat_add]
        grind

theorem flush_eq : s.flush =
    { container := (s.container ∪ s.add) \ s.remove
      count := s.count + UInt32.ofNat s.add.card - UInt32.ofNat s.remove.card } := by
  rw [flush, foldl_addOne, foldl_removeOne]
  simp

/-- The values that a flush finds, leaves, counts and does not count. -/
theorem card_flush (container add remove : Finset T) :
    ((container ∪ add) \ remove).card + remove.card + (add ∩ container).card =
      container.card + add.card + (remove \ (container ∪ add)).card := by
  have hadded := Finset.card_union_add_card_inter container add
  have hleft := Finset.card_sdiff_add_card (container ∪ add) remove
  have hright := Finset.card_sdiff_add_card remove (container ∪ add)
  rw [Finset.inter_comm] at hadded
  rw [Finset.union_comm remove] at hright
  omega

theorem exact_flush_iff (h : s.Exact) : s.flush.Exact ↔ s.Balanced .flush := by
  have hcard := card_flush s.container s.add s.remove
  have hcount := h.count
  have hlt := s.flush.count.toNat_lt
  rw [exact_iff_count, flush_eq, Balanced, Nat.ModEq]
  dsimp only
  rw [UInt32.toNat_sub, UInt32.toNat_add, UInt32.toNat_ofNat', UInt32.toNat_ofNat', hcount]
  generalize ((s.container ∪ s.add) \ s.remove).card = left at *
  omega

theorem exact_step_iff (h : s.Exact) {r : SafeGateArray T × Unit} (hr : s.step request = some r) :
    r.1.Exact ↔ s.Balanced request := by
  cases request with
  | add value =>
      cases hr
      exact iff_of_true ⟨h.count, h.isEmpty⟩ trivial
  | remove value =>
      cases hr
      exact iff_of_true ⟨h.count, h.isEmpty⟩ trivial
  | flush =>
      cases hr
      exact exact_flush_iff h
  | clear =>
      cases hr
      exact iff_of_true (exact_iff_count.mpr rfl) trivial

theorem exact_runs_iff (requests : List (GateRequest T)) :
    Steps.Throughout step (fun _ _ s' => s'.Exact) {} requests ↔
      Steps.Along step Balanced {} requests := by
  refine Steps.throughout_iff_along (I := Exact) (fun s request r hs hr => exact_step_iff hs hr)
    (fun _ _ _ hs' => hs') ?_ exact_empty requests
  intro s request _ hnone
  cases request <;> cases hnone

/-- One value added twice counts twice, and one that is removed without being stored takes the
counter below zero. -/
theorem not_exact_runs :
    (∃ s : SafeGateArray ℕ, Steps.run step {} [.add 5, .flush, .add 5, .flush] =
        some (s, [(), (), (), ()]) ∧ s.count = 2 ∧ s.container = {5} ∧ ¬ s.Exact) ∧
      ∃ s : SafeGateArray ℕ, Steps.run step {} [.remove 5, .flush] = some (s, [(), ()]) ∧
        s.count = 0xFFFFFFFF ∧ s.container = ∅ ∧ ¬ s.Exact := by
  refine ⟨⟨_, rfl, ?_⟩, ⟨_, rfl, ?_⟩⟩
  · simp only [exact_iff_count, flush_eq, queueAdd]
    decide
  · simp only [exact_iff_count, flush_eq, queueRemove]
    decide

end SafeGateArray

end SRCommon
