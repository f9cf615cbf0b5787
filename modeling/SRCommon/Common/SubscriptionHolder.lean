import Mathlib.Logic.Function.Basic
import SRCommon.Lib.PartialRun
import SRCommon.Types.ObjectPool

/-!
# Subscriptions

A holder keeps the infos of its subscriptions in a pool for each id, and a
handle that is alive points to an info or to nothing. Infos are known by the
order in which they are made. A use of a deleted one has no meaning.
-/

namespace SRCommon

/-- `pHolder` is the one holder there is. -/
structure SubscriptionInternalInfo (α κ : Type) where
  index : ℕ
  callback : κ
  id : α

/-- A holder, with the infos that have been made and those that have been deleted again. -/
structure SubscriptionHolder (α κ : Type) where
  subscriptions : α → Option (ObjectPool 32 ℕ)
  count : UInt32
  infos : List (SubscriptionInternalInfo α κ)
  deleted : List ℕ

namespace ObjectPool

variable {bits : ℕ} {T : Type}

/-- The objects that `ForEach` hands to its function, in order. -/
def forEach (p : ObjectPool bits T) : List T :=
  if p.isEmpty then [] else (p.objects.filter Prod.fst).map Prod.snd

end ObjectPool

namespace SubscriptionHolder

variable {α κ : Type} (t : SubscriptionHolder α κ)

def empty : SubscriptionHolder α κ where
  subscriptions := fun _ => none
  count := 0
  infos := []
  deleted := []

/-- The info at a pointer. -/
def info (a : ℕ) : Option (SubscriptionInternalInfo α κ) :=
  if a ∈ t.deleted then none else t.infos[a]?

/-- The callbacks that are called, with the infos they belong to. -/
def broadcast (id : α) : Option (List (ℕ × κ)) :=
  match t.subscriptions id with
  | none => some []
  | some pool => pool.forEach.mapM fun pSubscription =>
      (t.info pSubscription).map fun info => (pSubscription, info.callback)

variable [DecidableEq α]

/-- The new info is the last one. -/
def subscribe (id : α) (callback : κ) : Option (SubscriptionHolder α κ) :=
  (((t.subscriptions id).getD {}).add t.infos.length).map fun r =>
    { t with
      subscriptions := Function.update t.subscriptions id (some r.2)
      infos := t.infos ++ [{ index := r.1, callback, id }]
      count := t.count + 1 }

/-- The pool may also be missing, which is only reported. -/
def unsubscribe (pSubscription : ℕ) : Option (SubscriptionHolder α κ) :=
  (t.info pSubscription).bind fun info => match t.subscriptions info.id with
    | some pool => (pool.removeByIndex id info.index).map fun r =>
        { t with
          subscriptions := Function.update t.subscriptions info.id (some r.2)
          deleted := t.deleted ++ [pSubscription]
          count := t.count - 1 }
    | none => some t

end SubscriptionHolder

/-- The holder and its handles, with `m_internalInfo` of those that are alive. -/
structure Subscriptions (α κ η : Type) where
  holder : SubscriptionHolder α κ
  handles : η → Option (Option ℕ)

inductive SubscriptionCall (α κ η : Type) where
  | construct (this : η)
  | subscribe (this : η) (id : α) (callback : κ)
  | moveConstruct (this other : η)
  | moveAssign (this other : η)
  | reset (this : η)
  | destroy (this : η)
  | broadcast (id : α)

namespace Subscriptions

variable {α κ η : Type}

def empty : Subscriptions α κ η := ⟨.empty, fun _ => none⟩

section

variable [DecidableEq η] (w : Subscriptions α κ η)

def setHandle (this : η) (m_internalInfo : Option ℕ) : Subscriptions α κ η :=
  { w with handles := Function.update w.handles this (some m_internalInfo) }

/-- `SR_EXCHANGE(other.m_internalInfo, nullptr)` into another handle. -/
def exchange (this other : η) : Option (Subscriptions α κ η) :=
  (w.handles other).map fun m_internalInfo =>
    (w.setHandle other none).setHandle this m_internalInfo

end

variable [DecidableEq α] [DecidableEq η] (w : Subscriptions α κ η)

def reset (this : η) : Option (Subscriptions α κ η) :=
  (w.handles this).bind fun
    | some m_internalInfo => (w.holder.unsubscribe m_internalInfo).map fun holder =>
        setHandle { w with holder } this none
    | none => some w

/-- A handle is made where there is none, and used where there is one. -/
def step : SubscriptionCall α κ η → Option (Subscriptions α κ η × List (ℕ × κ))
  | .construct this =>
      if w.handles this = none then some (w.setHandle this none, []) else none
  | .subscribe this id callback =>
      if w.handles this = none then
        (w.holder.subscribe id callback).map fun holder =>
          (setHandle { w with holder } this (some w.holder.infos.length), [])
      else none
  | .moveConstruct this other =>
      if w.handles this = none then (w.exchange this other).map fun w => (w, []) else none
  | .moveAssign this other =>
      if w.handles this = none then none else (w.exchange this other).map fun w => (w, [])
  | .reset this => (w.reset this).map fun w => (w, [])
  | .destroy this => (w.reset this).map fun w =>
      ({ w with handles := Function.update w.handles this none }, [])
  | .broadcast id => (w.holder.broadcast id).map fun called => (w, called)

end Subscriptions

end SRCommon
