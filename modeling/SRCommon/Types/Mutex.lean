import Mathlib.Algebra.Group.Nat.Defs
import Mathlib.Data.List.AList
import Mathlib.Logic.Function.Basic

/-!
# SharedRecursiveMutex

A mutex that is locked exclusively or shared, and again by the threads that hold
it. What a thread does under `m_mtx` is one step; a thread that cannot lock
waits on the condition variable until it is notified or wakes up by itself, and
then asks again. A release is followed by `notify_all` as a step of its own.
-/

namespace SRCommon

/-- `size_t` counts, which wrap around. -/
structure SharedRecursiveMutex (θ : Type) where
  exclusiveThreadId : Option θ := none
  exclusiveCount : UInt64 := 0
  sharedLocks : AList fun _ : θ => UInt64 := ∅

inductive LockKind where
  | exclusive
  | shared
  deriving DecidableEq

namespace SharedRecursiveMutex

variable {θ : Type} [DecidableEq θ] (m : SharedRecursiveMutex θ) (id : θ)

def isExclusiveLocked : Bool := 0 < m.exclusiveCount

def isSharedLocked : Bool := !m.sharedLocks.keys.isEmpty

def isSharedLockedOnlyOnThread : Bool :=
  m.sharedLocks.keys.length = 1 && (m.sharedLocks.lookup id).isSome

def isExclusiveLockedOnThread : Bool :=
  0 < m.exclusiveCount && m.exclusiveThreadId = some id

def canStartExclusiveLock : Bool :=
  !m.isExclusiveLocked && (!m.isSharedLocked || m.isSharedLockedOnlyOnThread id)

def canIncrementExclusiveLock : Bool := m.isExclusiveLockedOnThread id

def canExclusivelyLock : Bool := m.canStartExclusiveLock id || m.canIncrementExclusiveLock id

def canLockShared : Bool := !m.isExclusiveLocked || m.isExclusiveLockedOnThread id

def startExclusiveLock : SharedRecursiveMutex θ :=
  { m with exclusiveThreadId := some id, exclusiveCount := m.exclusiveCount + 1 }

def incrementExclusiveLock : SharedRecursiveMutex θ :=
  { m with exclusiveCount := m.exclusiveCount + 1 }

/-- `none` where it throws. -/
def decrementExclusiveLock : Option (SharedRecursiveMutex θ) :=
  if m.exclusiveCount = 0 then none
  else if m.exclusiveThreadId = some id then
    some { m with exclusiveCount := m.exclusiveCount - 1 }
  else none

def incrementSharedLock : SharedRecursiveMutex θ :=
  match m.sharedLocks.lookup id with
  | none => { m with sharedLocks := m.sharedLocks.insert id 1 }
  | some n => { m with sharedLocks := m.sharedLocks.insert id (n + 1) }

/-- `none` where it throws. -/
def decrementSharedLock : Option (SharedRecursiveMutex θ) :=
  if m.sharedLocks.keys.isEmpty then none
  else match m.sharedLocks.lookup id with
    | none => none
    | some n =>
        if n = 1 then some { m with sharedLocks := m.sharedLocks.erase id }
        else some { m with sharedLocks := m.sharedLocks.insert id (n - 1) }

/-! ## Under `m_mtx` -/

/-- `lock` behind the wait. -/
def acquireExclusive : SharedRecursiveMutex θ :=
  if m.isExclusiveLockedOnThread id then m.incrementExclusiveLock else m.startExclusiveLock id

/-- A round of the wait in `lock` and `lock_shared`, `none` where it goes on. -/
def acquire : LockKind → Option (SharedRecursiveMutex θ)
  | .exclusive => if m.canExclusivelyLock id then some (m.acquireExclusive id) else none
  | .shared => if m.canLockShared id then some (m.incrementSharedLock id) else none

/-- `try_lock` and `try_lock_shared`, `none` where they give `false`. -/
def tryAcquire : LockKind → Option (SharedRecursiveMutex θ)
  | .exclusive =>
      if m.canIncrementExclusiveLock id then some m.incrementExclusiveLock
      else if m.canStartExclusiveLock id then some (m.startExclusiveLock id)
      else none
  | .shared => if m.canLockShared id then some (m.incrementSharedLock id) else none

/-- `unlock` and `unlock_shared` in front of the notification, `none` where they throw. -/
def release : LockKind → Option (SharedRecursiveMutex θ)
  | .exclusive => m.decrementExclusiveLock id
  | .shared => m.decrementSharedLock id

/-- What a thread waits for. -/
def waitCondition : LockKind → Bool
  | .exclusive => m.canExclusivelyLock id
  | .shared => m.canLockShared id

end SharedRecursiveMutex

/-! ## Threads -/

inductive ThreadState where
  | running
  /-- In `wait` of the condition variable. -/
  | blocked (kind : LockKind)
  /-- Out of `wait`, and going to ask again. -/
  | woken (kind : LockKind)
  /-- In front of `notify_all`. -/
  | notifying
  deriving DecidableEq

structure MutexThreads (θ : Type) where
  mutex : SharedRecursiveMutex θ := {}
  thread : θ → ThreadState := fun _ => .running
  /-- How often a thread has acquired the mutex. -/
  acquisitions : LockKind → θ → ℕ := fun _ _ => 0
  releases : LockKind → θ → ℕ := fun _ _ => 0

inductive MutexCall (θ : Type) where
  | lock (kind : LockKind) (id : θ)
  | tryLock (kind : LockKind) (id : θ)
  | unlock (kind : LockKind) (id : θ)
  /-- The thread wakes up by itself. -/
  | wake (id : θ)
  /-- A woken thread asks again. -/
  | retry (id : θ)
  | notifyAll (id : θ)

inductive MutexAnswer where
  | acquired
  | refused
  | blocked
  | released
  | threw
  | done
  deriving DecidableEq

namespace MutexThreads

variable {θ : Type} [DecidableEq θ] (s : MutexThreads θ)

def acquired (kind : LockKind) (id : θ) (mutex : SharedRecursiveMutex θ) : MutexThreads θ where
  mutex := mutex
  thread := Function.update s.thread id .running
  acquisitions := fun k t => if k = kind ∧ t = id then s.acquisitions k t + 1 else s.acquisitions k t
  releases := s.releases

def released (kind : LockKind) (id : θ) (mutex : SharedRecursiveMutex θ) : MutexThreads θ where
  mutex := mutex
  thread := Function.update s.thread id .notifying
  acquisitions := s.acquisitions
  releases := fun k t => if k = kind ∧ t = id then s.releases k t + 1 else s.releases k t

def ask (kind : LockKind) (id : θ) : MutexThreads θ × MutexAnswer :=
  match s.mutex.acquire id kind with
  | some mutex => (s.acquired kind id mutex, .acquired)
  | none => ({ s with thread := Function.update s.thread id (.blocked kind) }, .blocked)

def awaken : ThreadState → ThreadState
  | .blocked kind => .woken kind
  | state => state

def step : MutexCall θ → Option (MutexThreads θ × MutexAnswer)
  | .lock kind id => if s.thread id = .running then some (s.ask kind id) else none
  | .tryLock kind id =>
      if s.thread id = .running then
        match s.mutex.tryAcquire id kind with
        | some mutex => some (s.acquired kind id mutex, .acquired)
        | none => some (s, .refused)
      else none
  | .unlock kind id =>
      if s.thread id = .running then
        match s.mutex.release id kind with
        | some mutex => some (s.released kind id mutex, .released)
        | none => some (s, .threw)
      else none
  | .wake id =>
      match s.thread id with
      | .blocked kind => some ({ s with thread := Function.update s.thread id (.woken kind) }, .done)
      | _ => none
  | .retry id =>
      match s.thread id with
      | .woken kind => some (s.ask kind id)
      | _ => none
  | .notifyAll id =>
      if s.thread id = .notifying then
        some ({ s with thread := Function.update (fun t => awaken (s.thread t)) id .running }, .done)
      else none

end MutexThreads

end SRCommon
