import SRCommon.Lib.PartialRun
import SRCommon.Types.Mutex

/-!
# Runs of the mutex

The mutex is seen as the number of times that each thread holds it. A thread
may lock it exclusively when no other thread holds it, and shared when no other
thread holds it exclusively; the code asks the same as long as the counts do not
wrap around.
-/

namespace SRCommon

namespace SharedRecursiveMutex

section

variable {θ : Type} [DecidableEq θ] {m m' : SharedRecursiveMutex θ} {t u : θ} {kind : LockKind}

/-- How often the thread holds the mutex. -/
def held (m : SharedRecursiveMutex θ) : LockKind → θ → ℕ
  | .exclusive, t => if m.exclusiveThreadId = some t then m.exclusiveCount.toNat else 0
  | .shared, t => (m.sharedLocks.lookup t).elim 0 UInt64.toNat

structure Sound (m : SharedRecursiveMutex θ) : Prop where
  excludes : ∀ t u kind, 0 < m.held .exclusive t → 0 < m.held kind u → u = t
  owned : m.exclusiveCount ≠ 0 → ∃ t, m.exclusiveThreadId = some t
  positive : ∀ t, t ∈ m.sharedLocks → 0 < m.held .shared t

/-- The thread holds the mutex once more. -/
def Adds (m : SharedRecursiveMutex θ) (kind : LockKind) (t : θ) (m' : SharedRecursiveMutex θ) :
    Prop :=
  ∀ k u, m'.held k u = if k = kind ∧ u = t then m.held k u + 1 else m.held k u

theorem sound_empty : ({} : SharedRecursiveMutex θ).Sound where
  excludes _ _ _ ht := absurd ht (Nat.lt_irrefl 0)
  owned h := absurd rfl h
  positive _ h := absurd h (AList.notMem_empty _)

theorem toNat_pos_iff (n : UInt64) : 0 < n.toNat ↔ n ≠ 0 := by
  rw [Nat.pos_iff_ne_zero, ne_eq, ne_eq, ← UInt64.toNat_inj]
  rfl

theorem held_exclusive_pos_iff :
    0 < m.held .exclusive t ↔ m.exclusiveThreadId = some t ∧ m.exclusiveCount ≠ 0 := by
  rw [held]
  split
  · rw [toNat_pos_iff]
    simp [*]
  · simp [*]

theorem Sound.held_shared_pos_iff (h : m.Sound) : 0 < m.held .shared t ↔ t ∈ m.sharedLocks := by
  refine ⟨fun hpos => ?_, h.positive t⟩
  rw [held] at hpos
  cases hlookup : m.sharedLocks.lookup t with
  | none =>
      rw [hlookup] at hpos
      cases hpos
  | some n => exact AList.lookup_isSome.mp (by rw [hlookup]; rfl)

theorem isExclusiveLocked_iff {θ : Type} {m : SharedRecursiveMutex θ} :
    m.isExclusiveLocked = true ↔ m.exclusiveCount ≠ 0 := by
  rw [isExclusiveLocked, decide_eq_true_eq, UInt64.lt_iff_toNat_lt]
  exact toNat_pos_iff _

theorem isExclusiveLockedOnThread_iff :
    m.isExclusiveLockedOnThread t = true ↔ 0 < m.held .exclusive t := by
  rw [isExclusiveLockedOnThread, Bool.and_eq_true, decide_eq_true_eq, decide_eq_true_eq,
    held_exclusive_pos_iff, UInt64.lt_iff_toNat_lt, and_comm]
  exact and_congr_right fun _ => toNat_pos_iff _

theorem Sound.isExclusiveLocked_iff_held (h : m.Sound) :
    m.isExclusiveLocked = true ↔ ∃ t, 0 < m.held .exclusive t := by
  rw [isExclusiveLocked_iff]
  constructor
  · intro hcount
    obtain ⟨t, ht⟩ := h.owned hcount
    exact ⟨t, held_exclusive_pos_iff.mpr ⟨ht, hcount⟩⟩
  · rintro ⟨t, ht⟩
    exact (held_exclusive_pos_iff.mp ht).2

/-- No thread has locked shared, or this one alone. -/
theorem Sound.sharedLocks_iff (h : m.Sound) :
    (!m.isSharedLocked || m.isSharedLockedOnlyOnThread t) = true ↔
      ∀ u, 0 < m.held .shared u → u = t := by
  have hkeys : ∀ u, 0 < m.held .shared u ↔ u ∈ m.sharedLocks.keys := fun u =>
    h.held_shared_pos_iff.trans AList.mem_keys
  simp only [hkeys]
  rw [isSharedLocked, isSharedLockedOnlyOnThread, Bool.not_not, Bool.or_eq_true, Bool.and_eq_true,
    decide_eq_true_eq, List.isEmpty_iff, AList.lookup_isSome, AList.mem_keys]
  constructor
  · rintro (hempty | ⟨hone, ht⟩) u hu
    · rw [hempty] at hu
      cases hu
    · obtain ⟨v, hv⟩ := List.length_eq_one_iff.mp hone
      rw [hv, List.mem_singleton] at hu ht
      rw [hu, ht]
  · intro honly
    cases hlist : m.sharedLocks.keys with
    | nil => exact .inl rfl
    | cons v vs =>
        right
        rw [hlist] at honly
        have hnodup := m.sharedLocks.keys_nodup
        rw [hlist, List.nodup_cons] at hnodup
        have hv := honly v List.mem_cons_self
        cases vs with
        | nil => exact ⟨rfl, hv ▸ List.mem_cons_self⟩
        | cons w ws =>
            have hw := honly w (List.mem_cons_of_mem _ List.mem_cons_self)
            rw [hv, ← hw] at hnodup
            exact absurd List.mem_cons_self hnodup.1

theorem Sound.canExclusivelyLock_iff (h : m.Sound) :
    m.canExclusivelyLock t = true ↔ ∀ kind u, 0 < m.held kind u → u = t := by
  rw [canExclusivelyLock, canStartExclusiveLock, canIncrementExclusiveLock, Bool.or_eq_true,
    Bool.and_eq_true, h.sharedLocks_iff, isExclusiveLockedOnThread_iff, Bool.not_eq_true',
    ← Bool.not_eq_true, h.isExclusiveLocked_iff_held]
  constructor
  · rintro (⟨hfree, hshared⟩ | hown) kind u hu
    · cases kind with
      | exclusive => exact absurd ⟨u, hu⟩ hfree
      | shared => exact hshared u hu
    · exact h.excludes t u kind hown hu
  · intro honly
    by_cases hlocked : ∃ u, 0 < m.held .exclusive u
    · obtain ⟨u, hu⟩ := hlocked
      exact .inr (honly .exclusive u hu ▸ hu)
    · exact .inl ⟨hlocked, honly .shared⟩

theorem Sound.canLockShared_iff (h : m.Sound) :
    m.canLockShared t = true ↔ ∀ u, 0 < m.held .exclusive u → u = t := by
  rw [canLockShared, Bool.or_eq_true, isExclusiveLockedOnThread_iff, Bool.not_eq_true',
    ← Bool.not_eq_true, h.isExclusiveLocked_iff_held]
  constructor
  · rintro (hfree | hown) u hu
    · exact absurd ⟨u, hu⟩ hfree
    · exact h.excludes t u _ hown hu
  · intro honly
    by_cases hlocked : ∃ u, 0 < m.held .exclusive u
    · obtain ⟨u, hu⟩ := hlocked
      exact .inr (honly u hu ▸ hu)
    · exact .inl hlocked

/-- What a thread waits for depends on what the others hold. -/
theorem Sound.waitCondition_iff (h : m.Sound) :
    m.waitCondition t kind = true ↔
      ∀ k u, (kind = .exclusive ∨ k = .exclusive) → 0 < m.held k u → u = t := by
  cases kind with
  | exclusive =>
      refine h.canExclusivelyLock_iff.trans ⟨fun h k u _ => h k u, fun h k u => h k u (.inl rfl)⟩
  | shared =>
      refine h.canLockShared_iff.trans ⟨fun h k u hk => ?_, fun h u => h .exclusive u (.inr rfl)⟩
      obtain rfl : k = .exclusive := hk.resolve_left (by decide)
      exact h u

/-! ## Acquisitions and releases -/

theorem toNat_add_one {n : UInt64} (h : n.toNat + 1 < 2 ^ 64) : (n + 1).toNat = n.toNat + 1 := by
  rw [UInt64.toNat_add]
  exact Nat.mod_eq_of_lt h

theorem Sound.of_adds (h : m.Sound) (hadds : m.Adds kind t m')
    (hcan : m.waitCondition t kind = true)
    (howned : m'.exclusiveCount ≠ 0 → ∃ u, m'.exclusiveThreadId = some u)
    (hmem : ∀ u, u ∈ m'.sharedLocks → u ∈ m.sharedLocks ∨ kind = .shared ∧ u = t) : m'.Sound where
  excludes v u k hv hu := by
    rw [hadds] at hv hu
    rw [h.waitCondition_iff] at hcan
    split at hv
    · rename_i hboth
      obtain ⟨rfl, rfl⟩ := hboth
      split at hu
      · rename_i hboth
        exact hboth.2
      · exact hcan k u (.inl rfl) hu
    · split at hu
      · rename_i hboth
        rw [hboth.2, hcan .exclusive v (.inr rfl) hv]
      · exact h.excludes v u k hv hu
  owned := howned
  positive u hu := by
    rw [hadds]
    split
    · exact Nat.succ_pos _
    · rename_i hne
      rcases hmem u hu with hold | ⟨rfl, rfl⟩
      · exact h.positive u hold
      · exact absurd ⟨rfl, rfl⟩ hne

theorem held_shared_congr (h : m'.sharedLocks = m.sharedLocks) (u : θ) :
    m'.held .shared u = m.held .shared u := by
  rw [held, held, h]

theorem held_exclusive_congr (hid : m'.exclusiveThreadId = m.exclusiveThreadId)
    (hcount : m'.exclusiveCount = m.exclusiveCount) (u : θ) :
    m'.held .exclusive u = m.held .exclusive u := by
  rw [held, held, hid, hcount]

theorem adds_incrementExclusiveLock (hown : 0 < m.held .exclusive t)
    (hfits : m.held .exclusive t + 1 < 2 ^ 64) :
    m.Adds .exclusive t m.incrementExclusiveLock := by
  have hid := (held_exclusive_pos_iff.mp hown).1
  rw [held, if_pos hid] at hfits
  intro k u
  cases k with
  | exclusive =>
      rw [held, held]
      change (if m.exclusiveThreadId = some u then (m.exclusiveCount + 1).toNat else 0) = _
      rw [hid, toNat_add_one hfits]
      by_cases hu : u = t
      · simp [hu]
      · simp [hu, Ne.symm hu]
  | shared => exact (held_shared_congr rfl u).trans (if_neg fun hboth => by cases hboth.1).symm

theorem adds_startExclusiveLock (hfree : m.exclusiveCount = 0) :
    m.Adds .exclusive t (m.startExclusiveLock t) := by
  intro k u
  cases k with
  | exclusive =>
      rw [held, held]
      change (if some t = some u then (m.exclusiveCount + 1).toNat else 0) = _
      rw [hfree]
      by_cases hu : u = t
      · simp [hu]
      · simp [hu, Ne.symm hu]
  | shared => exact (held_shared_congr rfl u).trans (if_neg fun hboth => by cases hboth.1).symm

theorem adds_incrementSharedLock (hfits : m.held .shared t + 1 < 2 ^ 64) :
    m.Adds .shared t (m.incrementSharedLock t) := by
  have hinsert : ∃ n, m.incrementSharedLock t =
      { m with sharedLocks := m.sharedLocks.insert t n } ∧ n.toNat = m.held .shared t + 1 := by
    rw [incrementSharedLock]
    cases hlookup : m.sharedLocks.lookup t with
    | none => exact ⟨1, rfl, by rw [held, hlookup]; rfl⟩
    | some n =>
        rw [held, hlookup] at hfits ⊢
        exact ⟨n + 1, rfl, toNat_add_one hfits⟩
  obtain ⟨n, heq, hn⟩ := hinsert
  rw [heq]
  intro k u
  cases k with
  | exclusive =>
      exact (held_exclusive_congr rfl rfl u).trans (if_neg fun hboth => by cases hboth.1).symm
  | shared =>
      by_cases hu : u = t
      · rw [if_pos ⟨rfl, hu⟩, hu, ← hn, held, AList.lookup_insert]
        rfl
      · rw [if_neg fun hboth => hu hboth.2, held, AList.lookup_insert_ne hu]
        rfl

theorem mem_incrementSharedLock (hu : u ∈ (m.incrementSharedLock t).sharedLocks) :
    u ∈ m.sharedLocks ∨ u = t := by
  rw [incrementSharedLock] at hu
  split at hu <;> exact ((AList.mem_insert _).mp hu).symm

theorem Sound.incrementSharedLock (h : m.Sound) (hcan : m.canLockShared t = true)
    (hfits : m.held .shared t + 1 < 2 ^ 64) :
    (m.incrementSharedLock t).Sound ∧ m.Adds .shared t (m.incrementSharedLock t) := by
  have hadds := adds_incrementSharedLock hfits
  have howned : (m.incrementSharedLock t).exclusiveCount ≠ 0 →
      ∃ u, (m.incrementSharedLock t).exclusiveThreadId = some u := by
    rw [SharedRecursiveMutex.incrementSharedLock]
    split <;> exact h.owned
  refine ⟨h.of_adds hadds hcan howned fun u hu => ?_, hadds⟩
  exact (mem_incrementSharedLock hu).imp_right fun heq => ⟨rfl, heq⟩

theorem Sound.incrementExclusiveLock (h : m.Sound) (hown : 0 < m.held .exclusive t)
    (hfits : m.held .exclusive t + 1 < 2 ^ 64) :
    m.incrementExclusiveLock.Sound ∧ m.Adds .exclusive t m.incrementExclusiveLock := by
  have hadds := adds_incrementExclusiveLock hown hfits
  have hcan : m.waitCondition t .exclusive = true :=
    h.canExclusivelyLock_iff.mpr fun kind u => h.excludes t u kind hown
  exact ⟨h.of_adds hadds hcan (fun _ => ⟨t, (held_exclusive_pos_iff.mp hown).1⟩)
    fun u hu => .inl hu, hadds⟩

theorem Sound.startExclusiveLock (h : m.Sound) (hcan : m.canStartExclusiveLock t = true) :
    (m.startExclusiveLock t).Sound ∧ m.Adds .exclusive t (m.startExclusiveLock t) := by
  have hfree : m.exclusiveCount = 0 := by
    rw [canStartExclusiveLock, Bool.and_eq_true, Bool.not_eq_true', ← Bool.not_eq_true,
      isExclusiveLocked_iff, not_not] at hcan
    exact hcan.1
  have hadds := adds_startExclusiveLock (t := t) hfree
  refine ⟨h.of_adds hadds ?_ (fun _ => ⟨t, rfl⟩) fun u hu => .inl hu, hadds⟩
  rw [waitCondition, canExclusivelyLock, hcan]
  rfl

theorem Sound.acquire (h : m.Sound) (hfits : m.held kind t + 1 < 2 ^ 64)
    (hm' : m.acquire t kind = some m') : m'.Sound ∧ m.Adds kind t m' := by
  cases kind with
  | exclusive =>
      rw [SharedRecursiveMutex.acquire] at hm'
      split at hm'
      · rename_i hcan
        cases hm'
        rw [acquireExclusive]
        split
        · exact h.incrementExclusiveLock (isExclusiveLockedOnThread_iff.mp ‹_›) hfits
        · rename_i hown
          refine h.startExclusiveLock ?_
          rw [canExclusivelyLock, canIncrementExclusiveLock, Bool.or_eq_true] at hcan
          exact hcan.resolve_right hown
      · cases hm'
  | shared =>
      rw [SharedRecursiveMutex.acquire] at hm'
      split at hm'
      · cases hm'
        exact h.incrementSharedLock ‹_› hfits
      · cases hm'

theorem Sound.tryAcquire (h : m.Sound) (hfits : m.held kind t + 1 < 2 ^ 64)
    (hm' : m.tryAcquire t kind = some m') : m'.Sound ∧ m.Adds kind t m' := by
  cases kind with
  | exclusive =>
      rw [SharedRecursiveMutex.tryAcquire] at hm'
      split at hm'
      · cases hm'
        exact h.incrementExclusiveLock (isExclusiveLockedOnThread_iff.mp ‹_›) hfits
      split at hm'
      · cases hm'
        exact h.startExclusiveLock ‹_›
      · cases hm'
  | shared =>
      rw [SharedRecursiveMutex.tryAcquire] at hm'
      split at hm'
      · cases hm'
        exact h.incrementSharedLock ‹_› hfits
      · cases hm'

theorem waitCondition_of_acquire (h : m.acquire t kind = none) : ¬m.waitCondition t kind = true := by
  cases kind with
  | exclusive | shared =>
      rw [SharedRecursiveMutex.acquire] at h
      split at h
      · cases h
      · assumption

/-- The thread holds the mutex once less. -/
def Drops (m : SharedRecursiveMutex θ) (kind : LockKind) (t : θ) (m' : SharedRecursiveMutex θ) :
    Prop :=
  m'.Adds kind t m

theorem Sound.of_drops (h : m.Sound) (hdrops : m.Drops kind t m')
    (howned : m'.exclusiveCount ≠ 0 → ∃ u, m'.exclusiveThreadId = some u)
    (hpositive : ∀ u, u ∈ m'.sharedLocks → 0 < m'.held .shared u) : m'.Sound where
  excludes v u k hv hu := by
    have hle : ∀ k u, m'.held k u ≤ m.held k u := fun k u => by
      rw [hdrops k u]
      split
      · exact Nat.le_succ _
      · exact le_rfl
    exact h.excludes v u k (lt_of_lt_of_le hv (hle ..)) (lt_of_lt_of_le hu (hle ..))
  owned := howned
  positive := hpositive

theorem decrementExclusiveLock_eq : m.decrementExclusiveLock t =
    if 0 < m.held .exclusive t then some { m with exclusiveCount := m.exclusiveCount - 1 }
    else none := by
  rw [decrementExclusiveLock]
  by_cases hcount : m.exclusiveCount = 0
  · rw [if_pos hcount, if_neg fun hpos => (held_exclusive_pos_iff.mp hpos).2 hcount]
  · rw [if_neg hcount]
    exact if_congr ⟨fun hid => held_exclusive_pos_iff.mpr ⟨hid, hcount⟩,
      fun hpos => (held_exclusive_pos_iff.mp hpos).1⟩ rfl rfl

theorem toNat_sub_one {n : UInt64} (h : n ≠ 0) : (n - 1).toNat + 1 = n.toNat := by
  have hpos := (toNat_pos_iff n).mpr h
  have hle : (1 : UInt64).toNat ≤ n.toNat := hpos
  rw [UInt64.toNat_sub_of_le _ _ (UInt64.le_iff_toNat_le.mpr hle)]
  exact Nat.sub_add_cancel hpos

theorem Sound.decrementExclusiveLock (h : m.Sound) (hown : 0 < m.held .exclusive t) :
    Sound { m with exclusiveCount := m.exclusiveCount - 1 } ∧
      m.Drops .exclusive t { m with exclusiveCount := m.exclusiveCount - 1 } := by
  obtain ⟨hid, hcount⟩ := held_exclusive_pos_iff.mp hown
  have hdrops : m.Drops .exclusive t { m with exclusiveCount := m.exclusiveCount - 1 } := by
    intro k u
    cases k with
    | exclusive =>
        rw [held, held, hid]
        by_cases hu : u = t
        · simp [hu, toNat_sub_one hcount]
        · simp [hu, Ne.symm hu]
    | shared => exact (held_shared_congr rfl u).trans (if_neg fun hboth => by cases hboth.1).symm
  exact ⟨h.of_drops hdrops (fun _ => ⟨t, hid⟩) h.positive, hdrops⟩

theorem Sound.of_drops_shared (h : m.Sound) (hid : m'.exclusiveThreadId = m.exclusiveThreadId)
    (hcount : m'.exclusiveCount = m.exclusiveCount)
    (hothers : ∀ u, u ≠ t → m'.sharedLocks.lookup u = m.sharedLocks.lookup u)
    (ht : m'.held .shared t + 1 = m.held .shared t)
    (hpositive : t ∈ m'.sharedLocks → 0 < m'.held .shared t) :
    m'.Sound ∧ m.Drops .shared t m' := by
  have hheld : ∀ u, u ≠ t → m'.held .shared u = m.held .shared u := fun u hu => by
    rw [held, held, hothers u hu]
  have hdrops : m.Drops .shared t m' := by
    intro k u
    cases k with
    | exclusive =>
        exact (held_exclusive_congr hid.symm hcount.symm u).trans
          (if_neg fun hboth => by cases hboth.1).symm
    | shared =>
        by_cases hu : u = t
        · rw [if_pos ⟨rfl, hu⟩, hu, ht]
        · rw [if_neg fun hboth => hu hboth.2, hheld u hu]
  refine ⟨h.of_drops hdrops (by rw [hid, hcount]; exact h.owned) fun u hu => ?_, hdrops⟩
  by_cases hut : u = t
  · exact hut ▸ hpositive (hut ▸ hu)
  · rw [hheld u hut]
    refine h.positive u (AList.lookup_isSome.mp ?_)
    rw [← hothers u hut]
    exact AList.lookup_isSome.mpr hu

theorem Sound.decrementSharedLock (h : m.Sound) (hm' : m.decrementSharedLock t = some m') :
    m'.Sound ∧ m.Drops .shared t m' := by
  rw [SharedRecursiveMutex.decrementSharedLock] at hm'
  split at hm'
  · cases hm'
  split at hm'
  · cases hm'
  rename_i n hlookup
  have hn : m.held .shared t = n.toNat := by
    rw [held, hlookup]
    rfl
  have hmem : t ∈ m.sharedLocks := AList.lookup_isSome.mp (by rw [hlookup]; rfl)
  have hpred := toNat_sub_one ((toNat_pos_iff n).mp (hn ▸ h.positive t hmem))
  split at hm'
  · rename_i hone
    cases hm'
    refine h.of_drops_shared rfl rfl (fun u hu => AList.lookup_erase_ne hu) ?_ fun ht => ?_
    · rw [hn, hone, held, AList.lookup_erase]
      rfl
    · exact absurd rfl (AList.mem_erase.mp ht).1
  · rename_i hone
    cases hm'
    have hheld : held { m with sharedLocks := m.sharedLocks.insert t (n - 1) } .shared t =
        (n - 1).toNat := by
      rw [held, AList.lookup_insert]
      rfl
    refine h.of_drops_shared rfl rfl (fun u hu => AList.lookup_insert_ne hu) ?_ fun _ => ?_
    · rw [hheld, hpred, hn]
    · rw [hheld, toNat_pos_iff]
      intro hzero
      rw [hzero] at hpred
      exact hone (UInt64.toNat_inj.mp hpred.symm)

theorem Sound.release (h : m.Sound) (hm' : m.release t kind = some m') :
    m'.Sound ∧ m.Drops kind t m' := by
  cases kind with
  | exclusive =>
      rw [SharedRecursiveMutex.release, decrementExclusiveLock_eq] at hm'
      split at hm'
      · cases hm'
        exact h.decrementExclusiveLock ‹_›
      · cases hm'
  | shared => exact h.decrementSharedLock hm'

/-- A release throws where the thread does not hold the mutex. -/
theorem Sound.release_eq_none (hm : m.Sound) (h : ¬0 < m.held kind t) :
    m.release t kind = none := by
  cases kind with
  | exclusive => rw [SharedRecursiveMutex.release, decrementExclusiveLock_eq, if_neg h]
  | shared =>
      rw [hm.held_shared_pos_iff, ← AList.lookup_eq_none] at h
      rw [SharedRecursiveMutex.release, SharedRecursiveMutex.decrementSharedLock, h]
      split <;> rfl

end

end SharedRecursiveMutex

namespace MutexThreads

variable {θ : Type} [DecidableEq θ]

/-- The thread has acquired the mutex more often than it has released it. -/
def Holds (s : MutexThreads θ) (kind : LockKind) (t : θ) : Prop :=
  s.releases kind t < s.acquisitions kind t

/-- No thread that acquires the mutex holds it `2 ^ 64 - 1` times. -/
def Fits (s : MutexThreads θ) : MutexCall θ → Prop
  | .lock kind t | .tryLock kind t =>
      s.acquisitions kind t - s.releases kind t + 1 < 2 ^ 64
  | .retry t => ∀ kind, s.thread t = .woken kind →
      s.acquisitions kind t - s.releases kind t + 1 < 2 ^ 64
  | _ => True

structure Correct (s : MutexThreads θ) : Prop where
  excludes : ∀ t u kind, s.Holds .exclusive t → s.Holds kind u → u = t
  exclusiveCount : ∀ t, s.Holds .exclusive t →
    s.mutex.exclusiveCount.toNat + s.releases .exclusive t = s.acquisitions .exclusive t
  free : (∀ t, ¬s.Holds .exclusive t) → s.mutex.exclusiveCount = 0
  sharedLocks : ∀ t n, s.mutex.sharedLocks.lookup t = some n ↔ s.Holds .shared t ∧
    n.toNat + s.releases .shared t = s.acquisitions .shared t
  /-- Whoever could lock and is blocked will be woken by a thread that is going to notify. -/
  wakes : ∀ t kind, s.thread t = .blocked kind → s.mutex.waitCondition t kind = true →
    ∃ u s', s.thread u = .notifying ∧ s.step (.notifyAll u) = some (s', .done) ∧
      s'.thread t = .woken kind

/-- What is true of every step. -/
def Proceeds (s : MutexThreads θ) (call : MutexCall θ) (s' : MutexThreads θ) : Prop :=
  s'.Correct ∧ ∀ kind t, call = .unlock kind t → ¬s.Holds kind t → s.step call = some (s, .threw)

structure Sound (s : MutexThreads θ) : Prop where
  mutex : s.mutex.Sound
  counted : ∀ kind t, s.mutex.held kind t + s.releases kind t = s.acquisitions kind t
  notified : ∀ t kind, s.thread t = .blocked kind → s.mutex.waitCondition t kind = true →
    ∃ u, s.thread u = .notifying

section

variable {s : MutexThreads θ} {t : θ} {kind : LockKind} {m' : SharedRecursiveMutex θ}

theorem sound_empty : ({} : MutexThreads θ).Sound where
  mutex := SharedRecursiveMutex.sound_empty
  counted kind t := by cases kind <;> rfl
  notified _ _ h := by cases h

theorem Sound.holds_iff (h : s.Sound) : s.Holds kind t ↔ 0 < s.mutex.held kind t := by
  have hcounted := h.counted kind t
  rw [Holds]
  omega

theorem Sound.correct (h : s.Sound) : s.Correct where
  excludes t u kind ht hu := h.mutex.excludes t u kind (h.holds_iff.mp ht) (h.holds_iff.mp hu)
  exclusiveCount t ht := by
    have hid := (SharedRecursiveMutex.held_exclusive_pos_iff.mp (h.holds_iff.mp ht)).1
    rw [← h.counted, SharedRecursiveMutex.held, if_pos hid]
  free hnone := by
    by_contra hcount
    obtain ⟨t, ht⟩ := h.mutex.owned hcount
    exact hnone t (h.holds_iff.mpr (SharedRecursiveMutex.held_exclusive_pos_iff.mpr ⟨ht, hcount⟩))
  sharedLocks t n := by
    have hcounted := h.counted .shared t
    rw [h.holds_iff, h.mutex.held_shared_pos_iff, ← AList.lookup_isSome, ← hcounted,
      SharedRecursiveMutex.held]
    cases hlookup : s.mutex.sharedLocks.lookup t with
    | none => simp
    | some m => simp [UInt64.toNat_inj, eq_comm]
  wakes t kind hblocked hcan := by
    obtain ⟨u, hu⟩ := h.notified t kind hblocked hcan
    have hne : t ≠ u := by
      rintro rfl
      rw [hblocked] at hu
      cases hu
    refine ⟨u, _, hu, if_pos hu, ?_⟩
    change Function.update (fun t => awaken (s.thread t)) u .running t = _
    rw [Function.update_of_ne hne, hblocked, awaken]

/-- A thread that is not going to notify changes its state. -/
theorem Sound.notified_update (h : s.Sound) {state : ThreadState} (ht : s.thread t ≠ .notifying)
    (hmutex : ∀ u k, u ≠ t → m'.waitCondition u k = true → s.mutex.waitCondition u k = true)
    (hblocked : ∀ k, state = .blocked k → ¬m'.waitCondition t k = true) (u : θ) (k : LockKind)
    (hu : Function.update s.thread t state u = .blocked k) (hcan : m'.waitCondition u k = true) :
    ∃ v, Function.update s.thread t state v = .notifying := by
  by_cases hut : u = t
  · rw [hut] at hu hcan
    rw [Function.update_self] at hu
    exact absurd hcan (hblocked k hu)
  · rw [Function.update_of_ne hut] at hu
    obtain ⟨v, hv⟩ := h.notified u k hu (hmutex u k hut hcan)
    refine ⟨v, ?_⟩
    rw [Function.update_of_ne, hv]
    rintro rfl
    exact ht hv

theorem Sound.acquired (h : s.Sound) (ht : s.thread t ≠ .notifying) (hm' : m'.Sound)
    (hadds : s.mutex.Adds kind t m') : (s.acquired kind t m').Sound where
  mutex := hm'
  counted k u := by
    change m'.held k u + s.releases k u = if k = kind ∧ u = t then _ else _
    rw [hadds, ← h.counted]
    split <;> omega
  notified := by
    refine h.notified_update ht (fun u k _ hcan => ?_) fun k hk => by cases hk
    change m'.waitCondition u k = true at hcan
    rw [hm'.waitCondition_iff] at hcan
    rw [h.mutex.waitCondition_iff]
    intro k' v hk' hv
    refine hcan k' v hk' ?_
    rw [hadds]
    split <;> omega

theorem Sound.released (h : s.Sound) (hm' : m'.Sound) (hdrops : s.mutex.Drops kind t m') :
    (s.released kind t m').Sound where
  mutex := hm'
  counted k u := by
    have hcounted := h.counted k u
    rw [hdrops k u] at hcounted
    change m'.held k u + (if k = kind ∧ u = t then _ else _) = s.acquisitions k u
    split at hcounted
    · rw [if_pos ‹_›]
      omega
    · rw [if_neg ‹_›, hcounted]
  notified _ _ _ _ := ⟨t, Function.update_self ..⟩

theorem Sound.ask (h : s.Sound) (ht : s.thread t ≠ .notifying)
    (hfits : s.acquisitions kind t - s.releases kind t + 1 < 2 ^ 64) : (s.ask kind t).1.Sound := by
  have hcounted := h.counted kind t
  rw [MutexThreads.ask]
  cases hacquire : s.mutex.acquire t kind with
  | some m' =>
      obtain ⟨hm', hadds⟩ := h.mutex.acquire (by omega) hacquire
      exact h.acquired ht hm' hadds
  | none =>
      refine ⟨h.mutex, h.counted, h.notified_update ht (fun _ _ _ hcan => hcan) fun k hk => ?_⟩
      cases hk
      exact SharedRecursiveMutex.waitCondition_of_acquire hacquire

theorem Sound.notifyAll (h : s.Sound) (t : θ) :
    Sound { s with thread := Function.update (fun u => awaken (s.thread u)) t .running } where
  mutex := h.mutex
  counted := h.counted
  notified u k hu _ := by
    change Function.update (fun u => awaken (s.thread u)) t .running u = _ at hu
    by_cases hut : u = t
    · rw [hut, Function.update_self] at hu
      cases hu
    · rw [Function.update_of_ne hut] at hu
      cases hstate : s.thread u with
      | running | blocked _ | woken _ | notifying =>
          rw [hstate] at hu
          cases hu

theorem ne_notifying {θ : Type} {s : MutexThreads θ} {t : θ} {state : ThreadState} (ht : s.thread t = state)
    (hstate : state ≠ .notifying) : s.thread t ≠ .notifying := by
  rw [ht]
  exact hstate

theorem Sound.step (h : s.Sound) {call : MutexCall θ} {r : MutexThreads θ × MutexAnswer}
    (hfits : s.Fits call) (hstep : s.step call = some r) : r.1.Sound := by
  cases call with
  | lock kind t =>
      obtain ⟨ht, hr⟩ := Option.ite_none_right_eq_some.mp hstep
      cases hr
      exact h.ask (ne_notifying ht (by decide)) hfits
  | tryLock kind t =>
      obtain ⟨ht, hr⟩ := Option.ite_none_right_eq_some.mp hstep
      cases hacquire : s.mutex.tryAcquire t kind with
      | some m' =>
          rw [hacquire] at hr
          cases hr
          have hcounted := h.counted kind t
          obtain ⟨hm', hadds⟩ := h.mutex.tryAcquire (by dsimp only [Fits] at hfits; omega) hacquire
          exact h.acquired (ne_notifying ht (by decide)) hm' hadds
      | none =>
          rw [hacquire] at hr
          cases hr
          exact h
  | unlock kind t =>
      obtain ⟨ht, hr⟩ := Option.ite_none_right_eq_some.mp hstep
      cases hrelease : s.mutex.release t kind with
      | some m' =>
          rw [hrelease] at hr
          cases hr
          obtain ⟨hm', hdrops⟩ := h.mutex.release hrelease
          exact h.released hm' hdrops
      | none =>
          rw [hrelease] at hr
          cases hr
          exact h
  | wake t =>
      rw [MutexThreads.step] at hstep
      split at hstep
      · rename_i k ht
        cases hstep
        refine ⟨h.mutex, h.counted, h.notified_update (ne_notifying ht (by simp))
          (fun _ _ _ hcan => hcan) fun k hk => by cases hk⟩
      · cases hstep
  | retry t =>
      rw [MutexThreads.step] at hstep
      split at hstep
      · rename_i k ht
        cases hstep
        exact h.ask (ne_notifying ht (by simp)) (hfits k ht)
      · cases hstep
  | notifyAll t =>
      obtain ⟨ht, hr⟩ := Option.ite_none_right_eq_some.mp hstep
      cases hr
      exact h.notifyAll t

/-- A thread that runs and does not hold the mutex gets an exception for its unlock. -/
theorem Sound.unlock_threw (h : s.Sound) {r : MutexThreads θ × MutexAnswer}
    (hstep : s.step (.unlock kind t) = some r) (hnot : ¬s.Holds kind t) :
    r = (s, .threw) := by
  obtain ⟨ht, hr⟩ := Option.ite_none_right_eq_some.mp hstep
  rw [h.holds_iff] at hnot
  rw [h.mutex.release_eq_none hnot] at hr
  cases hr
  rfl

/-- As long as the counts fit, the mutex excludes, counts and wakes in every run. -/
theorem correct_of_fits {θ : Type} [DecidableEq θ] {calls : List (MutexCall θ)}
    (h : Steps.Along step Fits ({} : MutexThreads θ) calls) :
    Steps.Throughout step Proceeds ({} : MutexThreads θ) calls := by
  refine h.throughout (fun s call r hs hfits hr => ?_) sound_empty
  have hsound := hs.step hfits hr
  refine ⟨⟨hsound.correct, fun kind t hcall hnot => ?_⟩, hsound⟩
  subst hcall
  rw [hr, hs.unlock_threw hr hnot]

/-- A reader, a writer that waits for it and is woken, and an unlock that throws. -/
theorem correct_handover :
    (Steps.run step ({} : MutexThreads Bool) [.lock .shared true, .lock .exclusive false,
      .unlock .exclusive true, .unlock .shared true, .notifyAll true, .retry false]).map (·.2) =
        some [.acquired, .blocked, .threw, .released, .done, .acquired] ∧
    Steps.Throughout step Proceeds ({} : MutexThreads Bool) [.lock .shared true,
      .lock .exclusive false, .unlock .exclusive true, .unlock .shared true, .notifyAll true,
      .retry false] := by
  have hone : 0 - 0 + 1 < 2 ^ 64 := by decide
  refine ⟨by decide, correct_of_fits ?_⟩
  refine ⟨hone, fun r hr => ?_⟩
  cases hr
  refine ⟨hone, fun r hr => ?_⟩
  cases hr
  refine ⟨trivial, fun r hr => ?_⟩
  cases hr
  refine ⟨trivial, fun r hr => ?_⟩
  cases hr
  refine ⟨trivial, fun r hr => ?_⟩
  cases hr
  refine ⟨fun kind hwoken => ?_, fun _ _ => trivial⟩
  cases hwoken
  exact hone

/-! ## A thread that locks too often -/

/-- One thread, after `n` times `lock`. -/
def locked (n : ℕ) : MutexThreads Unit where
  mutex := { exclusiveThreadId := if n = 0 then none else some ()
             exclusiveCount := UInt64.ofNat n }
  acquisitions := fun kind _ => if kind = .exclusive then n else 0

theorem acquire_locked {n : ℕ} (hn : n < 2 ^ 64) :
    (locked n).mutex.acquire () .exclusive = some (locked (n + 1)).mutex := by
  by_cases hzero : n = 0
  · rw [hzero]
    rfl
  · have hid : (locked n).mutex.exclusiveThreadId = some () := if_neg hzero
    have hcount : (locked n).mutex.exclusiveCount ≠ 0 := by
      rw [← SharedRecursiveMutex.toNat_pos_iff]
      change 0 < (UInt64.ofNat n).toNat
      rw [UInt64.toNat_ofNat_of_lt' hn]
      exact Nat.pos_of_ne_zero hzero
    have hown : (locked n).mutex.isExclusiveLockedOnThread () = true :=
      SharedRecursiveMutex.isExclusiveLockedOnThread_iff.mpr
        (SharedRecursiveMutex.held_exclusive_pos_iff.mpr ⟨hid, hcount⟩)
    have hcan : (locked n).mutex.canExclusivelyLock () = true := by
      rw [SharedRecursiveMutex.canExclusivelyLock, SharedRecursiveMutex.canIncrementExclusiveLock,
        hown, Bool.or_true]
    rw [SharedRecursiveMutex.acquire, if_pos hcan, SharedRecursiveMutex.acquireExclusive,
      if_pos hown]
    change some { (locked n).mutex with exclusiveCount := UInt64.ofNat n + 1 } = _
    rw [locked, locked, if_neg hzero, if_neg (Nat.succ_ne_zero n), UInt64.ofNat_add]
    rfl

theorem step_locked {n : ℕ} (hn : n < 2 ^ 64) :
    (locked n).step (.lock .exclusive ()) = some (locked (n + 1), .acquired) := by
  have hrunning : (locked n).thread () = .running := rfl
  rw [step, if_pos hrunning, ask, acquire_locked hn]
  refine congrArg some (Prod.ext ?_ rfl)
  simp only [acquired, locked, Function.update_eq_self, and_true, MutexThreads.mk.injEq, true_and]
  funext kind _
  cases kind with
  | exclusive | shared => rfl

theorem run_locked (n m : ℕ) (hnm : n + m ≤ 2 ^ 64) :
    ∃ os, Steps.run step (locked n) (List.replicate m (.lock .exclusive ())) =
      some (locked (n + m), os) := by
  induction m generalizing n with
  | zero => exact ⟨[], rfl⟩
  | succ m ih =>
      obtain ⟨os, hrun⟩ := ih (n + 1) (by omega)
      rw [List.replicate_succ]
      refine ⟨.acquired :: os, ?_⟩
      rw [Steps.run_cons (step_locked (by omega)), hrun, Option.map_some, Nat.add_assoc,
        Nat.add_comm 1 m]

/-- The count of the holding thread is zero again after `2 ^ 64` times `lock`. -/
theorem not_correct_of_many :
    ¬ ∀ calls : List (MutexCall Unit),
      Steps.Throughout step Proceeds ({} : MutexThreads Unit) calls := by
  intro h
  obtain ⟨n, hn⟩ : ∃ n, n + 1 = 2 ^ 64 := ⟨2 ^ 64 - 1, rfl⟩
  obtain ⟨os, hrun⟩ := run_locked 0 n (by omega)
  rw [Nat.zero_add] at hrun
  have hempty : ({} : MutexThreads Unit) = locked 0 := by simp [locked]
  have hproceeds := (h (List.replicate n (.lock .exclusive ()) ++ [.lock .exclusive ()])).last
    (by rw [hempty, hrun]) (step_locked (n := n) (by omega))
  have hcount := hproceeds.1.exclusiveCount () (Nat.succ_pos n)
  change (UInt64.ofNat (n + 1)).toNat + 0 = n + 1 at hcount
  rw [UInt64.toNat_ofNat', hn, Nat.mod_self] at hcount
  cases hcount

end

end MutexThreads

end SRCommon
