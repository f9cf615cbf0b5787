import SRCommon.Lib.PartialRun
import SRCommon.Resources.FileWatcher

/-!
# Runs of the watchers

A watcher that has found a change waits in the list of dirty watchers until it
is signalled. Its hash is that of the contents that it has looked at last.
-/

namespace SRCommon

section

variable {γ : Type}

/-- How often the contents changed from one look to the next. -/
def changes [DecidableEq γ] : List γ → ℕ
  | c :: d :: seen => (if c = d then 0 else 1) + changes (d :: seen)
  | _ => 0

theorem changes_cons [DecidableEq γ] (c d : γ) (seen : List γ) :
    changes (c :: d :: seen) = (if c = d then 0 else 1) + changes (d :: seen) := rfl

/-- The watcher is examined again; it is going to be signalled once if it is dirty; and it has called
back once for every other change. -/
structure WatcherKept [DecidableEq γ] (watchers dirtyWatchers : List ℕ) (pWatcher : ℕ) (this : FileWatcher)
    (seen : List γ) (callBacks : ℕ) : Prop where
  watched : this.isActive → pWatcher ∈ watchers
  queued : this.isActive → this.isDirty → dirtyWatchers.count pWatcher = 1
  counted : callBacks + (if this.isDirty then 1 else 0) = changes seen

/-- The watcher knows what it has looked at last. -/
structure WatcherLooked (fileHash : γ → UInt64) (clock : WriteClock γ) (this : FileWatcher)
    (seen : List γ) : Prop where
  fresh : this.isInit = false → seen = [] ∧ this.isDirty = false ∧ this.lastWriteTime = 0
  looked : this.isInit → ∃ c rest, seen = c :: rest ∧ this.hash = fileHash c
  dated : this.lastWriteTime ≠ 0 → ∃ c rest time, seen = c :: rest ∧
    this.lastWriteTime = time.toUInt64 ∧ clock.Allows this.path ⟨c, time⟩

structure WatcherSound [DecidableEq γ] (fileHash : γ → UInt64) (clock : WriteClock γ)
    (watchers dirtyWatchers : List ℕ) (pWatcher : ℕ) (this : FileWatcher) (seen : List γ)
    (callBacks : ℕ) : Prop extends
    WatcherKept watchers dirtyWatchers pWatcher this seen callBacks,
    WatcherLooked fileHash clock this seen where
  clean : this.isActive → this.isDirty = false → pWatcher ∉ dirtyWatchers

variable {fileHash : γ → UInt64} {clock : WriteClock γ} {this : FileWatcher} {seen : List γ}
  {file : WatchedFile γ}

theorem toUInt64_inj {a b : UInt32} (h : a.toUInt64 = b.toUInt64) : a = b := by
  apply UInt32.toNat_inj.mp
  rw [← UInt32.toNat_toUInt64, h, UInt32.toNat_toUInt64]

/-- A file that has the write time of the last look has its contents. -/
theorem WatcherLooked.content_eq (h : WatcherLooked fileHash clock this seen)
    (hfile : clock.Allows this.path file) (htime : this.lastWriteTime = file.lastWriteTime.toUInt64)
    (hne : this.lastWriteTime ≠ 0) : ∃ rest, seen = file.content :: rest := by
  obtain ⟨c, rest, time, rfl, hlast, hc⟩ := h.dated hne
  obtain rfl := toUInt64_inj (hlast.symm.trans htime)
  cases clock with
  | telling contentAt =>
      have hcontent : c = file.content := Eq.trans hc (Eq.symm hfile)
      exact ⟨rest, by rw [hcontent]⟩
  | zero =>
      have hzero : file.lastWriteTime = 0 := hfile
      rw [hzero] at hlast
      exact absurd hlast hne

theorem Watching.watcher_modify_self (s : Watching γ) (pWatcher : ℕ)
    (f : FileWatcher → FileWatcher) :
    (s.modify pWatcher f).watcher pWatcher = f (s.watcher pWatcher) := Function.update_self ..

theorem Watching.watcher_modify_ne (s : Watching γ) {pWatcher other : ℕ} (h : other ≠ pWatcher)
    (f : FileWatcher → FileWatcher) :
    (s.modify pWatcher f).watcher other = s.watcher other := Function.update_of_ne h ..

theorem Watching.seen_look_self (s : Watching γ) (pWatcher : ℕ) :
    (s.look pWatcher).seen pWatcher = (s.fileOf pWatcher).content :: s.seen pWatcher :=
  Function.update_self ..

theorem Watching.seen_look_ne (s : Watching γ) {pWatcher other : ℕ} (h : other ≠ pWatcher) :
    (s.look pWatcher).seen other = s.seen other := Function.update_of_ne h ..

namespace Watching

/-! ## Deliveries -/

/-- The watcher is signalled when its turn comes. -/
def delivers (this : FileWatcher) : Bool := this.isActive && !this.isPaused

theorem deliver_eq (s : Watching γ) (pWatcher : ℕ) :
    s.deliver pWatcher = if delivers (s.watcher pWatcher) then s.signal pWatcher else s := by
  rw [deliver, delivers]
  cases (s.watcher pWatcher).isActive <;> cases (s.watcher pWatcher).isPaused <;> rfl

theorem signal_eq (s : Watching γ) (pWatcher : ℕ) :
    s.signal pWatcher =
      { s with
        watcher := Function.update s.watcher pWatcher
          { s.watcher pWatcher with isDirty := false }
        callBacks := Function.update s.callBacks pWatcher
          (s.callBacks pWatcher + if (s.watcher pWatcher).isDirty then 1 else 0) } := by
  rw [signal]
  cases hdirty : (s.watcher pWatcher).isDirty with
  | true => rfl
  | false =>
      have hwatcher : { s.watcher pWatcher with isDirty := false } = s.watcher pWatcher := by
        rw [← hdirty]
      rw [hwatcher, Function.update_eq_self]
      simp

/-- What a round of deliveries does to a watcher, and what it leaves alone. -/
structure Delivered (s s' : Watching γ) (queue : List ℕ) : Prop where
  frame : s' = { s with watcher := s'.watcher, callBacks := s'.callBacks }
  watcher : ∀ pWatcher, s'.watcher pWatcher =
    if pWatcher ∈ queue ∧ delivers (s.watcher pWatcher) then
      { s.watcher pWatcher with isDirty := false }
    else s.watcher pWatcher
  callBacks : ∀ pWatcher, s'.callBacks pWatcher = s.callBacks pWatcher +
    if pWatcher ∈ queue ∧ delivers (s.watcher pWatcher) ∧ (s.watcher pWatcher).isDirty then 1 else 0

theorem delivered_deliver (s : Watching γ) (pWatcher : ℕ) :
    Delivered s (s.deliver pWatcher) [pWatcher] := by
  rw [deliver_eq]
  split
  case isTrue hdelivers =>
    rw [signal_eq]
    refine ⟨rfl, fun other => ?_, fun other => ?_⟩
    · by_cases hne : other = pWatcher
      · subst hne
        simp [hdelivers]
      · simp [hne]
    · by_cases hne : other = pWatcher
      · subst hne
        simp [hdelivers]
      · simp [hne]
  case isFalse hdelivers =>
    refine ⟨rfl, fun other => ?_, fun other => ?_⟩
    · rw [if_neg]
      rintro ⟨hmem, hother⟩
      rw [List.mem_singleton.mp hmem] at hother
      exact hdelivers hother
    · rw [if_neg, Nat.add_zero]
      rintro ⟨hmem, hother, -⟩
      rw [List.mem_singleton.mp hmem] at hother
      exact hdelivers hother

theorem delivered_foldl (queue : List ℕ) (s : Watching γ) :
    Delivered s (queue.foldl deliver s) queue := by
  induction queue generalizing s with
  | nil =>
      refine ⟨rfl, fun other => ?_, fun other => ?_⟩
      · simp
      · simp
  | cons pWatcher queue ih =>
      have hfirst := delivered_deliver s pWatcher
      have hrest := ih (s.deliver pWatcher)
      -- a watcher goes on to be signalled after it has been signalled
      have hdelivers (other : ℕ) :
          delivers ((s.deliver pWatcher).watcher other) = delivers (s.watcher other) := by
        rw [hfirst.watcher]
        split <;> rfl
      rw [List.foldl_cons]
      refine ⟨?_, fun other => ?_, fun other => ?_⟩
      · rw [hrest.frame, hfirst.frame]
      · rw [hrest.watcher, hdelivers, hfirst.watcher]
        cases hother : delivers (s.watcher other) <;> by_cases hne : other = pWatcher <;>
          by_cases hmem : other ∈ queue <;> simp [hne, hmem]
      · rw [hrest.callBacks, hdelivers, hfirst.callBacks, hfirst.watcher]
        cases hother : delivers (s.watcher other) <;> by_cases hne : other = pWatcher <;>
          by_cases hmem : other ∈ queue <;> simp [hne, hmem]

end Watching

/-! ## Looks -/

variable [DecidableEq γ]

/-- What the comparison finds and keeps. -/
theorem compare_eq (hinj : Function.Injective fileHash) {c : γ} (this : FileWatcher)
    (hhash : this.hash = fileHash c) (hdirty : this.isDirty = false) (file : WatchedFile γ) :
    this.compare fileHash file =
      ({ this with isDirty := decide (c ≠ file.content), hash := fileHash file.content },
        decide (c ≠ file.content)) := by
  rw [FileWatcher.compare, hhash]
  by_cases hc : c = file.content
  · subst hc
    rw [if_neg (not_not.mpr rfl)]
    simp [← hdirty, ← hhash]
  · rw [if_pos (fun heq => hc (hinj heq))]
    simp [hc]

/-- What an update finds and keeps. -/
theorem WatcherLooked.update (hinj : Function.Injective fileHash)
    (h : WatcherLooked fileHash clock this seen) (hdirty : this.isDirty = false)
    (hfile : clock.Allows this.path file) :
    WatcherLooked fileHash clock (this.update fileHash file).1 (file.content :: seen) ∧
      (this.update fileHash file).1.isActive = this.isActive ∧
      (this.update fileHash file).1.isDirty = (this.update fileHash file).2 ∧
      changes (file.content :: seen) =
        (if (this.update fileHash file).2 then 1 else 0) + changes seen := by
  cases hinit : this.isInit with
  | false =>
      obtain ⟨rfl, -, hzero⟩ := h.fresh hinit
      rw [FileWatcher.update, if_pos (by rw [hinit]; rfl)]
      refine ⟨⟨fun hfalse => ?_, fun _ => ⟨_, _, rfl, rfl⟩, fun hne => absurd hzero hne⟩, rfl,
        hdirty, rfl⟩
      exact Bool.noConfusion (show true = false from hfalse)
  | true =>
      obtain ⟨c, rest, rfl, hhash⟩ := h.looked hinit
      have hchanges : changes (file.content :: c :: rest) =
          (if decide (c ≠ file.content) then 1 else 0) + changes (c :: rest) := by
        rw [changes_cons]
        by_cases hc : c = file.content
        · simp [hc]
        · simp [hc, Ne.symm hc]
      rw [FileWatcher.update, if_neg (by rw [hinit]; decide)]
      dsimp only
      split
      case isTrue htime =>
        rw [compare_eq hinj { this with lastWriteTime := file.lastWriteTime.toUInt64 } hhash hdirty]
        exact ⟨⟨fun hfalse => absurd (hinit.symm.trans hfalse) (by decide),
          fun _ => ⟨_, _, rfl, rfl⟩, fun _ => ⟨_, _, file.lastWriteTime, rfl, rfl, hfile⟩⟩,
          rfl, rfl, hchanges⟩
      case isFalse htime =>
        rw [not_not] at htime
        split
        case isTrue hzero =>
          rw [compare_eq hinj this hhash hdirty]
          exact ⟨⟨fun hfalse => absurd (hinit.symm.trans hfalse) (by decide),
            fun _ => ⟨_, _, rfl, rfl⟩, fun hne => absurd hzero hne⟩, rfl, rfl, hchanges⟩
        case isFalse hne =>
          obtain ⟨rest', hrest⟩ := h.content_eq hfile htime hne
          obtain ⟨rfl, -⟩ := List.cons.inj hrest
          refine ⟨⟨fun hfalse => absurd (hinit.symm.trans hfalse) (by decide),
            fun _ => ⟨_, _, rfl, hhash⟩, fun _ => ⟨_, _, file.lastWriteTime, rfl, htime, hfile⟩⟩,
            rfl, hdirty, ?_⟩
          simpa using hchanges

/-! ## What is kept of each watcher -/

namespace Watching

variable (fileHash clock)

/-- What the watcher has to do with the state. -/
def SoundAt (s : Watching γ) (pWatcher : ℕ) : Prop :=
  WatcherSound fileHash clock s.watchers s.dirtyWatchers pWatcher (s.watcher pWatcher)
    (s.seen pWatcher) (s.callBacks pWatcher)

structure Sound (s : Watching γ) : Prop where
  allowed : ∀ path, clock.Allows path (s.file path)
  sound : ∀ pWatcher < s.size, s.SoundAt fileHash clock pWatcher
  known : ∀ pWatcher ∈ s.watchers ++ s.dirtyWatchers, pWatcher < s.size
  unused : ∀ pWatcher ≥ s.size, s.seen pWatcher = [] ∧ s.callBacks pWatcher = 0

variable {fileHash clock} {s : Watching γ} {pWatcher : ℕ}

/-- What a watcher has to do with the state may be carried over. -/
theorem SoundAt.frame {s' : Watching γ} (h : s.SoundAt fileHash clock pWatcher)
    (hwatcher : s'.watcher pWatcher = s.watcher pWatcher)
    (hseen : s'.seen pWatcher = s.seen pWatcher)
    (hcallBacks : s'.callBacks pWatcher = s.callBacks pWatcher)
    (hwatched : pWatcher ∈ s.watchers → pWatcher ∈ s'.watchers)
    (hcount : s'.dirtyWatchers.count pWatcher = s.dirtyWatchers.count pWatcher) :
    s'.SoundAt fileHash clock pWatcher := by
  rw [SoundAt, hwatcher, hseen, hcallBacks]
  refine ⟨⟨fun hactive => hwatched (h.watched hactive), fun hactive hdirty => ?_, h.counted⟩,
    h.toWatcherLooked, fun hactive hdirty => ?_⟩
  · rw [hcount]
    exact h.queued hactive hdirty
  · rw [← List.count_eq_zero, hcount, List.count_eq_zero]
    exact h.clean hactive hdirty

/-- A change of one watcher. -/
theorem Sound.modify (h : s.Sound fileHash clock) {f : FileWatcher → FileWatcher}
    (hf : s.SoundAt fileHash clock pWatcher →
      (s.modify pWatcher f).SoundAt fileHash clock pWatcher) :
    (s.modify pWatcher f).Sound fileHash clock where
  allowed := h.allowed
  sound other hother := by
    by_cases hne : other = pWatcher
    · subst hne
      exact hf (h.sound other hother)
    · exact (h.sound other hother).frame (s.watcher_modify_ne hne f) rfl rfl id rfl
  known := h.known
  unused := h.unused

theorem Sound.pause (h : s.Sound fileHash clock) (isPaused : Bool) :
    (s.modify pWatcher fun this => { this with isPaused }).Sound fileHash clock := by
  refine h.modify fun hsound => ?_
  rw [SoundAt, watcher_modify_self]
  exact ⟨⟨hsound.watched, hsound.queued, hsound.counted⟩,
    ⟨hsound.fresh, hsound.looked, hsound.dated⟩, hsound.clean⟩

theorem Sound.stop (h : s.Sound fileHash clock) :
    (s.modify pWatcher fun this => { this with isActive := false }).Sound fileHash clock := by
  refine h.modify fun hsound => ?_
  rw [SoundAt, watcher_modify_self]
  exact ⟨⟨fun hactive => Bool.noConfusion hactive, fun hactive => Bool.noConfusion hactive,
    hsound.counted⟩, ⟨hsound.fresh, hsound.looked, hsound.dated⟩,
    fun hactive => Bool.noConfusion hactive⟩

theorem Sound.write (h : s.Sound fileHash clock) {path : Text} (hfile : clock.Allows path file) :
    ({ s with file := Function.update s.file path file } : Watching γ).Sound fileHash clock where
  allowed other := by
    change clock.Allows other (Function.update s.file path file other)
    by_cases hne : other = path
    · subst hne
      rwa [Function.update_self]
    · rw [Function.update_of_ne hne]
      exact h.allowed other
  sound := h.sound
  known := h.known
  unused := h.unused

theorem Sound.startWatch (h : s.Sound fileHash clock) (path : Text) :
    (s.startWatch path).Sound fileHash clock where
  allowed := h.allowed
  sound other hother := by
    obtain hlt | rfl := Nat.lt_succ_iff_lt_or_eq.mp hother
    · exact (h.sound other hlt).frame (Function.update_of_ne (Nat.ne_of_lt hlt) ..) rfl rfl
        (List.mem_append_left _) rfl
    · obtain ⟨hseen, hcallBacks⟩ := h.unused s.size (Nat.le_refl _)
      have hwatcher : (s.startWatch path).watcher s.size = { path } := Function.update_self ..
      have hnew : s.size ∉ s.dirtyWatchers := fun hmem =>
        Nat.lt_irrefl _ (h.known _ (List.mem_append_right _ hmem))
      rw [SoundAt, hwatcher, show (s.startWatch path).seen s.size = [] from hseen,
        show (s.startWatch path).callBacks s.size = 0 from hcallBacks]
      exact ⟨⟨fun _ => List.mem_append_right _ (List.mem_singleton_self _),
        fun _ hdirty => Bool.noConfusion hdirty, rfl⟩,
        ⟨fun _ => ⟨rfl, rfl, rfl⟩, fun hinit => Bool.noConfusion hinit, fun hne => absurd rfl hne⟩,
        fun _ _ => hnew⟩
  known other hother := by
    rw [List.mem_append] at hother
    obtain hmem | hmem := hother
    · obtain hmem | hmem := List.mem_append.mp hmem
      · exact Nat.lt_succ_of_lt (h.known other (List.mem_append_left _ hmem))
      · exact Nat.lt_succ_of_le (Nat.le_of_eq (List.mem_singleton.mp hmem))
    · exact Nat.lt_succ_of_lt (h.known other (List.mem_append_right _ hmem))
  unused other hother := h.unused other (Nat.le_of_succ_le hother)

/-- The ones that are not there have looked at nothing. -/
theorem Sound.unused_look (h : s.Sound fileHash clock) (hsize : pWatcher < s.size) {other : ℕ}
    (hother : s.size ≤ other) : (s.look pWatcher).seen other = [] ∧ s.callBacks other = 0 := by
  rw [s.seen_look_ne (by omega)]
  exact h.unused other hother

theorem Sound.init (h : s.Sound fileHash clock) (hsize : pWatcher < s.size) :
    (s.initWatcher fileHash pWatcher).Sound fileHash clock := by
  have hsound := h.sound pWatcher hsize
  rw [initWatcher]
  cases hinit : (s.watcher pWatcher).isInit with
  | true =>
      have hwatcher : (s.watcher pWatcher).init fileHash (s.fileOf pWatcher) = s.watcher pWatcher :=
        if_neg (by rw [hinit]; decide)
      refine h.modify fun _ => ?_
      rw [SoundAt, watcher_modify_self]
      change WatcherSound fileHash clock s.watchers s.dirtyWatchers pWatcher
        ((s.watcher pWatcher).init fileHash (s.fileOf pWatcher)) _ _
      rw [hwatcher]
      exact hsound
  | false =>
      obtain ⟨hseen, hdirty, hzero⟩ := hsound.fresh hinit
      refine ⟨h.allowed, fun other hother => ?_, h.known,
        fun other hother => h.unused_look hsize hother⟩
      by_cases hne : other = pWatcher
      · subst hne
        have hwatcher : (s.watcher other).init fileHash (s.fileOf other) =
            { s.watcher other with hash := fileHash (s.fileOf other).content, isInit := true } :=
          if_pos (by rw [hinit]; rfl)
        have hcounted := hsound.counted
        rw [hseen] at hcounted
        change WatcherSound fileHash clock s.watchers s.dirtyWatchers other
          (((s.look other).modify other fun this => this.init fileHash (s.fileOf other)).watcher
            other) ((s.look other).seen other) (s.callBacks other)
        rw [watcher_modify_self, seen_look_self, hseen]
        change WatcherSound fileHash clock s.watchers s.dirtyWatchers other
          ((s.watcher other).init fileHash (s.fileOf other)) _ _
        rw [hwatcher]
        exact ⟨⟨hsound.watched, hsound.queued, hcounted⟩,
          ⟨fun hfalse => Bool.noConfusion hfalse, fun _ => ⟨_, _, rfl, rfl⟩,
            fun hne => absurd hzero hne⟩, hsound.clean⟩
      · exact (h.sound other hother).frame (watcher_modify_ne _ hne _) (s.seen_look_ne hne) rfl id
          rfl

/-- A watcher has been examined and goes to the end of the list. -/
theorem Sound.update (hinj : Function.Injective fileHash) (h : s.Sound fileHash clock)
    {watchers : List ℕ} (hwatchers : s.watchers = pWatcher :: watchers)
    (hdirty : (s.watcher pWatcher).isDirty = false) (hactive : (s.watcher pWatcher).isActive) :
    ({ (s.updateWatcher fileHash pWatcher).1 with
        watchers := watchers ++ [pWatcher]
        dirtyWatchers :=
          if (s.updateWatcher fileHash pWatcher).2 then s.dirtyWatchers ++ [pWatcher]
          else s.dirtyWatchers } : Watching γ).Sound fileHash clock := by
  have hsize : pWatcher < s.size := h.known pWatcher (by simp [hwatchers])
  have hsound := h.sound pWatcher hsize
  have hclean := hsound.clean hactive hdirty
  have hfile : clock.Allows (s.watcher pWatcher).path (s.fileOf pWatcher) := h.allowed _
  obtain ⟨hlooked, -, hdirty', hchanges⟩ := hsound.toWatcherLooked.update hinj hdirty hfile
  refine ⟨h.allowed, fun other hother => ?_, fun other hother => ?_,
    fun other hother => h.unused_look hsize hother⟩
  · by_cases hne : other = pWatcher
    · subst hne
      change WatcherSound fileHash clock (watchers ++ [other])
        (if (s.updateWatcher fileHash other).2 then s.dirtyWatchers ++ [other] else s.dirtyWatchers)
        other ((((s.look other).modify other fun _ => _)).watcher other) ((s.look other).seen other)
        (s.callBacks other)
      rw [watcher_modify_self, seen_look_self]
      have hcounted := hsound.counted
      rw [hdirty] at hcounted
      refine ⟨⟨fun _ => List.mem_append_right _ (List.mem_singleton_self _), fun _ hfound => ?_, ?_⟩,
        hlooked, fun _ hfound => ?_⟩
      · rw [hdirty'] at hfound
        rw [updateWatcher, if_pos hfound, List.count_append, List.count_eq_zero.mpr hclean,
          List.count_singleton_self]
      · rw [hdirty', hchanges, ← hcounted]
        exact Nat.add_comm ..
      · rw [hdirty'] at hfound
        rw [updateWatcher, if_neg (by rw [hfound]; decide)]
        exact hclean
    · have hwatcher : (s.updateWatcher fileHash pWatcher).1.watcher other = s.watcher other :=
        Function.update_of_ne hne ..
      refine (h.sound other hother).frame hwatcher (s.seen_look_ne hne) rfl (fun hmem => ?_) ?_
      · rw [hwatchers] at hmem
        exact List.mem_append_left _ ((List.mem_cons.mp hmem).resolve_left hne)
      · dsimp only
        split
        · rw [List.count_append, List.count_singleton, beq_false_of_ne (Ne.symm hne)]
          rfl
        · rfl
  · refine h.known other ?_
    rw [hwatchers, List.mem_append, List.mem_cons]
    simp only [List.mem_append, List.mem_singleton] at hother
    obtain (hmem | rfl) | hmem := hother
    · exact Or.inl (Or.inr hmem)
    · exact Or.inl (Or.inl rfl)
    · split at hmem
      · obtain hmem | hmem := List.mem_append.mp hmem
        · exact Or.inr hmem
        · exact Or.inl (Or.inl (List.mem_singleton.mp hmem))
      · exact Or.inr hmem

theorem Sound.asyncUpdateWatchers (hinj : Function.Injective fileHash)
    (h : s.Sound fileHash clock) (isWatchingEnabled : Bool) :
    (s.asyncUpdateWatchers fileHash isWatchingEnabled).Sound fileHash clock := by
  rw [Watching.asyncUpdateWatchers.eq_def]
  split
  · exact h
  case h_2 pWatcher watchers hwatchers =>
  split
  · exact h
  dsimp only
  split
  case isTrue hactive =>
    -- it is dropped
    refine ⟨h.allowed, fun other hother => ?_, fun other hother => h.known other ?_, h.unused⟩
    · have hsound := h.sound other hother
      refine ⟨⟨fun hother => ?_, hsound.queued, hsound.counted⟩, hsound.toWatcherLooked,
        hsound.clean⟩
      have hmem := hsound.watched hother
      rw [hwatchers, List.mem_cons] at hmem
      refine hmem.resolve_left ?_
      rintro rfl
      rw [hother] at hactive
      cases hactive
    · rw [hwatchers]
      exact List.mem_cons_of_mem _ hother
  case isFalse hactive =>
  rw [Bool.not_eq_true, Bool.not_eq_false'] at hactive
  split
  case isTrue hclean =>
    rw [Bool.and_eq_true, Bool.not_eq_true'] at hclean
    exact h.update hinj hwatchers hclean.1 hactive
  case isFalse =>
    -- it is left as it is, at the end of the list
    have hmem (other : ℕ) : other ∈ watchers ++ [pWatcher] ↔ other ∈ s.watchers := by
      rw [hwatchers, List.mem_append, List.mem_singleton, List.mem_cons, or_comm]
    refine ⟨h.allowed, fun other hother => ?_, fun other hother => h.known other ?_, h.unused⟩
    · exact (h.sound other hother).frame rfl rfl rfl (hmem other).mpr rfl
    · rw [List.mem_append] at hother ⊢
      exact hother.imp (hmem other).mp id

/-- No watcher that is to be signalled is paused. -/
def NonePaused (s : Watching γ) : Prop :=
  ∀ pWatcher ∈ s.dirtyWatchers, (s.watcher pWatcher).isActive → (s.watcher pWatcher).isPaused = false

theorem Sound.updateWatchers (h : s.Sound fileHash clock) (hpaused : s.NonePaused) :
    s.updateWatchers.Sound fileHash clock := by
  have hdelivered := delivered_foldl s.dirtyWatchers s
  rw [Watching.updateWatchers, hdelivered.frame]
  refine ⟨h.allowed, fun other hother => ?_, fun other hother => ?_, fun other hother => ?_⟩
  · have hsound := h.sound other hother
    change WatcherSound fileHash clock s.watchers [] other
      ((s.dirtyWatchers.foldl deliver s).watcher other) (s.seen other)
      ((s.dirtyWatchers.foldl deliver s).callBacks other)
    rw [hdelivered.watcher, hdelivered.callBacks]
    have hcounted := hsound.counted
    by_cases hin : other ∈ s.dirtyWatchers ∧ delivers (s.watcher other)
    · have hactive := (Bool.and_eq_true_iff.mp hin.2).1
      have hdirty : (s.watcher other).isDirty := by
        by_contra hclean
        exact hsound.clean hactive (Bool.eq_false_iff.mpr hclean) hin.1
      rw [if_pos hin, if_pos ⟨hin.1, hin.2, hdirty⟩]
      rw [if_pos hdirty] at hcounted
      exact ⟨⟨hsound.watched, fun _ hfalse => Bool.noConfusion hfalse, hcounted⟩,
        ⟨fun hinit => ⟨(hsound.fresh hinit).1, rfl, (hsound.fresh hinit).2.2⟩, hsound.looked,
          hsound.dated⟩, fun _ _ => List.not_mem_nil⟩
    · rw [if_neg hin, if_neg fun hall => hin ⟨hall.1, hall.2.1⟩]
      refine ⟨⟨hsound.watched, fun hactive hdirty => ?_, hcounted⟩, hsound.toWatcherLooked,
        fun _ _ => List.not_mem_nil⟩
      have hmem : other ∈ s.dirtyWatchers :=
        List.count_pos_iff.mp (by rw [hsound.queued hactive hdirty]; exact Nat.one_pos)
      exact absurd ⟨hmem, Bool.and_eq_true_iff.mpr
        ⟨hactive, by rw [hpaused other hmem hactive]; rfl⟩⟩ hin
  · refine h.known other (List.mem_append_left _ ?_)
    simpa using hother
  · obtain ⟨hseen, hcallBacks⟩ := h.unused other hother
    refine ⟨hseen, ?_⟩
    have hnot : other ∉ s.dirtyWatchers := fun hmem =>
      Nat.not_lt.mpr hother (h.known other (List.mem_append_right _ hmem))
    change (s.dirtyWatchers.foldl deliver s).callBacks other = 0
    rw [hdelivered.callBacks, if_neg fun hmem => hnot hmem.1, hcallBacks]

/-! ## Runs -/

/-- Every watcher is kept, and what waits is called back by a delivery unless it is paused. -/
def NothingLost (s : Watching γ) (i : WatchStep γ) (s' : Watching γ) : Prop :=
  (∀ pWatcher < s'.size, WatcherKept s'.watchers s'.dirtyWatchers pWatcher (s'.watcher pWatcher)
    (s'.seen pWatcher) (s'.callBacks pWatcher)) ∧
  match i with
  | .updateWatchers => ∀ pWatcher < s.size, delivers (s.watcher pWatcher) →
      (s.watcher pWatcher).isDirty → (s'.watcher pWatcher).isDirty = false ∧
        s'.callBacks pWatcher = s.callBacks pWatcher + 1
  | _ => True

/-- Nothing that is to be signalled is paused when the manager delivers. -/
def DeliversAll (s : Watching γ) : WatchStep γ → Prop
  | .updateWatchers => s.NonePaused
  | _ => True

theorem Sound.kept (h : s.Sound fileHash clock) : ∀ pWatcher < s.size,
    WatcherKept s.watchers s.dirtyWatchers pWatcher (s.watcher pWatcher) (s.seen pWatcher)
      (s.callBacks pWatcher) := fun pWatcher hsize => (h.sound pWatcher hsize).toWatcherKept

theorem Sound.step (hinj : Function.Injective fileHash) (h : s.Sound fileHash clock)
    {i : WatchStep γ} {r : Watching γ × Unit} (hi : s.DeliversAll i)
    (hr : Watching.step fileHash clock s i = some r) : r.1.Sound fileHash clock := by
  cases i with
  | write path file =>
      obtain ⟨hfile, hr⟩ := Option.ite_none_right_eq_some.mp hr
      obtain rfl := Option.some.inj hr
      exact h.write hfile
  | startWatch path =>
      obtain rfl := Option.some.inj hr
      exact h.startWatch path
  | init pWatcher =>
      obtain ⟨hsize, hr⟩ := Option.ite_none_right_eq_some.mp hr
      obtain rfl := Option.some.inj hr
      exact h.init hsize
  | asyncUpdateWatchers isWatchingEnabled =>
      obtain rfl := Option.some.inj hr
      exact h.asyncUpdateWatchers hinj isWatchingEnabled
  | updateWatchers =>
      obtain rfl := Option.some.inj hr
      exact h.updateWatchers hi
  | pause pWatcher =>
      obtain ⟨-, hr⟩ := Option.ite_none_right_eq_some.mp hr
      obtain rfl := Option.some.inj hr
      exact h.pause true
  | resume pWatcher =>
      obtain ⟨-, hr⟩ := Option.ite_none_right_eq_some.mp hr
      obtain rfl := Option.some.inj hr
      exact h.pause false
  | stop pWatcher =>
      obtain ⟨-, hr⟩ := Option.ite_none_right_eq_some.mp hr
      obtain rfl := Option.some.inj hr
      exact h.stop

/-- A paused watcher that is passed over waits for nothing. -/
theorem nothingLost_iff (hinj : Function.Injective fileHash) (h : s.Sound fileHash clock)
    {i : WatchStep γ} {r : Watching γ × Unit}
    (hr : Watching.step fileHash clock s i = some r) :
    s.NothingLost i r.1 ↔ s.DeliversAll i := by
  constructor
  · intro hlost
    cases i with
    | updateWatchers =>
        obtain rfl := Option.some.inj hr
        intro pWatcher hmem hactive
        by_contra hpaused
        have hsize := h.known pWatcher (List.mem_append_right _ hmem)
        have hdirty : (s.watcher pWatcher).isDirty := by
          by_contra hclean
          exact (h.sound pWatcher hsize).clean hactive (Bool.eq_false_iff.mpr hclean) hmem
        have hdelivers : ¬ (pWatcher ∈ s.dirtyWatchers ∧ delivers (s.watcher pWatcher)) := by
          rintro ⟨-, hdelivers⟩
          have hunpaused := (Bool.and_eq_true_iff.mp hdelivers).2
          exact hpaused (by simpa using hunpaused)
        have hframe := (delivered_foldl s.dirtyWatchers s).frame
        have hkept := hlost.1 pWatcher (by rw [Watching.updateWatchers, hframe]; exact hsize)
        have hwatcher : s.updateWatchers.watcher pWatcher = s.watcher pWatcher := by
          change (s.dirtyWatchers.foldl deliver s).watcher pWatcher = _
          rw [(delivered_foldl s.dirtyWatchers s).watcher, if_neg hdelivers]
        have hcount := hkept.queued (by rw [hwatcher]; exact hactive) (by rw [hwatcher]; exact hdirty)
        change List.count pWatcher [] = 1 at hcount
        cases hcount
    | _ => trivial
  · intro hi
    have hsound := h.step hinj hi hr
    refine ⟨hsound.kept, ?_⟩
    cases i with
    | updateWatchers =>
        obtain rfl := Option.some.inj hr
        intro pWatcher hsize hdelivers hdirty
        have hactive := (Bool.and_eq_true_iff.mp hdelivers).1
        have hmem : pWatcher ∈ s.dirtyWatchers := List.count_pos_iff.mp (by
          rw [(h.sound pWatcher hsize).queued hactive hdirty]
          exact Nat.one_pos)
        have hdelivered := delivered_foldl s.dirtyWatchers s
        constructor
        · change ((s.dirtyWatchers.foldl deliver s).watcher pWatcher).isDirty = false
          rw [hdelivered.watcher, if_pos ⟨hmem, hdelivers⟩]
        · change (s.dirtyWatchers.foldl deliver s).callBacks pWatcher = _
          rw [hdelivered.callBacks, if_pos ⟨hmem, hdelivers, hdirty⟩]
    | _ => trivial

/-- The files before anything is watched. -/
def start (file : Text → WatchedFile γ) : Watching γ where
  file := file
  watcher := fun _ => { path := [] }

theorem sound_start {file : Text → WatchedFile γ} (hfile : ∀ path, clock.Allows path (file path)) :
    (start file).Sound fileHash clock where
  allowed := hfile
  sound _ hother := absurd hother (Nat.not_lt_zero _)
  known _ hother := absurd hother List.not_mem_nil
  unused _ _ := ⟨rfl, rfl⟩

/-- No change is lost in just the runs in which the manager never delivers while a watcher that is
to be signalled is paused. -/
theorem nothingLost_iff_deliversAll (hinj : Function.Injective fileHash)
    {file : Text → WatchedFile γ} (hfile : ∀ path, clock.Allows path (file path))
    (is : List (WatchStep γ)) :
    Steps.Throughout (Watching.step fileHash clock) NothingLost (start file) is ↔
      Steps.Along (Watching.step fileHash clock) DeliversAll (start file) is := by
  refine Steps.throughout_iff_along_of_keeps (I := fun s => s.Sound fileHash clock)
    (fun s i r hs hr => nothingLost_iff hinj hs hr) (fun s i r hs hC hr => hs.step hinj hC hr)
    (fun s i _ hr => ?_) (sound_start hfile) is
  cases i with
  | updateWatchers => cases hr
  | _ => trivial

/-! ## A change that is lost -/

/-- A file that is written once, the contents of which are told apart by its write time. -/
def writtenOnce : WriteClock Bool := .telling fun _ time => time = 2

def bitHash (b : Bool) : UInt64 := if b then 1 else 0

theorem bitHash_injective : Function.Injective bitHash := by decide

theorem allows_unwritten (path : Text) : writtenOnce.Allows path ⟨false, 1⟩ := by
  change false = decide ((1 : UInt32) = 2)
  decide

theorem nothingLost_iff_deliversAll_written :
    Steps.Throughout (Watching.step bitHash writtenOnce) NothingLost (start fun _ => ⟨false, 1⟩)
        [.startWatch [], .write [] ⟨true, 2⟩, .updateWatchers] ↔
      Steps.Along (Watching.step bitHash writtenOnce) DeliversAll (start fun _ => ⟨false, 1⟩)
        [.startWatch [], .write [] ⟨true, 2⟩, .updateWatchers] :=
  nothingLost_iff_deliversAll bitHash_injective allows_unwritten _

/-- The watcher is paused between the detection and the delivery. -/
theorem not_nothingLost_paused :
    ¬ Steps.Throughout (Watching.step bitHash writtenOnce) NothingLost
      (start fun _ => ⟨false, 1⟩)
      [.startWatch [], .asyncUpdateWatchers true, .write [] ⟨true, 2⟩, .asyncUpdateWatchers true,
        .pause 0, .updateWatchers, .resume 0] := by
  intro h
  have hlost := ((((((h _ rfl).2 _ rfl).2 _ rfl).2 _ rfl).2 _ rfl).2 _ rfl).1
  have hcount := (hlost.1 0 (by decide)).queued rfl rfl
  cases hcount

end Watching

end

end SRCommon
