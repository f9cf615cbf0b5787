import Mathlib.Data.List.Basic
import Mathlib.Logic.Function.Basic
import SRCommon.Lib.ByteText

/-!
# Watchers of files

The watchers of the resource manager. Files change at any time between the
calls. Every watcher has a callback, the calls of which are counted.
-/

namespace SRCommon

/-- A file, as it is read. -/
structure WatchedFile (γ : Type) where
  content : γ
  lastWriteTime : UInt32

structure FileWatcher where
  path : Text
  isActive : Bool := true
  isInit : Bool := false
  isDirty : Bool := false
  isPaused : Bool := false
  lastWriteTime : UInt64 := 0
  hash : UInt64 := 0xFFFFFFFFFFFFFFFF

section

variable {γ : Type} (fileHash : γ → UInt64)

namespace FileWatcher

variable (this : FileWatcher) (file : WatchedFile γ)

/-- Compare with the hash, and keep the new one. -/
def compare : FileWatcher × Bool :=
  if this.hash ≠ fileHash file.content then
    ({ this with isDirty := true, hash := fileHash file.content }, true)
  else (this, false)

def update : FileWatcher × Bool :=
  if !this.isInit then ({ this with hash := fileHash file.content, isInit := true }, false)
  else
    let writeTime := file.lastWriteTime
    if this.lastWriteTime ≠ writeTime.toUInt64 then
      { this with lastWriteTime := writeTime.toUInt64 }.compare fileHash file
    else if this.lastWriteTime = 0 then this.compare fileHash file
    else (this, false)

def init : FileWatcher :=
  if !this.isInit then { this with hash := fileHash file.content, isInit := true } else this

end FileWatcher

/-- The files, the watchers by their pointers, and the two lists of the manager. Beside them is what
each watcher has looked at, the latest first, and how often it has called back. -/
structure Watching (γ : Type) where
  file : Text → WatchedFile γ
  size : ℕ := 0
  watcher : ℕ → FileWatcher
  watchers : List ℕ := []
  dirtyWatchers : List ℕ := []
  seen : ℕ → List γ := fun _ => []
  callBacks : ℕ → ℕ := fun _ => 0

inductive WatchStep (γ : Type) where
  | write (path : Text) (file : WatchedFile γ)
  | startWatch (path : Text)
  | init (pWatcher : ℕ)
  | asyncUpdateWatchers (isWatchingEnabled : Bool)
  | updateWatchers
  | pause (pWatcher : ℕ)
  | resume (pWatcher : ℕ)
  | stop (pWatcher : ℕ)

/-- Write times tell the contents of a file apart, or they are not supported. -/
inductive WriteClock (γ : Type) where
  | telling (contentAt : Text → UInt32 → γ)
  | zero

def WriteClock.Allows (clock : WriteClock γ) (path : Text) (file : WatchedFile γ) : Prop :=
  match clock with
  | telling contentAt => file.content = contentAt path file.lastWriteTime
  | zero => file.lastWriteTime = 0

instance [DecidableEq γ] (clock : WriteClock γ) (path : Text) (file : WatchedFile γ) :
    Decidable (clock.Allows path file) :=
  match clock with
  | .telling contentAt =>
      inferInstanceAs (Decidable (file.content = contentAt path file.lastWriteTime))
  | .zero => inferInstanceAs (Decidable (file.lastWriteTime = 0))

namespace Watching

variable (s : Watching γ) (pWatcher : ℕ)

def fileOf : WatchedFile γ := s.file (s.watcher pWatcher).path

def modify (f : FileWatcher → FileWatcher) : Watching γ :=
  { s with watcher := Function.update s.watcher pWatcher (f (s.watcher pWatcher)) }

/-- The watcher has read its file. -/
def look : Watching γ :=
  { s with
    seen := Function.update s.seen pWatcher ((s.fileOf pWatcher).content :: s.seen pWatcher) }

def startWatch (path : Text) : Watching γ :=
  { s with
    size := s.size + 1
    watcher := Function.update s.watcher s.size { path }
    watchers := s.watchers ++ [s.size] }

def initWatcher : Watching γ :=
  let this := s.watcher pWatcher
  let s := if !this.isInit then s.look pWatcher else s
  s.modify pWatcher fun this => this.init fileHash (s.fileOf pWatcher)

/-- `FileWatcher::Update`. -/
def updateWatcher : Watching γ × Bool :=
  let result := (s.watcher pWatcher).update fileHash (s.fileOf pWatcher)
  ((s.look pWatcher).modify pWatcher fun _ => result.1, result.2)

def signal : Watching γ :=
  if !(s.watcher pWatcher).isDirty then s
  else
    { s.modify pWatcher fun this => { this with isDirty := false } with
      callBacks := Function.update s.callBacks pWatcher (s.callBacks pWatcher + 1) }

def asyncUpdateWatchers (isWatchingEnabled : Bool) : Watching γ :=
  match s.watchers with
  | [] => s
  | pWatcher :: watchers =>
      if !isWatchingEnabled then s
      else
        let this := s.watcher pWatcher
        if !this.isActive then { s with watchers }
        else if !this.isDirty && !this.isPaused then
          let result := s.updateWatcher fileHash pWatcher
          { result.1 with
            watchers := watchers ++ [pWatcher]
            dirtyWatchers :=
              if result.2 then s.dirtyWatchers ++ [pWatcher] else s.dirtyWatchers }
        else { s with watchers := watchers ++ [pWatcher] }

/-- One round of the loop of `UpdateWatchers`. -/
def deliver : Watching γ :=
  let this := s.watcher pWatcher
  if !this.isActive then s else if this.isPaused then s else s.signal pWatcher

def updateWatchers : Watching γ :=
  { s.dirtyWatchers.foldl deliver s with dirtyWatchers := [] }

def step [DecidableEq γ] (clock : WriteClock γ) (s : Watching γ) :
    WatchStep γ → Option (Watching γ × Unit)
  | .write path file =>
      if clock.Allows path file then some ({ s with file := Function.update s.file path file }, ())
      else none
  | .startWatch path => some (s.startWatch path, ())
  | .init pWatcher => if pWatcher < s.size then some (s.initWatcher fileHash pWatcher, ()) else none
  | .asyncUpdateWatchers isWatchingEnabled =>
      some (s.asyncUpdateWatchers fileHash isWatchingEnabled, ())
  | .updateWatchers => some (s.updateWatchers, ())
  | .pause pWatcher =>
      if pWatcher < s.size then
        some (s.modify pWatcher fun this => { this with isPaused := true }, ())
      else none
  | .resume pWatcher =>
      if pWatcher < s.size then
        some (s.modify pWatcher fun this => { this with isPaused := false }, ())
      else none
  | .stop pWatcher =>
      if pWatcher < s.size then
        some (s.modify pWatcher fun this => { this with isActive := false }, ())
      else none

end Watching

end

end SRCommon
