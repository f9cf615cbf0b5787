import SRCommon.Lib.ByteText
import SRCommon.Lib.PartialRun

/-!
# The command manager

Requests to undo, to redo and to execute a command wait in a queue until
`Update` or a synchronous command processes it. A step has no result when it
reads behind the history or uses a command that is deleted. A call holds the
mutex of the manager from its start to its end.
-/

namespace SRCommon

/-!
## Reversible commands

A command works on the state of the application. A `GroupCommand` redoes its
parts from the first to the last and undoes them from the last to the first.
-/

inductive ReversibleCommand (α : Type) where
  | simple (name : Text) (redo undo : α → Bool × α)
  | group (commands : List (ReversibleCommand α))

namespace ReversibleCommand

variable {α : Type}

mutual

def redo : ReversibleCommand α → α → Bool × α
  | .simple _ redo _, a => redo a
  | .group commands, a => (true, redoAll commands a)

def redoAll : List (ReversibleCommand α) → α → α
  | [], a => a
  | command :: commands, a => redoAll commands (command.redo a).2

end

mutual

def undo : ReversibleCommand α → α → Bool × α
  | .simple _ _ undo, a => undo a
  | .group commands, a => (true, undoAll commands a)

def undoAll : List (ReversibleCommand α) → α → α
  | [], a => a
  | command :: commands, a => (command.undo (undoAll commands a)).2

end

def getName : ReversibleCommand α → Text
  | .simple name _ _ => name
  | .group _ => Text.lit "GroupCommand"

mutual

/-- `Undo` inverts `Redo` in each simple command. -/
def Inverts : ReversibleCommand α → Prop
  | .simple _ redo undo => ∀ a, (undo (redo a).2).2 = a
  | .group commands => InvertsAll commands

def InvertsAll : List (ReversibleCommand α) → Prop
  | [] => True
  | command :: commands => command.Inverts ∧ InvertsAll commands

end

mutual

theorem undo_redo : ∀ (command : ReversibleCommand α), command.Inverts → ∀ a,
    (command.undo (command.redo a).2).2 = a
  | .simple _ _ _, h, a => h a
  | .group commands, h, a => undoAll_redoAll commands h a

theorem undoAll_redoAll : ∀ (commands : List (ReversibleCommand α)), InvertsAll commands → ∀ a,
    undoAll commands (redoAll commands a) = a
  | [], _, _ => rfl
  | command :: commands, h, a => by
      rw [redoAll, undoAll, undoAll_redoAll commands h.2]
      exact undo_redo command h.1 a

end

end ReversibleCommand

/-- A pointer, with the object that was allocated for it. -/
structure CommandPtr (α : Type) where
  address : ℕ
  object : ReversibleCommand α

inductive SyncType where
  | sync
  | async
  | force

inductive Cmd (α : Type) where
  | redo
  | undo
  | execute (cmd : CommandPtr α)

/-- `UINT32_MAX`. -/
def uint32Max : UInt32 := 0xffffffff

/-- `m_maxHistorySize`, which nothing changes. -/
def maxHistorySize : UInt32 := 128

structure CmdManager (α : Type) where
  commands : List (Cmd α) := []
  /-- The entries may be null pointers. -/
  history : List (Option (CommandPtr α)) := []
  historyPC : UInt32 := uint32Max
  lastCmdName : Text := []

/-- The manager with the state that commands work on. -/
structure Application (α : Type) where
  state : α
  manager : CmdManager α := {}
  deleted : List ℕ := []
  allocated : ℕ := 0

inductive CommandRequest (α : Type) where
  | execute (command : ReversibleCommand α) (syncType : SyncType)
  | cancel
  | redo
  | update

namespace Application

variable {α : Type} (s : Application α)

def deleteCommand (s : Application α) : Option (CommandPtr α) → Option (Application α)
  | none => some s
  | some cmd =>
      if cmd.address ∈ s.deleted then none
      else some { s with deleted := cmd.address :: s.deleted }

def withHistory (history : List (Option (CommandPtr α))) : Application α :=
  { s with manager := { s.manager with history } }

def withPC (historyPC : UInt32) : Application α :=
  { s with manager := { s.manager with historyPC } }

def withCommands (commands : List (Cmd α)) : Application α :=
  { s with manager := { s.manager with commands } }

/-- `Redo` or `Undo` of a command in the history. -/
def call (cmd : Option (CommandPtr α)) (method : ReversibleCommand α → α → Bool × α) :
    Option (Application α × Bool) :=
  cmd.bind fun cmd =>
    if cmd.address ∈ s.deleted then none
    else
      let result := method cmd.object s.state
      let manager := { s.manager with lastCmdName := cmd.object.getName }
      some ({ s with state := result.2, manager }, result.1)

/-- The entries from a position on are deleted, the last one first. -/
def deleteFrom (position : ℕ) : Option (Application α) :=
  (s.manager.history.drop position).reverse.foldlM deleteCommand s

/-- Entries are removed from the end until the one at the position counter is the last. If it
is no position of the history, the loop leaves the vector at its other end. -/
def popUndone : Option (Application α) :=
  let size := s.manager.historyPC.toNat + 1
  if size ≤ s.manager.history.length then
    (s.deleteFrom size).map fun s => s.withHistory (s.manager.history.take size)
  else none

def popFirst : Option (Application α) :=
  match s.manager.history with
  | [] => none
  | cmd :: history => (s.deleteCommand cmd).map fun s => s.withHistory history

/-- `CmdManager::Execute(cmd)`. -/
def execute (cmd : CommandPtr α) : Option (Application α × Bool) :=
  (if s.manager.historyPC ≠ uint32Max then s.popUndone else some s).bind fun s =>
    let s := s.withHistory (s.manager.history ++ [some cmd])
    let s := s.withPC (s.manager.historyPC + 1)
    (if maxHistorySize ≤ s.manager.historyPC then s.popFirst else some s).bind fun s =>
      s.call (some cmd) ReversibleCommand.redo

def doCmd : Cmd α → Option (Application α × Bool)
  | .redo =>
      if (s.manager.history.length ≤ s.manager.historyPC.toNat + 1 ∧
          s.manager.historyPC ≠ uint32Max) ∨ s.manager.history = [] then some (s, true)
      else
        let s := s.withPC (s.manager.historyPC + 1)
        s.manager.history[s.manager.historyPC.toNat]?.bind fun pNextCmp =>
          s.call pNextCmp ReversibleCommand.redo
  | .undo =>
      if s.manager.history = [] ∨ s.manager.historyPC = uint32Max then some (s, true)
      else if s.manager.history.length ≤ s.manager.historyPC.toNat then some (s, false)
      else
        s.manager.history[s.manager.historyPC.toNat]?.bind fun pPrevCmd =>
          (s.withPC (s.manager.historyPC - 1)).call pPrevCmd ReversibleCommand.undo
  | .execute cmd => s.execute cmd

/-- What `CmdManager::Execute(cmd, sync)` does first. Positions behind the history are filled
with null pointers. -/
def trimHistory : Option (Application α) :=
  if s.manager.historyPC ≠ uint32Max then
    let size := s.manager.historyPC.toNat + 1
    if s.manager.history = [] then none
    else (s.deleteFrom size).map fun s => s.withHistory (s.manager.history.takeD size none)
  else (s.manager.history.foldlM deleteCommand s).map fun s => s.withHistory []

/-- The loops over `m_commands`. -/
def processCommands : Option (Application α) :=
  (Steps.run doCmd s s.manager.commands).map fun r => r.1.withCommands []

def executeImpl (cmd : CommandPtr α) : SyncType → Option (Application α × Bool)
  | .async => some (s.withCommands (s.manager.commands ++ [.execute cmd]), true)
  | .sync => s.processCommands.bind fun s => s.doCmd (.execute cmd)
  | .force =>
      let result := cmd.object.redo s.state
      (deleteCommand { s with state := result.2 } (some cmd)).map fun s => (s, result.1)

def step (s : Application α) : CommandRequest α → Option (Application α × Bool)
  | .execute command syncType =>
      let cmd := { address := s.allocated, object := command }
      let s := { s with allocated := s.allocated + 1 }
      s.trimHistory.bind fun s => s.executeImpl cmd syncType
  | .cancel => some (s.withCommands (s.manager.commands ++ [.undo]), true)
  | .redo => some (s.withCommands (s.manager.commands ++ [.redo]), true)
  | .update => s.processCommands.map fun s => (s, true)

end Application

end SRCommon
