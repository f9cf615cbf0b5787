import SRCommon.CommandManager.CmdManager
import SRCommon.Lib.UndoStack

/-!
# Undo and redo in the order of the requests

The history is an undo stack up to the position counter and a redo stack
behind it. It follows the requests while no command is requested before a
pending redo of an undone one, and no command is executed on a full undo stack
or with all of the history undone.
-/

namespace SRCommon

variable {α : Type}

def Cmd.request : Cmd α → Undo.Request (CommandPtr α)
  | .redo => .redo
  | .undo => .cancel
  | .execute cmd => .execute cmd

/-- The commands that a queue will execute. -/
def Cmd.pointer : Cmd α → Option (CommandPtr α)
  | .execute cmd => some cmd
  | _ => none

/-- What a command makes of the state. -/
def CommandPtr.run (cmd : CommandPtr α) (a : α) : α := (cmd.object.redo a).2

/-- The undo and redo stacks that the requests describe, with the number of commands so far. -/
abbrev UndoReference (α : Type) := Undo.Stack α (CommandPtr α) × ℕ

namespace UndoReference

def take (r : UndoReference α) : CommandRequest α → UndoReference α
  | .execute command _ =>
      (r.1.take CommandPtr.run maxHistorySize.toNat (.execute ⟨r.2, command⟩), r.2 + 1)
  | .cancel => (r.1.take CommandPtr.run maxHistorySize.toNat .cancel, r.2)
  | .redo => (r.1.take CommandPtr.run maxHistorySize.toNat .redo, r.2)
  | .update => r

theorem take_execute (r : UndoReference α) (command : ReversibleCommand α) (syncType : SyncType) :
    (r.take (.execute command syncType)).1 =
      r.1.take CommandPtr.run maxHistorySize.toNat (.execute ⟨r.2, command⟩) := rfl

/-- The stacks after some requests. -/
def run (a : α) (requests : List (CommandRequest α)) : Undo.Stack α (CommandPtr α) :=
  (requests.foldl take ({ state := a }, 0)).1

end UndoReference

namespace Application

variable {s : Application α} {r : Undo.Stack α (CommandPtr α)}

/-- How many commands of the history are done. -/
def done (s : Application α) : ℕ := (s.manager.historyPC + 1).toNat

/-- The entries of the history are live, and the position counter is one of theirs. -/
structure Sound (s : Application α) : Prop where
  live : ∀ entry ∈ s.manager.history, ∃ cmd, entry = some cmd ∧ cmd.address ∉ s.deleted
  position : s.manager.historyPC = uint32Max ∨
    s.manager.historyPC.toNat < s.manager.history.length

/-- A processed queue leaves the state and the steps of the stacks. -/
structure Follows (s : Application α) (r : Undo.Stack α (CommandPtr α)) : Prop where
  sound : s.Sound
  state : s.manager.commands = [] → s.state = r.state
  undo : s.manager.commands = [] →
    s.manager.history.take s.done = r.undo.map fun step => some step.command
  redo : s.manager.commands = [] →
    s.manager.history.drop s.done = r.redo.map fun step => some step.command

/-- `done` commands stand before `undone` ones. Each command that is executed finds room behind
the commands that are done, and commands to stand behind if there are undone ones. -/
def Fits : ℕ → ℕ → List (Cmd α) → Prop
  | _, _, [] => True
  | done, undone, .undo :: commands =>
      Fits (done - 1) (if done = 0 then undone else undone + 1) commands
  | done, undone, .redo :: commands =>
      Fits (if undone = 0 then done else done + 1) (undone - 1) commands
  | done, undone, .execute _ :: commands =>
      done < maxHistorySize.toNat ∧ (done = 0 → undone = 0) ∧ Fits (done + 1) 0 commands

/-- The requests that are handled in their order. -/
def InOrder (s : Application α) : CommandRequest α → Prop
  | .execute command syncType =>
      (s.done < s.manager.history.length →
        Undo.LeavesUndone s.done s.done (s.manager.commands.map Cmd.request)) ∧
      (syncType = .sync → Fits s.done 0 (s.manager.commands ++ [.execute ⟨s.allocated, command⟩]))
  | .update => Fits s.done (s.manager.history.length - s.done) s.manager.commands
  | _ => True

/-- The requests that are recorded in the history, with commands whose `Undo` inverts `Redo`. -/
def Recorded : CommandRequest α → Prop
  | .execute command syncType => command.Inverts ∧ syncType ≠ .force
  | _ => True

/-! ## Positions -/

theorem historyPC_eq_iff : s.manager.historyPC = uint32Max ↔ s.done = 0 := by
  unfold done
  constructor
  · intro h
    rw [h]
    rfl
  · intro h
    apply UInt32.toNat_inj.mp
    rw [UInt32.toNat_add] at h
    have hlt := s.manager.historyPC.toNat_lt
    change _ = 4294967295
    change (s.manager.historyPC.toNat + 1) % 4294967296 = 0 at h
    omega

theorem historyPC_add_one (h : s.done ≠ 0) : s.manager.historyPC.toNat + 1 = s.done := by
  unfold done at h ⊢
  rw [UInt32.toNat_add] at h ⊢
  have hlt := s.manager.historyPC.toNat_lt
  change (s.manager.historyPC.toNat + 1) % 4294967296 ≠ 0 at h
  change _ = (s.manager.historyPC.toNat + 1) % 4294967296
  omega

theorem done_next (h : s.done < maxHistorySize.toNat) :
    (s.withPC (s.manager.historyPC + 1)).done = s.done + 1 := by
  unfold done at h ⊢
  change (s.manager.historyPC + 1 + 1).toNat = _
  rw [UInt32.toNat_add]
  change _ < 128 at h
  change ((s.manager.historyPC + 1).toNat + 1) % 4294967296 = _
  omega

theorem done_previous (h : s.done ≠ 0) :
    (s.withPC (s.manager.historyPC - 1)).done = s.done - 1 := by
  have hprevious : (s.withPC (s.manager.historyPC - 1)).done = s.manager.historyPC.toNat := by
    change (s.manager.historyPC - 1 + 1).toNat = _
    rw [UInt32.sub_add_cancel]
  rw [hprevious, ← historyPC_add_one h, Nat.add_sub_cancel]

/-! ## Commands that are owned -/

/-- The pointers are different, live and allocated before. -/
structure Owns (s : Application α) (pointers : List (CommandPtr α)) : Prop where
  nodup : (pointers.map CommandPtr.address).Nodup
  live : ∀ cmd ∈ pointers, cmd.address ∉ s.deleted
  allocated : ∀ cmd ∈ pointers, cmd.address < s.allocated
  deleted : ∀ address ∈ s.deleted, address < s.allocated
  inverts : ∀ cmd ∈ pointers, cmd.object.Inverts

theorem Owns.perm {pointers pointers' : List (CommandPtr α)} (h : s.Owns pointers)
    (hperm : pointers'.Perm pointers) : s.Owns pointers' where
  nodup := (hperm.map CommandPtr.address).nodup_iff.mpr h.nodup
  live cmd hcmd := h.live cmd (hperm.mem_iff.mp hcmd)
  allocated cmd hcmd := h.allocated cmd (hperm.mem_iff.mp hcmd)
  deleted := h.deleted
  inverts cmd hcmd := h.inverts cmd (hperm.mem_iff.mp hcmd)

/-- Pointers that are given up can be deleted one after the other. -/
theorem Owns.deleteAll {kept gone : List (CommandPtr α)} (h : s.Owns (gone ++ kept)) :
    ∃ deleted, (gone.map some).foldlM deleteCommand s = some { s with deleted } ∧
      ({ s with deleted } : Application α).Owns kept := by
  induction gone generalizing s with
  | nil => exact ⟨s.deleted, rfl, h⟩
  | cons cmd gone ih =>
      have hlive : cmd.address ∉ s.deleted := h.live cmd (List.mem_cons_self ..)
      have hnodup := h.nodup
      rw [List.cons_append, List.map_cons, List.nodup_cons] at hnodup
      have howns : ({ s with deleted := cmd.address :: s.deleted } : Application α).Owns
          (gone ++ kept) := by
        constructor
        · exact hnodup.2
        · intro cmd' hcmd' hmem
          rcases List.mem_cons.mp hmem with heq | hmem
          · exact hnodup.1 (heq ▸ List.mem_map_of_mem hcmd')
          · exact h.live cmd' (List.mem_cons_of_mem _ hcmd') hmem
        · exact fun cmd' hcmd' => h.allocated cmd' (List.mem_cons_of_mem _ hcmd')
        · intro address hmem
          rcases List.mem_cons.mp hmem with rfl | hmem
          · exact h.allocated cmd (List.mem_cons_self ..)
          · exact h.deleted address hmem
        · exact fun cmd' hcmd' => h.inverts cmd' (List.mem_cons_of_mem _ hcmd')
      obtain ⟨deleted, hdelete, hkept⟩ := ih howns
      refine ⟨deleted, ?_, hkept⟩
      rw [List.map_cons, List.foldlM_cons, deleteCommand, if_neg hlive]
      exact hdelete

/-! ## One command of the queue -/

/-- The commands of both stacks. -/
def pointers (r : Undo.Stack α (CommandPtr α)) : List (CommandPtr α) :=
  (r.undo ++ r.redo).map Undo.Step.command

/-- The history is what both stacks hold, and the state is between them. -/
structure Matches (s : Application α) (r : Undo.Stack α (CommandPtr α)) : Prop where
  state : s.state = r.state
  history : s.manager.history = (r.undo ++ r.redo).map fun step => some step.command
  done : s.done = r.undo.length
  linked : r.Linked CommandPtr.run
  length_le : r.undo.length + r.redo.length ≤ maxHistorySize.toNat

/-- What processing keeps, with the commands that wait behind it. -/
structure Holds (s : Application α) (r : Undo.Stack α (CommandPtr α))
    (waiting : List (CommandPtr α)) : Prop where
  matched : s.Matches r
  owns : s.Owns (pointers r ++ waiting)

theorem Matches.length_history (h : s.Matches r) :
    s.manager.history.length = r.undo.length + r.redo.length := by
  rw [h.history, List.length_map, List.length_append]

theorem Matches.getElem_history (h : s.Matches r) {steps : List (Undo.Step α (CommandPtr α))}
    {step : Undo.Step α (CommandPtr α)} {rest : List (Undo.Step α (CommandPtr α))}
    (hsteps : r.undo ++ r.redo = steps ++ step :: rest) :
    s.manager.history[steps.length]? = some (some step.command) := by
  rw [h.history, hsteps, List.getElem?_map, List.getElem?_append_right le_rfl, Nat.sub_self]
  rfl

theorem Matches.historyPC_of_done (h : s.Matches r) (hdone : r.undo ≠ []) :
    s.manager.historyPC ≠ uint32Max ∧ s.manager.historyPC.toNat + 1 = r.undo.length := by
  have hne : s.done ≠ 0 := by
    rw [h.done]
    exact List.length_pos_iff.mpr hdone |>.ne'
  exact ⟨mt historyPC_eq_iff.mp hne, (historyPC_add_one hne).trans h.done⟩

theorem Matches.historyPC_of_none_done (h : s.Matches r) (hdone : r.undo = []) :
    s.manager.historyPC = uint32Max := by
  apply historyPC_eq_iff.mpr
  rw [h.done, hdone]
  rfl

/-- The command has run. -/
def called (s : Application α) (cmd : CommandPtr α)
    (method : ReversibleCommand α → α → Bool × α) : Application α × Bool :=
  ({ s with
    state := (method cmd.object s.state).2
    manager := { s.manager with lastCmdName := cmd.object.getName } },
  (method cmd.object s.state).1)

theorem call_eq {cmd : CommandPtr α} (h : cmd.address ∉ s.deleted)
    (method : ReversibleCommand α → α → Bool × α) :
    s.call (some cmd) method = some (s.called cmd method) := by
  rw [call, Option.bind_some, if_neg h]
  rfl

variable {waiting : List (CommandPtr α)}

theorem Holds.cancel (h : s.Holds r waiting) :
    ∃ result, s.doCmd .undo = some result ∧ result.1.Holds r.cancel waiting ∧
      result.1.allocated = s.allocated := by
  rcases r.undo.eq_nil_or_concat' with hundo | ⟨steps, step, hundo⟩
  · refine ⟨(s, true), ?_, by rwa [Undo.Stack.cancel_of_nil hundo], rfl⟩
    rw [doCmd, if_pos (Or.inr (h.matched.historyPC_of_none_done hundo))]
  · have hsteps : r.undo ++ r.redo = steps ++ step :: r.redo := by
      rw [hundo, List.append_assoc]
      rfl
    have hdone := h.matched.done
    obtain ⟨hmax, hPC⟩ := h.matched.historyPC_of_done (by rw [hundo]; simp)
    have hlength := h.matched.length_history
    rw [hundo, List.length_append, List.length_singleton] at hPC hdone hlength
    have hposition : s.manager.historyPC.toNat = steps.length := by omega
    have hlive : step.command.address ∉ s.deleted := by
      apply h.owns.live
      rw [pointers, hsteps]
      simp
    have hempty : s.manager.history ≠ [] := by
      intro hnil
      rw [hnil, List.length_nil] at hlength
      omega
    have hinverts : step.command.object.Inverts := by
      apply h.owns.inverts
      rw [pointers, hsteps]
      simp
    refine ⟨(s.withPC (s.manager.historyPC - 1)).called step.command ReversibleCommand.undo, ?_, ?_,
      rfl⟩
    · rw [doCmd, if_neg (not_or.mpr ⟨hempty, hmax⟩), if_neg (by omega), hposition,
        h.matched.getElem_history hsteps, Option.bind_some]
      exact call_eq (s := s.withPC (s.manager.historyPC - 1)) hlive _
    · rw [Undo.Stack.cancel_eq hundo]
      have hlinked := h.matched.linked.cancel
      rw [Undo.Stack.cancel_eq hundo] at hlinked
      have hstate := h.matched.linked.state_eq hundo
      refine ⟨⟨?_, ?_, ?_, hlinked, ?_⟩, ?_⟩
      · change (step.command.object.undo s.state).2 = step.before
        rw [h.matched.state, hstate]
        exact step.command.object.undo_redo hinverts _
      · exact h.matched.history.trans (by rw [hsteps])
      · exact (done_previous (by omega)).trans (by rw [hdone]; rfl)
      · dsimp only
        have := h.matched.length_le
        rw [hundo, List.length_append, List.length_singleton] at this
        rw [List.length_cons]
        omega
      · have howns := h.owns
        rw [pointers, hsteps] at howns
        exact ⟨howns.nodup, howns.live, howns.allocated, howns.deleted, howns.inverts⟩

theorem Holds.again (h : s.Holds r waiting) :
    ∃ result, s.doCmd .redo = some result ∧ result.1.Holds r.again waiting ∧
      result.1.allocated = s.allocated := by
  have hlength := h.matched.length_history
  cases hredo : r.redo with
  | nil =>
      refine ⟨(s, true), ?_, by rwa [Undo.Stack.again_of_nil hredo], rfl⟩
      rw [hredo, List.length_nil] at hlength
      rw [doCmd, if_pos]
      by_cases hundo : r.undo = []
      · rw [hundo] at hlength
        exact Or.inr (List.length_eq_zero_iff.mp hlength)
      · obtain ⟨hmax, hPC⟩ := h.matched.historyPC_of_done hundo
        exact Or.inl ⟨by omega, hmax⟩
  | cons step rest =>
      have hsteps : r.undo ++ r.redo = r.undo ++ step :: rest := by rw [hredo]
      rw [hredo, List.length_cons] at hlength
      have hle := h.matched.length_le
      rw [hredo, List.length_cons] at hle
      have hlive : step.command.address ∉ s.deleted := by
        apply h.owns.live
        rw [pointers, hsteps]
        simp
      have hdone := h.matched.done
      have hnext : ¬ ((s.manager.history.length ≤ s.manager.historyPC.toNat + 1 ∧
          s.manager.historyPC ≠ uint32Max) ∨ s.manager.history = []) := by
        rintro (⟨hle, hmax⟩ | hnil)
        · have hne : s.done ≠ 0 := mt historyPC_eq_iff.mpr hmax
          have := historyPC_add_one hne
          omega
        · rw [hnil, List.length_nil] at hlength
          omega
      refine ⟨(s.withPC (s.manager.historyPC + 1)).called step.command ReversibleCommand.redo, ?_, ?_,
        rfl⟩
      · rw [doCmd, if_neg hnext]
        change s.manager.history[s.done]?.bind _ = _
        rw [hdone, h.matched.getElem_history hsteps, Option.bind_some]
        exact call_eq (s := s.withPC (s.manager.historyPC + 1)) hlive _
      · have hafter := h.matched.linked.after_eq hredo
        have hlinked := h.matched.linked.again
        rw [Undo.Stack.again_eq hredo] at hlinked ⊢
        refine ⟨⟨?_, ?_, ?_, hlinked, ?_⟩, ?_⟩
        · change (step.command.object.redo s.state).2 = step.after
          rw [hafter, h.matched.state]
          rfl
        · refine h.matched.history.trans ?_
          rw [hsteps, List.append_assoc]
          rfl
        · refine (done_next (by omega)).trans ?_
          rw [hdone, List.length_append]
          rfl
        · dsimp only
          rw [List.length_append, List.length_singleton]
          omega
        · have howns := h.owns
          rw [pointers, hsteps] at howns
          rw [pointers, List.append_assoc]
          exact ⟨howns.nodup, howns.live, howns.allocated, howns.deleted, howns.inverts⟩

/-! ## Commands that cannot be redone any more -/

theorem Matches.take_history (h : s.Matches r) :
    s.manager.history.take r.undo.length = r.undo.map fun step => some step.command := by
  rw [h.history, ← List.map_take, List.take_left]

theorem Matches.drop_history (h : s.Matches r) :
    s.manager.history.drop r.undo.length = r.redo.map fun step => some step.command := by
  rw [h.history, ← List.map_drop, List.drop_left]

/-- The commands of `gone` are deleted, in the order of the list. -/
theorem Holds.deleteUndone (h : s.Holds r waiting) {gone : List (CommandPtr α)}
    (hgone : gone.Perm (r.redo.map Undo.Step.command)) :
    ∃ deleted, (gone.map some).foldlM deleteCommand s = some { s with deleted } ∧
      ({ s with deleted } : Application α).Owns (r.undo.map Undo.Step.command ++ waiting) := by
  apply Owns.deleteAll
  apply h.owns.perm
  rw [pointers, List.map_append, ← List.append_assoc]
  exact (List.perm_append_comm.trans (hgone.append_left _)).append_right waiting

theorem Holds.deleteFrom (h : s.Holds r waiting) :
    ∃ deleted, s.deleteFrom r.undo.length = some { s with deleted } ∧
      ({ s with deleted } : Application α).Owns (r.undo.map Undo.Step.command ++ waiting) := by
  have hgone : ((s.manager.history.drop r.undo.length).reverse) =
      (r.redo.map Undo.Step.command).reverse.map some := by
    rw [h.matched.drop_history, List.map_reverse, List.map_map]
    rfl
  unfold Application.deleteFrom
  rw [hgone]
  exact h.deleteUndone (List.reverse_perm _)

/-- The history without its undone commands. -/
theorem Holds.cleared (h : s.Holds r waiting) {deleted : List ℕ}
    (howns : ({ s with deleted } : Application α).Owns (r.undo.map Undo.Step.command ++ waiting)) :
    (({ s with deleted } : Application α).withHistory
      (r.undo.map fun step => some step.command)).Holds { r with redo := [] } waiting := by
  refine ⟨⟨h.matched.state, ?_, h.matched.done, h.matched.linked.clearRedo, ?_⟩, ?_⟩
  · rw [List.append_nil]
    rfl
  · exact (Nat.le_add_right _ _).trans h.matched.length_le
  · rw [pointers, List.append_nil]
    exact ⟨howns.nodup, howns.live, howns.allocated, howns.deleted, howns.inverts⟩

theorem Holds.trimHistory (h : s.Holds r waiting) :
    ∃ s', s.trimHistory = some s' ∧ s'.Holds { r with redo := [] } waiting ∧
      s'.allocated = s.allocated ∧ s'.manager.commands = s.manager.commands := by
  by_cases hundo : r.undo = []
  · have hgone : s.manager.history = (r.redo.map Undo.Step.command).map some := by
      rw [h.matched.history, hundo, List.nil_append, List.map_map]
      rfl
    obtain ⟨deleted, hdelete, howns⟩ := h.deleteUndone (List.Perm.refl _)
    refine ⟨_, ?_, h.cleared howns, rfl, rfl⟩
    rw [Application.trimHistory, if_neg (not_not.mpr (h.matched.historyPC_of_none_done hundo)),
      hgone, hdelete, Option.map_some, hundo]
    rfl
  · obtain ⟨hmax, hPC⟩ := h.matched.historyPC_of_done hundo
    obtain ⟨deleted, hdelete, howns⟩ := h.deleteFrom
    have hlength := h.matched.length_history
    have hempty : s.manager.history ≠ [] := by
      intro hnil
      rw [hnil, List.length_nil] at hlength
      omega
    refine ⟨_, ?_, h.cleared howns, rfl, rfl⟩
    rw [Application.trimHistory, if_pos hmax]
    dsimp only
    rw [if_neg hempty, hPC, hdelete, Option.map_some]
    dsimp only
    rw [List.takeD_eq_take _ (by omega), h.matched.take_history]

theorem Holds.popUndone (h : s.Holds r waiting) (hundo : r.undo ≠ []) :
    ∃ s', s.popUndone = some s' ∧ s'.Holds { r with redo := [] } waiting ∧
      s'.allocated = s.allocated ∧ s'.manager.commands = s.manager.commands := by
  obtain ⟨hmax, hPC⟩ := h.matched.historyPC_of_done hundo
  obtain ⟨deleted, hdelete, howns⟩ := h.deleteFrom
  have hlength := h.matched.length_history
  refine ⟨_, ?_, h.cleared howns, rfl, rfl⟩
  unfold Application.popUndone
  dsimp only
  rw [hPC, if_pos (by omega), hdelete, Option.map_some, h.matched.take_history]

/-! ## A new command -/

theorem rtake_eq_self {steps : List (Undo.Step α (CommandPtr α))} {n : ℕ} (h : steps.length ≤ n) :
    steps.rtake n = steps := by
  rw [List.rtake, Nat.sub_eq_zero_of_le h, List.drop_zero]

theorem execute_eq (hroom : r.undo.length < maxHistorySize.toNat) (cmd : CommandPtr α) :
    r.execute CommandPtr.run maxHistorySize.toNat cmd =
      { state := cmd.run r.state
        undo := r.undo ++ [{ command := cmd, before := r.state, after := cmd.run r.state }] } := by
  rw [Undo.Stack.execute, rtake_eq_self]
  rw [List.length_append, List.length_singleton]
  omega

/-- The undone commands are gone and there is room for another one. -/
theorem Holds.append {cmd : CommandPtr α} (h : s.Holds r (cmd :: waiting)) (hredo : r.redo = [])
    (hroom : r.undo.length < maxHistorySize.toNat) :
    (((s.withHistory (s.manager.history ++ [some cmd])).withPC (s.manager.historyPC + 1)).called cmd
      ReversibleCommand.redo).1.Holds (r.execute CommandPtr.run maxHistorySize.toNat cmd) waiting := by
  have hlinked : (r.execute CommandPtr.run maxHistorySize.toNat cmd).Linked CommandPtr.run :=
    h.matched.linked.execute cmd
  have hdone := h.matched.done
  rw [execute_eq hroom] at hlinked ⊢
  refine ⟨⟨?_, ?_, ?_, hlinked, ?_⟩, ?_⟩
  · change (cmd.object.redo s.state).2 = _
    rw [h.matched.state]
    rfl
  · change s.manager.history ++ [some cmd] = _
    rw [h.matched.history, hredo, List.append_nil, List.append_nil, List.map_append]
    rfl
  · refine (done_next (s := s) (by omega)).trans ?_
    rw [hdone, List.length_append]
    rfl
  · dsimp only
    rw [List.length_append, List.length_singleton]
    exact hroom
  · have howns := h.owns
    rw [pointers, hredo, List.append_nil, ← List.singleton_append, ← List.append_assoc] at howns
    rw [pointers, List.append_nil, List.map_append]
    exact ⟨howns.nodup, howns.live, howns.allocated, howns.deleted, howns.inverts⟩

theorem Holds.execute {cmd : CommandPtr α} (h : s.Holds r (cmd :: waiting))
    (hroom : r.undo.length < maxHistorySize.toNat) (hundone : r.undo = [] → r.redo = []) :
    ∃ result, s.doCmd (.execute cmd) = some result ∧
      result.1.Holds (r.execute CommandPtr.run maxHistorySize.toNat cmd) waiting ∧
      result.1.allocated = s.allocated ∧ result.1.manager.commands = s.manager.commands := by
  have hpop : ∃ s', (if s.manager.historyPC ≠ uint32Max then s.popUndone else some s) = some s' ∧
      s'.Holds { r with redo := [] } (cmd :: waiting) ∧ s'.allocated = s.allocated ∧
      s'.manager.commands = s.manager.commands := by
    by_cases hundo : r.undo = []
    · rw [if_neg (not_not.mpr (h.matched.historyPC_of_none_done hundo))]
      refine ⟨s, rfl, ?_, rfl, rfl⟩
      have heq : ({ r with redo := [] } : Undo.Stack α (CommandPtr α)) = r := by
        rw [← hundone hundo]
      rwa [heq]
    · rw [if_pos (h.matched.historyPC_of_done hundo).1]
      exact h.popUndone hundo
  obtain ⟨s', hs', hholds, hallocated, hcommands⟩ := hpop
  have hlive : cmd.address ∉ s'.deleted :=
    hholds.owns.live cmd (List.mem_append_right _ (List.mem_cons_self ..))
  have hfits : ¬ maxHistorySize ≤ s'.manager.historyPC + 1 := by
    rw [UInt32.le_iff_toNat_le, not_le]
    exact hholds.matched.done.trans_lt hroom
  refine ⟨_, ?_, hholds.append rfl hroom, hallocated, hcommands⟩
  rw [doCmd, Application.execute, hs', Option.bind_some]
  dsimp only [withHistory, withPC]
  rw [if_neg hfits, Option.bind_some]
  exact call_eq (s := (s'.withHistory (s'.manager.history ++ [some cmd])).withPC
    (s'.manager.historyPC + 1)) hlive _

/-! ## The queue -/

theorem fits_take {request : Cmd α} {commands : List (Cmd α)}
    (h : Fits r.undo.length r.redo.length (request :: commands)) :
    let r' := r.take CommandPtr.run maxHistorySize.toNat request.request
    Fits r'.undo.length r'.redo.length commands := by
  cases request with
  | undo =>
      rcases r.undo.eq_nil_or_concat' with hundo | ⟨steps, step, hundo⟩
      · change Fits r.cancel.undo.length r.cancel.redo.length commands
        rw [Undo.Stack.cancel_of_nil hundo]
        rw [Fits, hundo, if_pos List.length_nil] at h
        rw [hundo]
        exact h
      · change Fits r.cancel.undo.length r.cancel.redo.length commands
        rw [Undo.Stack.cancel_eq hundo]
        rw [Fits, hundo, List.length_append, List.length_singleton,
          if_neg (Nat.succ_ne_zero _)] at h
        exact h
  | redo =>
      change Fits r.again.undo.length r.again.redo.length commands
      cases hredo : r.redo with
      | nil =>
          rw [Undo.Stack.again_of_nil hredo, hredo]
          rwa [Fits, hredo, if_pos List.length_nil] at h
      | cons step rest =>
          rw [Undo.Stack.again_eq hredo]
          rw [Fits, hredo, List.length_cons, if_neg (Nat.succ_ne_zero _)] at h
          dsimp only
          rwa [List.length_append]
  | execute cmd =>
      obtain ⟨hroom, -, hrest⟩ := h
      intro r'
      have hr' : r' = _ := execute_eq hroom cmd
      rw [hr']
      dsimp only
      rwa [List.length_append]

theorem Fits.front {done undone : ℕ} {commands commands' : List (Cmd α)}
    (h : Fits done undone (commands ++ commands')) : Fits done undone commands := by
  induction commands generalizing done undone with
  | nil => trivial
  | cons request commands ih =>
      cases request with
      | undo => exact ih h
      | redo => exact ih h
      | execute cmd => exact ⟨h.1, h.2.1, ih h.2.2⟩

theorem Fits.back {commands commands' : List (Cmd α)}
    (h : Fits r.undo.length r.redo.length (commands ++ commands')) :
    let r' := (commands.map Cmd.request).foldl
      (Undo.Stack.take CommandPtr.run maxHistorySize.toNat) r
    Fits r'.undo.length r'.redo.length commands' := by
  induction commands generalizing r with
  | nil => exact h
  | cons request commands ih => exact ih (fits_take h)

theorem Fits.last {commands : List (Cmd α)} {cmd : CommandPtr α}
    (h : Fits r.undo.length r.redo.length (commands ++ [.execute cmd])) :
    let r' := (commands.map Cmd.request).foldl
      (Undo.Stack.take CommandPtr.run maxHistorySize.toNat) r
    r'.undo.length < maxHistorySize.toNat ∧ (r'.undo = [] → r'.redo = []) := by
  intro r'
  obtain ⟨hroom, hundone, -⟩ := h.back
  refine ⟨hroom, fun hundo => List.length_eq_zero_iff.mp (hundone ?_)⟩
  rw [← List.length_eq_zero_iff] at hundo
  exact hundo

theorem Holds.run {commands : List (Cmd α)}
    (h : s.Holds r (commands.filterMap Cmd.pointer ++ waiting))
    (hfits : Fits r.undo.length r.redo.length commands) :
    ∃ result, Steps.run doCmd s commands = some result ∧
      result.1.Holds ((commands.map Cmd.request).foldl
        (Undo.Stack.take CommandPtr.run maxHistorySize.toNat) r) waiting ∧
      result.1.allocated = s.allocated := by
  induction commands generalizing s r with
  | nil => exact ⟨(s, []), rfl, h, rfl⟩
  | cons request commands ih =>
      have hstep : ∃ result, s.doCmd request = some result ∧
          result.1.Holds (r.take CommandPtr.run maxHistorySize.toNat request.request)
            (commands.filterMap Cmd.pointer ++ waiting) ∧ result.1.allocated = s.allocated := by
        cases request with
        | undo => exact h.cancel
        | redo => exact h.again
        | execute cmd =>
            obtain ⟨result, hresult, hholds, hallocated, -⟩ := h.execute hfits.1 fun hundo =>
              List.length_eq_zero_iff.mp (hfits.2.1 (by rw [hundo]; rfl))
            exact ⟨result, hresult, hholds, hallocated⟩
      obtain ⟨q, hq, hholds, hallocated⟩ := hstep
      obtain ⟨rest, hrest, hholds', hallocated'⟩ := ih hholds (fits_take hfits)
      refine ⟨(rest.1, q.2 :: rest.2), ?_, hholds', hallocated'.trans hallocated⟩
      rw [Steps.run_cons hq, hrest, Option.map_some]

theorem Holds.withCommands (h : s.Holds r waiting) (commands : List (Cmd α)) :
    (s.withCommands commands).Holds r waiting :=
  ⟨⟨h.matched.state, h.matched.history, h.matched.done, h.matched.linked, h.matched.length_le⟩,
    h.owns.nodup, h.owns.live, h.owns.allocated, h.owns.deleted, h.owns.inverts⟩

theorem Holds.processCommands
    (h : s.Holds r (s.manager.commands.filterMap Cmd.pointer ++ waiting))
    (hfits : Fits r.undo.length r.redo.length s.manager.commands) :
    ∃ s', s.processCommands = some s' ∧
      s'.Holds ((s.manager.commands.map Cmd.request).foldl
        (Undo.Stack.take CommandPtr.run maxHistorySize.toNat) r) waiting ∧
      s'.allocated = s.allocated ∧ s'.manager.commands = [] := by
  obtain ⟨result, hrun, hholds, hallocated⟩ := h.run hfits
  refine ⟨_, ?_, hholds.withCommands [], hallocated, rfl⟩
  rw [Application.processCommands, hrun, Option.map_some]

/-! ## Requests -/

/-- What is done, and what waits in the queue, leads to the reference. -/
structure Tracks (s : Application α) (reference : UndoReference α) : Prop where
  between : ∃ r, s.Holds r (s.manager.commands.filterMap Cmd.pointer) ∧
    reference.1 = (s.manager.commands.map Cmd.request).foldl
      (Undo.Stack.take CommandPtr.run maxHistorySize.toNat) r
  allocated : reference.2 = s.allocated

theorem tracks_initial (a : α) : ({ state := a } : Application α).Tracks ({ state := a }, 0) where
  between := by
    refine ⟨{ state := a }, ⟨⟨rfl, rfl, historyPC_eq_iff.mp rfl, Undo.Stack.linked_initial a,
      Nat.zero_le _⟩, ?_⟩, rfl⟩
    exact ⟨List.nodup_nil, nofun, nofun, nofun, nofun⟩
  allocated := rfl

theorem Holds.sound (h : s.Holds r waiting) : s.Sound where
  live entry hentry := by
    rw [h.matched.history] at hentry
    obtain ⟨step, hstep, rfl⟩ := List.mem_map.mp hentry
    exact ⟨step.command, rfl,
      h.owns.live _ (List.mem_append_left _ (List.mem_map_of_mem hstep))⟩
  position := by
    by_cases hundo : r.undo = []
    · exact Or.inl (h.matched.historyPC_of_none_done hundo)
    · have := (h.matched.historyPC_of_done hundo).2
      have := h.matched.length_history
      exact Or.inr (by omega)

theorem Tracks.follows {reference : UndoReference α} (h : s.Tracks reference) :
    s.Follows reference.1 := by
  obtain ⟨r, hholds, hreference⟩ := h.between
  have heq : s.manager.commands = [] → reference.1 = r := fun hempty => by
    rw [hreference, hempty]
    rfl
  refine ⟨hholds.sound, fun hempty => ?_, fun hempty => ?_, fun hempty => ?_⟩
  · rw [heq hempty, hholds.matched.state]
  · rw [heq hempty, hholds.matched.done, hholds.matched.take_history]
  · rw [heq hempty, hholds.matched.done, hholds.matched.drop_history]

/-- A request that waits. -/
theorem Tracks.push {reference : UndoReference α} (h : s.Tracks reference) {request : Cmd α}
    (hrequest : request.pointer = none) :
    (s.withCommands (s.manager.commands ++ [request])).Tracks
      (reference.1.take CommandPtr.run maxHistorySize.toNat request.request, reference.2) := by
  obtain ⟨r, hholds, hreference⟩ := h.between
  refine ⟨⟨r, ?_, ?_⟩, h.allocated⟩
  · change (s.withCommands _).Holds r ((s.manager.commands ++ [request]).filterMap Cmd.pointer)
    rw [List.filterMap_append, List.filterMap_cons_none hrequest, List.filterMap_nil,
      List.append_nil]
    exact hholds.withCommands _
  · change _ = ((s.manager.commands ++ [request]).map Cmd.request).foldl _ r
    rw [List.map_append, List.foldl_append, ← hreference]
    rfl


theorem Owns.allocate {command : ReversibleCommand α} {owned : List (CommandPtr α)}
    (h : s.Owns owned) (hinverts : command.Inverts) :
    ({ s with allocated := s.allocated + 1 } : Application α).Owns
      (owned ++ [{ address := s.allocated, object := command }]) where
  nodup := by
    rw [List.map_append, List.nodup_append]
    refine ⟨h.nodup, List.nodup_singleton _, ?_⟩
    intro address hmem address' hmem'
    obtain ⟨cmd, hcmd, rfl⟩ := List.mem_map.mp hmem
    obtain rfl := List.mem_singleton.mp hmem'
    exact (h.allocated cmd hcmd).ne
  live cmd hcmd := by
    rcases List.mem_append.mp hcmd with hcmd | hcmd
    · exact h.live cmd hcmd
    · obtain rfl := List.mem_singleton.mp hcmd
      exact fun hmem => (h.deleted _ hmem).ne rfl
  allocated cmd hcmd := by
    rcases List.mem_append.mp hcmd with hcmd | hcmd
    · exact (h.allocated cmd hcmd).trans (Nat.lt_succ_self _)
    · obtain rfl := List.mem_singleton.mp hcmd
      exact Nat.lt_succ_self _
  deleted address hmem := (h.deleted address hmem).trans (Nat.lt_succ_self _)
  inverts cmd hcmd := by
    rcases List.mem_append.mp hcmd with hcmd | hcmd
    · exact h.inverts cmd hcmd
    · obtain rfl := List.mem_singleton.mp hcmd
      exact hinverts

/-- The pending requests and a new command lead to the same stacks without the undone steps. -/
theorem foldl_clearRedo (requests : List (Undo.Request (CommandPtr α)))
    (hleaves : r.redo ≠ [] → Undo.LeavesUndone r.undo.length r.undo.length requests)
    (cmd : CommandPtr α) :
    (requests.foldl (Undo.Stack.take CommandPtr.run maxHistorySize.toNat) r).take CommandPtr.run
        maxHistorySize.toNat (.execute cmd) =
      (requests.foldl (Undo.Stack.take CommandPtr.run maxHistorySize.toNat)
        { r with redo := [] }).take CommandPtr.run maxHistorySize.toNat (.execute cmd) := by
  by_cases hredo : r.redo = []
  · have heq : ({ r with redo := [] } : Undo.Stack α (CommandPtr α)) = r := by rw [← hredo]
    rw [heq]
  · exact (r.extends_clearRedo.foldl (Nat.add_zero _) (hleaves hredo)).execute cmd

theorem Tracks.execute {reference : UndoReference α} (h : s.Tracks reference)
    {command : ReversibleCommand α} {syncType : SyncType}
    (horder : s.InOrder (.execute command syncType)) (hrecorded : Recorded (.execute command syncType)) :
    ∃ result, s.step (.execute command syncType) = some result ∧
      result.1.Tracks (reference.take (.execute command syncType)) := by
  obtain ⟨r, hholds, hreference⟩ := h.between
  obtain ⟨hleaves, hfits⟩ := horder
  obtain ⟨hinverts, hforce⟩ := hrecorded
  have hlength := hholds.matched.length_history
  have hdone := hholds.matched.done
  have hcmd : ({ s with allocated := s.allocated + 1 } : Application α).Holds r
      (s.manager.commands.filterMap Cmd.pointer ++
        [{ address := s.allocated, object := command }]) := by
    refine ⟨⟨hholds.matched.state, hholds.matched.history, hdone, hholds.matched.linked,
      hholds.matched.length_le⟩, ?_⟩
    have howns := hholds.owns.allocate hinverts
    rwa [List.append_assoc] at howns
  obtain ⟨s', htrim, hholds', hallocated, hcommands⟩ := hcmd.trimHistory
  have htake := foldl_clearRedo (r := r) (s.manager.commands.map Cmd.request)
    (fun hredo => by
      rw [← hdone]
      apply hleaves
      have := List.length_pos_iff.mpr hredo
      omega) { address := s.allocated, object := command }
  rw [← hreference, ← h.allocated, ← UndoReference.take_execute reference command syncType] at htake
  have hstep : s.step (.execute command syncType) =
      s'.executeImpl ⟨s.allocated, command⟩ syncType := by
    rw [step, htrim, Option.bind_some]
  rw [hstep]
  cases syncType with
  | force => exact absurd rfl hforce
  | async =>
      refine ⟨_, rfl, ⟨{ r with redo := [] }, ?_, ?_⟩, ?_⟩
      · change (s'.withCommands _).Holds _ ((s'.manager.commands ++ [_]).filterMap Cmd.pointer)
        rw [hcommands, List.filterMap_append]
        exact hholds'.withCommands _
      · change _ = ((s'.manager.commands ++ [_]).map Cmd.request).foldl _ _
        rw [htake, hcommands, List.map_append, List.foldl_append, h.allocated]
        rfl
      · exact (congrArg (· + 1) h.allocated).trans hallocated.symm
  | sync =>
      have hfits := hfits rfl
      rw [hdone] at hfits
      rw [← hcommands] at hholds' hfits htake
      obtain ⟨s'', hprocess, hholds'', hallocated', hempty⟩ := hholds'.processCommands hfits.front
      obtain ⟨hroom, hundone⟩ := Fits.last (r := { r with redo := [] }) hfits
      obtain ⟨result, hexecute, hfinal, hallocated'', hcommands''⟩ := hholds''.execute hroom hundone
      rw [hempty] at hcommands''
      have hresult : s'.executeImpl ⟨s.allocated, command⟩ .sync = some result := by
        rw [executeImpl, hprocess, Option.bind_some, hexecute]
      rw [← List.filterMap_nil (f := Cmd.pointer), ← hcommands''] at hfinal
      refine ⟨result, hresult, ⟨_, hfinal, ?_⟩, ?_⟩
      · rw [htake, hcommands'', List.map_nil, List.foldl_nil, h.allocated]
        rfl
      · exact (congrArg (· + 1) h.allocated).trans
          (hallocated''.trans (hallocated'.trans hallocated)).symm

theorem Tracks.step {reference : UndoReference α} (h : s.Tracks reference)
    {request : CommandRequest α} (horder : s.InOrder request) (hrecorded : Recorded request) :
    ∃ result, s.step request = some result ∧ result.1.Tracks (reference.take request) := by
  cases request with
  | execute command syncType => exact h.execute horder hrecorded
  | cancel => exact ⟨_, rfl, h.push rfl⟩
  | redo => exact ⟨_, rfl, h.push rfl⟩
  | update =>
      obtain ⟨r, hholds, hreference⟩ := h.between
      have hfits : Fits r.undo.length r.redo.length s.manager.commands := by
        have hlength := hholds.matched.length_history
        have hdone := hholds.matched.done
        have hundone : s.manager.history.length - s.done = r.redo.length := by omega
        rw [← hdone, ← hundone]
        exact horder
      have hholds : s.Holds r (s.manager.commands.filterMap Cmd.pointer ++ []) := by
        rwa [List.append_nil]
      obtain ⟨s', hprocess, hholds', hallocated, hempty⟩ := hholds.processCommands hfits
      rw [← List.filterMap_nil (f := Cmd.pointer), ← hempty] at hholds'
      refine ⟨(s', true), ?_, ⟨_, hholds', ?_⟩, h.allocated.trans hallocated.symm⟩
      · rw [Application.step, hprocess, Option.map_some]
      · rw [hempty]
        exact hreference

/-- While requests are handled in order, undo and redo follow the two stacks. -/
theorem follows_of_inOrder (a : α) {requests : List (CommandRequest α)}
    (hrecorded : ∀ request ∈ requests, Recorded request)
    (h : Steps.Along Application.step InOrder ({ state := a } : Application α) requests) :
    ∃ result, Steps.run Application.step ({ state := a } : Application α) requests = some result ∧
      result.1.Follows (UndoReference.run a requests) := by
  have hrun : ∀ {s : Application α} {reference : UndoReference α}, s.Tracks reference →
      Steps.Along Application.step InOrder s requests →
      ∃ result, Steps.run Application.step s requests = some result ∧
        result.1.Tracks (requests.foldl UndoReference.take reference) := by
    clear h
    induction requests with
    | nil => exact fun {s} {reference} hs _ => ⟨(s, []), rfl, hs⟩
    | cons request requests ih =>
        rintro s reference hs ⟨horder, hrest⟩
        obtain ⟨result, hresult, htracks⟩ := hs.step horder (hrecorded _ (List.mem_cons_self ..))
        obtain ⟨rest, hrun, htracks'⟩ := ih (fun request hmem =>
          hrecorded request (List.mem_cons_of_mem _ hmem)) htracks (hrest result hresult)
        exact ⟨(rest.1, result.2 :: rest.2), by rw [Steps.run_cons hresult, hrun, Option.map_some],
          htracks'⟩
  obtain ⟨result, hresult, htracks⟩ := hrun (tracks_initial a) h
  exact ⟨result, hresult, htracks.follows⟩

/-- A command of the examples, on a number as the state. -/
def addCommand (n : ℤ) : ReversibleCommand ℤ :=
  .simple [97] (fun a => (true, a + n)) fun a => (true, a - n)

theorem inverts_addCommand (n : ℤ) : (addCommand n).Inverts := fun a => Int.add_sub_cancel a n

/-- A command, and a group that is undone in the same queue. -/
theorem follows_of_inOrder_sample :
    let requests : List (CommandRequest ℤ) := [.execute (addCommand 1) .sync,
      .execute (.group [addCommand 2, addCommand 3]) .async, .cancel, .update]
    Steps.Along Application.step InOrder ({ state := 0 } : Application ℤ) requests ∧
      ∃ result, Steps.run Application.step ({ state := 0 } : Application ℤ) requests = some result ∧
        result.1.Follows (UndoReference.run 0 requests) := by
  intro requests
  have hrecorded : ∀ request ∈ requests, Recorded request := by
    intro request hmem
    simp only [requests, List.mem_cons, List.not_mem_nil, or_false] at hmem
    rcases hmem with rfl | rfl | rfl | rfl
    · exact ⟨inverts_addCommand 1, nofun⟩
    · exact ⟨⟨inverts_addCommand 2, inverts_addCommand 3, trivial⟩, nofun⟩
    · trivial
    · trivial
  have h : Steps.Along Application.step InOrder ({ state := 0 } : Application ℤ) requests := by
    refine ⟨⟨fun hlt => absurd hlt (by decide), fun _ => ⟨by decide, by decide, trivial⟩⟩, ?_⟩
    rintro _ ⟨⟩
    refine ⟨⟨fun hlt => absurd hlt (by decide), nofun⟩, ?_⟩
    rintro _ ⟨⟩
    refine ⟨trivial, ?_⟩
    rintro _ ⟨⟩
    exact ⟨⟨by decide, by decide, trivial⟩, fun _ _ => trivial⟩
  exact ⟨h, follows_of_inOrder 0 hrecorded h⟩

/-- A redo that waits is lost when a command is requested. A command that is executed while all
of the history is undone is put behind it, and the next undo takes the wrong one. -/
theorem not_follows :
    let lost : List (CommandRequest ℤ) := [.execute (addCommand 1) .async, .cancel, .update, .redo,
      .execute (addCommand 10) .async, .update]
    let misplaced : List (CommandRequest ℤ) := [.execute (addCommand 1) .sync, .cancel,
      .execute (addCommand 10) .async, .cancel, .update]
    ∀ requests ∈ [lost, misplaced],
      ¬ ∃ result, Steps.run Application.step ({ state := 0 } : Application ℤ) requests = some result ∧
        result.1.Follows (UndoReference.run 0 requests) := by
  intro lost misplaced requests hmem
  have hstates : ∀ requests ∈ [lost, misplaced],
      (Steps.run Application.step ({ state := 0 } : Application ℤ) requests).all fun r =>
        r.1.manager.commands.isEmpty && r.1.state != (UndoReference.run 0 requests).state := by
    decide +kernel
  rintro ⟨result, hrun, hfollows⟩
  have hstate := hstates requests hmem
  rw [hrun, Option.all_some, Bool.and_eq_true, bne_iff_ne] at hstate
  exact hstate.2 (hfollows.state (List.isEmpty_iff.mp hstate.1))

end Application

end SRCommon
