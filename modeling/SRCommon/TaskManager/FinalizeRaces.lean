import Mathlib.Data.List.Chain
import SRCommon.TaskManager.FinalizeOrder

/-!
# Finalizers that overlap

A worker that has nothing in hand can always get to the next name that it has
a state of. From this come runs in which a second worker, or `Stop`, goes on
while a finalizer is not done.
-/

namespace SRCommon

open StopEvent Relation

/-- The worker takes the first name of the list. -/
def RunningThreads.afterPop (s : RunningThreads) (worker i : ℕ) : RunningThreads :=
  { s with finalize := s.finalize.tail }.setPhase worker (.popped i)

theorem RunningThreads.setPhase_setPhase (s : RunningThreads) (worker : ℕ)
    (phase phase' : WorkPhase) :
    (s.setPhase worker phase).setPhase worker phase' = s.setPhase worker phase' := by
  simp only [setPhase, Function.update_idem]

theorem RunningThreads.afterPop_setPhase (s : RunningThreads) (worker i : ℕ) (phase : WorkPhase) :
    (s.setPhase worker phase).afterPop worker i = s.afterPop worker i :=
  setPhase_setPhase { s with finalize := s.finalize.tail } worker phase (.popped i)

namespace FinalizedThreads

/-- The worker has no name in hand. -/
def Free (s : RunningThreads) (worker : ℕ) : Prop :=
  s.phase worker = .head ∨ s.phase worker = .active ∨ ∃ i, s.phase worker = .check i

/-- `Stop` has cleared `m_isAlive` and all workers are free. -/
structure Waiting (s : RunningThreads) : Prop where
  isAlive : s.isAlive = false
  isActive : ∀ worker, s.isActive worker = true
  free : ∀ worker, Free s worker
  stop : s.stop = .waiting

variable {this : FinalizedThreads} {s s' : RunningThreads} {worker worker' i j : ℕ}
  {name name' : Text} {rest : List Text}

theorem phase_record {event : StopEvent} : (s.record event).phase = s.phase := rfl

theorem phase_afterPop_of_ne (h : worker' ≠ worker) :
    (s.afterPop worker i).phase worker' = s.phase worker' :=
  phase_setPhase_of_ne h

/-! ## Single steps of a worker -/

theorem next_work (worker : ℕ) (h : this.work s worker = some s') : this.Next s s' :=
  ⟨.work worker, h⟩

theorem next_head (hworker : worker < this.threadWorkers.length)
    (hactive : s.isActive worker = true) (hphase : s.phase worker = .head) :
    this.Next s (s.setPhase worker .active) :=
  next_work worker (by rw [work, if_pos hworker, hphase, hactive]; rfl)

theorem next_active (hworker : worker < this.threadWorkers.length) (halive : s.isAlive = false)
    (hphase : s.phase worker = .active) : this.Next s (s.setPhase worker (.check 0)) :=
  next_work worker (by rw [work, if_pos hworker, hphase, halive]; rfl)

theorem next_check_end (hworker : worker < this.threadWorkers.length)
    (hphase : s.phase worker = .check i) (hend : this.stateName worker i = none) :
    this.Next s (s.setPhase worker .head) :=
  next_work worker (by simp only [work, if_pos hworker, hphase, hend, Option.elim_none])

theorem next_check_pop (hphase : s.phase worker = .check i)
    (hname : this.stateName worker i = some name) (hfront : s.finalize = name :: rest) :
    this.Next s (s.afterPop worker i) := by
  apply next_work worker
  simp only [work, if_pos (lt_of_stateName this hname), hphase, hname, Option.elim_some, hfront,
    checkFinalize_cons, if_true, RunningThreads.afterPop, List.tail_cons]

theorem next_check_other (hphase : s.phase worker = .check i)
    (hname : this.stateName worker i = some name') (hfront : s.finalize = name :: rest)
    (hne : name ≠ name') : this.Next s (s.setPhase worker (.check (i + 1))) := by
  apply next_work worker
  have hcheck : checkFinalize name' s.finalize = (false, s.finalize) := by
    rw [hfront]
    exact if_neg hne
  simp only [work, if_pos (lt_of_stateName this hname), hphase, hname, Option.elim_some, hcheck,
    Bool.false_eq_true, if_false]

theorem next_begin (hphase : s.phase worker = .popped i)
    (hname : this.stateName worker i = some name) :
    this.Next s ((s.record (finalizeBegin name)).setPhase worker (.finalizing i)) := by
  apply next_work worker
  simp only [work, if_pos (lt_of_stateName this hname), hphase, hname, Option.map_some]

theorem next_end (hphase : s.phase worker = .finalizing i)
    (hname : this.stateName worker i = some name) :
    this.Next s ((s.record (finalizeEnd name)).setPhase worker (.check (i + 1))) := by
  apply next_work worker
  simp only [work, if_pos (lt_of_stateName this hname), hphase, hname, Option.map_some]

/-! ## The way to the next name -/

theorem HasState.lt (h : this.HasState worker name) : worker < this.threadWorkers.length := by
  obtain ⟨i, hname⟩ := h
  exact lt_of_stateName this hname

theorem stateName_of_le (h : this.stateName worker j = some name) (hle : i ≤ j) :
    ∃ name', this.stateName worker i = some name' := by
  obtain ⟨w, hw, hstate⟩ := Option.bind_eq_some_iff.mp h
  obtain ⟨state, hstate, -⟩ := Option.map_eq_some_iff.mp hstate
  have hlt : i < w.states.length := hle.trans_lt (List.getElem?_eq_some_iff.mp hstate).1
  refine ⟨w.states[i].name, ?_⟩
  rw [stateName, hw, Option.bind_some, List.getElem?_eq_getElem hlt]
  rfl

theorem exists_stateName_none (this : FinalizedThreads) (worker i : ℕ) :
    ∃ d, this.stateName worker (i + d) = none := by
  cases hw : this.threadWorkers[worker]? with
  | none => exact ⟨0, by rw [stateName, hw]; rfl⟩
  | some w =>
      refine ⟨w.states.length, ?_⟩
      rw [stateName, hw, Option.bind_some, List.getElem?_eq_none (Nat.le_add_left _ _)]
      rfl

variable (this) in
/-- The worker can get to hold the first name. -/
def CanPop (s : RunningThreads) (worker : ℕ) (name : Text) : Prop :=
  ∃ i, this.stateName worker i = some name ∧ this.Runs s (s.afterPop worker i)

theorem CanPop.of_next (phase : WorkPhase) (hnext : this.Next s (s.setPhase worker phase))
    (h : this.CanPop (s.setPhase worker phase) worker name) : this.CanPop s worker name := by
  obtain ⟨i, hname, hruns⟩ := h
  rw [RunningThreads.afterPop_setPhase] at hruns
  exact ⟨i, hname, .head hnext hruns⟩

/-- The state is ahead in the loop over the states. -/
theorem canPop_of_ahead (d : ℕ) (hphase : s.phase worker = .check i)
    (hname : this.stateName worker (i + d) = some name) (hfront : s.finalize = name :: rest) :
    this.CanPop s worker name := by
  induction d generalizing s i with
  | zero => exact ⟨i, hname, .single (next_check_pop hphase hname hfront)⟩
  | succ d ih =>
      obtain ⟨name', hname'⟩ := stateName_of_le hname (Nat.le_add_right i (d + 1))
      by_cases hne : name = name'
      · exact ⟨i, hne ▸ hname', .single (next_check_pop hphase (hne ▸ hname') hfront)⟩
      · refine .of_next _ (next_check_other hphase hname' hfront hne) ?_
        refine ih (i := i + 1) phase_setPhase_self ?_ hfront
        rwa [Nat.add_assoc, Nat.add_comm 1 d]

theorem canPop_of_head (halive : s.isAlive = false) (hactive : s.isActive worker = true)
    (hphase : s.phase worker = .head) (hfront : s.finalize = name :: rest)
    (hstate : this.HasState worker name) : this.CanPop s worker name := by
  obtain ⟨i, hname⟩ := hstate
  have hworker := lt_of_stateName this hname
  refine .of_next _ (next_head hworker hactive hphase) (.of_next (.check 0) ?_ ?_)
  · exact next_active hworker halive phase_setPhase_self
  · refine canPop_of_ahead (i := 0) i phase_setPhase_self ?_ hfront
    rwa [Nat.zero_add]

/-- From wherever the worker is in the loop, at the latest after the end of it. -/
theorem canPop_of_check (d : ℕ) (halive : s.isAlive = false) (hactive : s.isActive worker = true)
    (hphase : s.phase worker = .check i) (hend : this.stateName worker (i + d) = none)
    (hfront : s.finalize = name :: rest) (hstate : this.HasState worker name) :
    this.CanPop s worker name := by
  have hworker := hstate.lt
  have hlast (hnone : this.stateName worker i = none) : this.CanPop s worker name :=
    .of_next _ (next_check_end hworker hphase hnone)
      (canPop_of_head halive hactive phase_setPhase_self hfront hstate)
  induction d generalizing s i with
  | zero => exact hlast hend
  | succ d ih =>
      cases hname' : this.stateName worker i with
      | none => exact hlast hname'
      | some name' =>
          by_cases hne : name = name'
          · exact ⟨i, hne ▸ hname', .single (next_check_pop hphase (hne ▸ hname') hfront)⟩
          · refine .of_next _ (next_check_other hphase hname' hfront hne) ?_
            refine ih (i := i + 1) halive hactive phase_setPhase_self ?_ hfront fun hnone => ?_
            · rwa [Nat.add_assoc, Nat.add_comm 1 d]
            · exact .of_next _ (next_check_end hworker phase_setPhase_self hnone)
                (canPop_of_head halive hactive phase_setPhase_self hfront hstate)

theorem Free.canPop (h : Free s worker) (halive : s.isAlive = false)
    (hactive : s.isActive worker = true) (hfront : s.finalize = name :: rest)
    (hstate : this.HasState worker name) : this.CanPop s worker name := by
  have hworker := hstate.lt
  rcases h with hphase | hphase | ⟨i, hphase⟩
  · exact canPop_of_head halive hactive hphase hfront hstate
  · obtain ⟨i, hname⟩ := hstate
    refine .of_next _ (next_active hworker halive hphase) ?_
    refine canPop_of_ahead (i := 0) i phase_setPhase_self ?_ hfront
    rwa [Nat.zero_add]
  · obtain ⟨d, hend⟩ := exists_stateName_none this worker i
    exact canPop_of_check d halive hactive hphase hend hfront hstate

theorem Waiting.canPop (h : Waiting s) (hfront : s.finalize = name :: rest)
    (hstate : this.HasState worker name) : this.CanPop s worker name :=
  (h.free worker).canPop h.isAlive (h.isActive worker) hfront hstate

/-! ## Finalizers one after the other -/

/-- A worker finalizes the first name of the list while the others rest. -/
theorem Waiting.exists_finalized (h : Waiting s) (hfront : s.finalize = name :: rest)
    (hstate : this.HasState worker name) :
    ∃ s', this.Runs s s' ∧ Waiting s' ∧ s'.finalize = rest ∧
      s'.log = s.log ++ [finalizeBegin name, finalizeEnd name] := by
  obtain ⟨i, hname, hpop⟩ := h.canPop hfront hstate
  have hbegin := next_begin (s := s.afterPop worker i) phase_setPhase_self hname
  have hend := next_end (s := ((s.afterPop worker i).record (finalizeBegin name)).setPhase worker
    (.finalizing i)) phase_setPhase_self hname
  refine ⟨_, (hpop.tail hbegin).tail hend, ?_, ?_, ?_⟩
  · refine ⟨h.isAlive, h.isActive, fun w => ?_, h.stop⟩
    by_cases hw : w = worker
    · subst hw
      exact .inr (.inr ⟨i + 1, phase_setPhase_self⟩)
    · rw [Free, phase_setPhase_of_ne hw, phase_record, phase_setPhase_of_ne hw, phase_record,
        phase_afterPop_of_ne hw]
      exact h.free w
  · exact congrArg List.tail hfront
  · exact List.append_assoc _ _ _

theorem Waiting.exists_all_finalized {names : List Text} (h : Waiting s)
    (hfinalize : s.finalize = names ++ rest) (hstates : ∀ name ∈ names, this.isState name = true) :
    ∃ s', this.Runs s s' ∧ Waiting s' ∧ s'.finalize = rest ∧
      ∀ name, finalizeEnd name ∈ s'.log → finalizeEnd name ∈ s.log ∨ name ∈ names := by
  induction names generalizing s with
  | nil => exact ⟨s, .refl, h, hfinalize, fun name hname => .inl hname⟩
  | cons first names ih =>
      rw [List.forall_mem_cons] at hstates
      obtain ⟨worker, hworker⟩ := (isState_iff this).mp hstates.1
      obtain ⟨s₁, hruns₁, hwaiting₁, hfinalize₁, hlog₁⟩ := h.exists_finalized hfinalize hworker
      obtain ⟨s₂, hruns₂, hwaiting₂, hfinalize₂, hlog₂⟩ := ih hwaiting₁ hfinalize₁ hstates.2
      refine ⟨s₂, hruns₁.trans hruns₂, hwaiting₂, hfinalize₂, fun name hname => ?_⟩
      rcases hlog₂ name hname with hended | hmem
      · rw [hlog₁] at hended
        have hended : finalizeEnd name ∈ s.log ∨ name = first := by simpa using hended
        rcases hended with hended | rfl
        · exact .inl hended
        · exact .inr List.mem_cons_self
      · exact .inr (List.mem_cons_of_mem first hmem)

/-- `Stop` clears the flag before any worker has done anything. -/
theorem exists_waiting (this : FinalizedThreads) {names : List Text}
    (hfinalize : this.finalize = names ++ rest)
    (hstates : ∀ name ∈ names, this.isState name = true) :
    ∃ s, this.Runs this.start s ∧ Waiting s ∧ s.finalize = rest ∧
      ∀ name, finalizeEnd name ∈ s.log → name ∈ names := by
  have hstop : this.Next this.start { this.start with isAlive := false, stop := .waiting } :=
    ⟨.stop, rfl⟩
  have hwaiting : Waiting { this.start with isAlive := false, stop := .waiting } :=
    ⟨rfl, fun _ => rfl, fun _ => .inl rfl, rfl⟩
  obtain ⟨s, hruns, hs, hrest, hlog⟩ := hwaiting.exists_all_finalized hfinalize hstates
  refine ⟨s, .head hstop hruns, hs, hrest, fun name hname => ?_⟩
  rcases hlog name hname with hended | hmem
  · cases hended
  · exact hmem

/-- A second worker begins while the first has an earlier name in hand. -/
theorem exists_overlap (this : FinalizedThreads) {names : List Text}
    (hfinalize : this.finalize = names ++ name :: name' :: rest)
    (hstates : ∀ name ∈ names, this.isState name = true) (hworker : this.HasState worker name)
    (hworker' : this.HasState worker' name') (hne : worker ≠ worker') :
    ∃ s, this.Runs this.start s ∧ ¬ InOrder this.finalize s.log := by
  obtain ⟨s, hruns, hs, hrest, hlog⟩ := exists_waiting this hfinalize hstates
  obtain ⟨i, -, hpop⟩ := hs.canPop hrest hworker
  have hrest' : (s.afterPop worker i).finalize = name' :: rest := congrArg List.tail hrest
  have hfree : Free (s.afterPop worker i) worker' := by
    rw [Free, phase_afterPop_of_ne hne.symm]
    exact hs.free worker'
  obtain ⟨j, hname', hruns'⟩ := hfree.canPop hs.isAlive (hs.isActive worker') hrest' hworker'
  have hbegin := next_begin (s := (s.afterPop worker i).afterPop worker' j) phase_setPhase_self
    hname'
  refine ⟨_, ((hruns.trans hpop).trans hruns').tail hbegin, fun horder => ?_⟩
  have hended := horder.afterEarlier s.log name' List.prefix_rfl name ?_
  · have hnodup := this.nodup
    rw [hfinalize, List.nodup_append] at hnodup
    exact hnodup.2.2 name (hlog name hended) name List.mem_cons_self rfl
  · rw [hfinalize]
    exact (List.Sublist.cons_cons name (List.Sublist.cons_cons name' (List.nil_sublist rest))).trans
      (List.sublist_append_right _ _)

theorem exists_deactivated (hlength : 0 < this.threadWorkers.length) (hwaiting : s.stop = .waiting)
    (hempty : s.finalize = []) :
    ∃ s', this.Runs s s' ∧ s'.log = s.log ++ [deactivate 0] := by
  have hseen : this.Next s { s with stop := .deactivate 0 } := by
    refine ⟨.stop, ?_⟩
    simp only [step, FinalizedThreads.stop, hwaiting, hempty, if_true]
  exact ⟨_, .head hseen (.single ⟨.stop, if_pos hlength⟩), rfl⟩

/-- `Stop` sees the empty list while the last name is being finalized. -/
theorem exists_early_stop (this : FinalizedThreads) {names : List Text}
    (hfinalize : this.finalize = names ++ [name])
    (hstates : ∀ name ∈ names, this.isState name = true) (hworker : this.HasState worker name) :
    ∃ s, this.Runs this.start s ∧ ¬ InOrder this.finalize s.log := by
  obtain ⟨s, hruns, hs, hrest, hlog⟩ := exists_waiting this hfinalize hstates
  obtain ⟨i, hname, hpop⟩ := hs.canPop hrest hworker
  have hempty : (s.afterPop worker i).finalize = [] := congrArg List.tail hrest
  have hbegin := next_begin (s := s.afterPop worker i) phase_setPhase_self hname
  have hlength : 0 < this.threadWorkers.length := Nat.zero_lt_of_lt (lt_of_stateName this hname)
  obtain ⟨s', hdeactivated, hlog'⟩ := exists_deactivated
    (s := ((s.afterPop worker i).record (finalizeBegin name)).setPhase worker (.finalizing i))
    hlength hs.stop hempty
  refine ⟨s', ((hruns.trans hpop).tail hbegin).trans hdeactivated, fun horder => ?_⟩
  have hended := horder.afterAll (s.log ++ [finalizeBegin name]) 0 (hlog' ▸ List.prefix_rfl) name
    (List.mem_append_right _ (List.mem_singleton_self _))
  have hmem : finalizeEnd name ∈ s.log := by simpa using hended
  have hnodup := this.nodup
  rw [hfinalize, List.nodup_append] at hnodup
  exact hnodup.2.2 name (hlog name hmem) name List.mem_cons_self rfl

/-! ## Exactly when -/

variable (this) in
/-- The second name is there to tie the worker of the first to that of a third. -/
def Joined (name name' : Text) : Prop := this.isState name' = true ∧ this.OneWorker name name'

theorem Joined.trans {name'' : Text} (h : this.Joined name name') (h' : this.Joined name' name'') :
    this.Joined name name'' := by
  obtain ⟨middle, hmiddle⟩ := (isState_iff this).mp h.1
  refine ⟨h'.1, fun worker worker'' hworker hworker'' => ?_⟩
  exact (h.2 worker middle hworker hmiddle).trans (h'.2 middle worker'' hmiddle hworker'')

/-- Two names that follow each other have all their states in one worker, so all names do. -/
theorem oneWorker_of_inOrder (h : ∀ s, this.Runs this.start s → InOrder this.finalize s.log) :
    this.reached.Pairwise this.OneWorker := by
  have htrans : Trans this.Joined this.Joined this.Joined := ⟨Joined.trans⟩
  have hchain : this.reached.IsChain this.Joined := by
    rw [List.isChain_iff_forall_rel_of_append_cons_cons]
    intro name name' names rest hreached
    have hstates (n : Text) (hn : n ∈ this.reached) : this.isState n = true :=
      List.mem_takeWhile_imp hn
    refine ⟨hstates name' (by simp [hreached]), fun worker worker' hworker hworker' => ?_⟩
    by_contra hne
    have hsplit : this.finalize =
        names ++ name :: name' :: (rest ++ this.finalize.dropWhile this.isState) := by
      conv_lhs => rw [← List.takeWhile_append_dropWhile (p := this.isState) (l := this.finalize)]
      rw [← reached, hreached]
      simp
    obtain ⟨s, hruns, hnot⟩ := exists_overlap this hsplit
      (fun n hn => hstates n (hreached ▸ List.mem_append_left _ hn)) hworker hworker' hne
    exact hnot (h s hruns)
  exact (List.isChain_iff_pairwise.mp hchain).imp And.right

theorem orderSafe_of_inOrder (h : ∀ s, this.Runs this.start s → InOrder this.finalize s.log) :
    this.OrderSafe where
  neverEmptied := by
    by_contra hnot
    rw [not_or, not_not] at hnot
    obtain ⟨hne, hreached⟩ := hnot
    have hstates : ∀ name ∈ this.finalize, this.isState name = true :=
      List.takeWhile_eq_self_iff.mp hreached
    have hsplit := (List.dropLast_append_getLast hne).symm
    obtain ⟨worker, hworker⟩ := (isState_iff this).mp (hstates _ (List.getLast_mem hne))
    obtain ⟨s, hruns, hnot⟩ := exists_early_stop this hsplit
      (fun name hname => hstates name (List.mem_of_mem_dropLast hname)) hworker
    exact hnot (h s hruns)
  oneWorker := oneWorker_of_inOrder h

/-- The order is kept in all runs of just these threads. -/
theorem inOrder_iff_orderSafe (this : FinalizedThreads) :
    (∀ s, this.Runs this.start s → InOrder this.finalize s.log) ↔ this.OrderSafe :=
  ⟨orderSafe_of_inOrder, fun hsafe _ hruns => (hsafe.runs hruns).2⟩

/-- One worker with one state, which `Stop` overtakes. -/
theorem not_inOrder :
    ¬ ∀ (this : FinalizedThreads) (s : RunningThreads), this.Runs this.start s →
      InOrder this.finalize s.log := by
  intro h
  let render : Text := Text.lit "Render"
  let this : FinalizedThreads := {
    threadWorkers := [{ name := render, states := [{ name := render }] }]
    finalize := [render]
    nodup := List.nodup_singleton render }
  have hworker : this.HasState 0 render := ⟨0, rfl⟩
  have hsplit : this.finalize = [] ++ [render] := rfl
  obtain ⟨s, hruns, hnot⟩ := exists_early_stop this hsplit
    (fun name hname => by cases hname) hworker
  exact hnot (h this s hruns)

end FinalizedThreads

end SRCommon
