import Mathlib.Data.List.Pairwise
import SRCommon.TaskManager.Finalization

/-!
# The order in which states are finalized

Which names have left the list, which of them a worker still carries and what
has been recorded go together in every state that the threads reach. The order
is kept exactly when nothing can run beside a finalizer that must wait for it.
-/

namespace SRCommon

open StopEvent

/-- What the record should look like, whenever one looks. -/
structure InOrder (finalize : List Text) (log : List StopEvent) : Prop where
  once : ∀ name, log.count (finalizeBegin name) ≤ 1
  afterEarlier : ∀ before name, before ++ [finalizeBegin name] <+: log →
    ∀ earlier, [earlier, name].Sublist finalize → finalizeEnd earlier ∈ before
  afterAll : ∀ before worker, before ++ [deactivate worker] <+: log →
    ∀ name, finalizeBegin name ∈ before → finalizeEnd name ∈ before

/-- What an event must find recorded when it happens. -/
def Timely (finalize : List Text) (log : List StopEvent) : StopEvent → Prop
  | finalizeBegin name => finalizeBegin name ∉ log ∧
      ∀ earlier, [earlier, name].Sublist finalize → finalizeEnd earlier ∈ log
  | finalizeEnd _ => True
  | deactivate _ => ∀ name, finalizeBegin name ∈ log → finalizeEnd name ∈ log

variable {finalize : List Text} {log : List StopEvent}

theorem mem_of_mem_record {event event' : StopEvent} (h : event ∈ log ++ [event'])
    (hne : event ≠ event') : event ∈ log :=
  (List.mem_append.mp h).resolve_right fun hlast => hne (List.mem_singleton.mp hlast)

theorem inOrder_nil : InOrder finalize [] where
  once _ := Nat.zero_le 1
  afterEarlier before name h := by simp at h
  afterAll before worker h := by simp at h

/-- An event at its time keeps the record in order. -/
theorem InOrder.append (h : InOrder finalize log) {event : StopEvent}
    (htimely : Timely finalize log event) : InOrder finalize (log ++ [event]) where
  once name := by
    rw [List.count_append, List.count_singleton]
    split
    · next heq =>
        obtain rfl := eq_of_beq heq
        rw [List.count_eq_zero_of_not_mem htimely.1]
    · exact h.once name
  afterEarlier before name hlog := by
    rcases List.prefix_concat_iff.mp hlog with hlog | hlog
    · obtain ⟨rfl, hevent⟩ := List.append_inj' hlog rfl
      obtain rfl := List.singleton_inj.mp hevent
      exact htimely.2
    · exact h.afterEarlier before name hlog
  afterAll before worker hlog := by
    rcases List.prefix_concat_iff.mp hlog with hlog | hlog
    · obtain ⟨rfl, hevent⟩ := List.append_inj' hlog rfl
      obtain rfl := List.singleton_inj.mp hevent
      exact htimely
    · exact h.afterAll before worker hlog

namespace FinalizedThreads

variable (this : FinalizedThreads)

/-- The name has left the list and the worker has still to finalize it. -/
def Carries (s : RunningThreads) (worker : ℕ) (name : Text) : Prop :=
  ∃ i, (s.phase worker = .popped i ∨ s.phase worker = .finalizing i) ∧
    this.stateName worker i = some name

/-- The names that have left the list, and where each of them is. -/
structure Taken (s : RunningThreads) (taken : List Text) : Prop where
  split : this.finalize = taken ++ s.finalize
  isState : ∀ name ∈ taken, this.isState name = true
  mem : ∀ worker name, this.Carries s worker name → name ∈ taken
  alone : ∀ worker worker' name, this.Carries s worker name → this.Carries s worker' name →
    worker = worker'
  ended : ∀ name ∈ taken, finalizeEnd name ∈ s.log ∨ ∃ worker, this.Carries s worker name
  fresh : ∀ worker i name, s.phase worker = .popped i → this.stateName worker i = some name →
    finalizeBegin name ∉ s.log
  begun : ∀ name, finalizeBegin name ∈ s.log → name ∈ taken
  emptied : ∀ worker, s.stop = .deactivate worker ∨ s.stop = .join worker → s.finalize = []

/-- A step that no name moves with. -/
structure Quiet (s s' : RunningThreads) : Prop where
  finalize : s'.finalize = s.finalize
  log : s'.log = s.log
  popped : ∀ worker i, s'.phase worker = .popped i ↔ s.phase worker = .popped i
  finalizing : ∀ worker i, s'.phase worker = .finalizing i ↔ s.phase worker = .finalizing i
  stop : ∀ worker, s'.stop = .deactivate worker ∨ s'.stop = .join worker →
    s.finalize = [] ∨ ∃ worker', s.stop = .deactivate worker' ∨ s.stop = .join worker'

variable {this} {s s' : RunningThreads} {worker worker' i : ℕ} {name name' : Text}
  {taken : List Text}

theorem Carries.name_eq (h : this.Carries s worker name) (h' : this.Carries s worker name') :
    name = name' := by
  obtain ⟨i, hi, hname⟩ := h
  obtain ⟨j, hj, hname'⟩ := h'
  obtain rfl : i = j := by
    rcases hi with hi | hi <;> rcases hj with hj | hj <;> rw [hi] at hj <;> cases hj <;> rfl
  exact Option.some.inj (hname.symm.trans hname')

theorem Carries.hasState (h : this.Carries s worker name) : this.HasState worker name := by
  obtain ⟨i, -, hname⟩ := h
  exact ⟨i, hname⟩

theorem Quiet.carries (h : Quiet s s') :
    this.Carries s' worker name ↔ this.Carries s worker name := by
  simp only [Carries, h.popped, h.finalizing]

theorem quiet_of_phase_eq (hfinalize : s'.finalize = s.finalize) (hlog : s'.log = s.log)
    (hphase : s'.phase = s.phase)
    (hstop : ∀ worker, s'.stop = .deactivate worker ∨ s'.stop = .join worker →
      s.finalize = [] ∨ ∃ worker', s.stop = .deactivate worker' ∨ s.stop = .join worker') :
    Quiet s s' where
  finalize := hfinalize
  log := hlog
  popped worker i := by rw [hphase]
  finalizing worker i := by rw [hphase]
  stop := hstop

/-- Neither phase holds a name. -/
theorem quiet_setPhase {phase : WorkPhase}
    (hbefore : ∀ i, s.phase worker ≠ .popped i ∧ s.phase worker ≠ .finalizing i)
    (hafter : ∀ i, phase ≠ .popped i ∧ phase ≠ .finalizing i) :
    Quiet s (s.setPhase worker phase) where
  finalize := rfl
  log := rfl
  popped w i := by
    by_cases hw : w = worker
    · subst hw
      simp [RunningThreads.setPhase, (hbefore i).1, (hafter i).1]
    · simp [RunningThreads.setPhase, hw]
  finalizing w i := by
    by_cases hw : w = worker
    · subst hw
      simp [RunningThreads.setPhase, (hbefore i).2, (hafter i).2]
    · simp [RunningThreads.setPhase, hw]
  stop w h := .inr ⟨w, h⟩

/-- What a step of some thread can be. -/
inductive Moves (s s' : RunningThreads) : Prop where
  | quiet (h : Quiet s s')
  | pop (worker i : ℕ) (name : Text) (rest : List Text)
      (hphase : s.phase worker = .check i) (hname : this.stateName worker i = some name)
      (hfront : s.finalize = name :: rest)
      (h : s' = { s with finalize := rest }.setPhase worker (.popped i))
  | finalizeBegin (worker i : ℕ) (name : Text)
      (hphase : s.phase worker = .popped i) (hname : this.stateName worker i = some name)
      (h : s' = (s.record (finalizeBegin name)).setPhase worker (.finalizing i))
  | finalizeEnd (worker i : ℕ) (name : Text)
      (hphase : s.phase worker = .finalizing i) (hname : this.stateName worker i = some name)
      (h : s' = (s.record (finalizeEnd name)).setPhase worker (.check (i + 1)))
  | deactivate (worker : ℕ) (hstop : s.stop = .deactivate worker)
      (h : s' = { s.record (deactivate worker) with
        isActive := Function.update s.isActive worker false
        stop := .join worker })

theorem moves_of_work (h : this.work s worker = some s') : this.Moves s s' := by
  rw [work] at h
  split at h
  · split at h
    next hphase =>
        obtain rfl := Option.some.inj h
        refine .quiet (quiet_setPhase (by simp [hphase]) ?_)
        split <;> simp
    next hphase =>
        obtain rfl := Option.some.inj h
        refine .quiet (quiet_setPhase (by simp [hphase]) ?_)
        split <;> simp
    next hphase =>
        obtain rfl := Option.some.inj h
        exact .quiet (quiet_setPhase (by simp [hphase]) (by simp))
    next i hphase =>
        cases hname : this.stateName worker i with
        | none =>
            rw [hname] at h
            obtain rfl := Option.some.inj h
            exact .quiet (quiet_setPhase (by simp [hphase]) (by simp))
        | some name =>
            rw [hname] at h
            obtain rfl := Option.some.inj h
            rcases checkFinalize_cases name s.finalize with hcheck | ⟨rest, hfront⟩
            · refine .quiet ?_
              simp only [hcheck, Bool.false_eq_true, if_false]
              exact quiet_setPhase (by simp [hphase]) (by simp)
            · refine .pop worker i name rest hphase hname hfront ?_
              simp only [hfront, checkFinalize_cons, if_true]
    next i hphase =>
        obtain ⟨name, hname, rfl⟩ := Option.map_eq_some_iff.mp h
        exact .finalizeBegin worker i name hphase hname rfl
    next i hphase =>
        obtain ⟨name, hname, rfl⟩ := Option.map_eq_some_iff.mp h
        exact .finalizeEnd worker i name hphase hname rfl
    next => cases h
  · cases h

theorem moves_of_stop (h : this.stop s = some s') : this.Moves s s' := by
  rw [stop] at h
  split at h
  next hstop =>
    obtain rfl := Option.some.inj h
    exact .quiet (quiet_of_phase_eq rfl rfl rfl (by simp))
  next hstop =>
    obtain rfl := Option.some.inj h
    refine .quiet ?_
    split
    next hempty => exact quiet_of_phase_eq rfl rfl rfl fun _ _ => .inl hempty
    next => exact quiet_of_phase_eq rfl rfl rfl (by simp [hstop])
  next worker hstop =>
    split at h
    · obtain rfl := Option.some.inj h
      exact .deactivate worker hstop rfl
    · obtain rfl := Option.some.inj h
      exact .quiet (quiet_of_phase_eq rfl rfl rfl (by simp))
  next worker hstop =>
    split at h
    · obtain rfl := Option.some.inj h
      exact .quiet (quiet_of_phase_eq rfl rfl rfl fun _ _ => .inr ⟨worker, .inr hstop⟩)
    · cases h
  next => cases h

theorem moves_of_next (h : this.Next s s') : this.Moves s s' := by
  obtain ⟨action, h⟩ := h
  cases action with
  | work worker => exact moves_of_work h
  | stop => exact moves_of_stop h
  | stopAsync =>
      obtain rfl := Option.some.inj h
      exact .quiet (quiet_of_phase_eq rfl rfl rfl fun w hw => .inr ⟨w, hw⟩)

/-! ## What every reachable state keeps -/

theorem taken_start : this.Taken this.start [] where
  split := rfl
  isState name h := by cases h
  mem worker name h := by
    obtain ⟨i, hi | hi, -⟩ := h <;> cases hi
  alone worker worker' name h := by
    obtain ⟨i, hi | hi, -⟩ := h <;> cases hi
  ended name h := by cases h
  fresh worker i name h := by cases h
  begun name h := by cases h
  emptied worker h := by rcases h with h | h <;> cases h

theorem Taken.quiet (h : this.Taken s taken) (hquiet : Quiet s s') : this.Taken s' taken where
  split := by rw [hquiet.finalize, h.split]
  isState := h.isState
  mem worker name hcarries := h.mem worker name (hquiet.carries.mp hcarries)
  alone worker worker' name hcarries hcarries' :=
    h.alone worker worker' name (hquiet.carries.mp hcarries) (hquiet.carries.mp hcarries')
  ended name hmem := by
    rw [hquiet.log]
    exact (h.ended name hmem).imp_right fun ⟨worker, hw⟩ => ⟨worker, hquiet.carries.mpr hw⟩
  fresh worker i name hphase := by
    rw [hquiet.log]
    exact h.fresh worker i name ((hquiet.popped worker i).mp hphase)
  begun name hbegun := h.begun name (hquiet.log ▸ hbegun)
  emptied worker hstop := by
    rw [hquiet.finalize]
    rcases hquiet.stop worker hstop with hempty | ⟨worker', hstop'⟩
    · exact hempty
    · exact h.emptied worker' hstop'

theorem carries_of_ne (hphase : s'.phase worker' = s.phase worker') :
    this.Carries s' worker' name ↔ this.Carries s worker' name := by
  simp only [Carries, hphase]

theorem phase_setPhase_of_ne {phase : WorkPhase} (h : worker' ≠ worker) :
    (s.setPhase worker phase).phase worker' = s.phase worker' :=
  Function.update_of_ne h _ _

theorem phase_setPhase_self {phase : WorkPhase} : (s.setPhase worker phase).phase worker = phase :=
  Function.update_self _ _ _

/-- Who is in another phase than the one that was set is another worker. -/
theorem ne_of_phase_setPhase {phase phase' : WorkPhase}
    (h : (s.setPhase worker phase).phase worker' = phase') (hne : phase ≠ phase') :
    worker' ≠ worker := by
  rintro rfl
  exact hne (phase_setPhase_self.symm.trans h)

theorem carries_popped (hphase : s.phase worker = .popped i)
    (hname : this.stateName worker i = some name) :
    this.Carries s worker name' ↔ name' = name := by
  constructor
  · intro h
    exact h.name_eq ⟨i, .inl hphase, hname⟩
  · rintro rfl
    exact ⟨i, .inl hphase, hname⟩

theorem carries_finalizing (hphase : s.phase worker = .finalizing i)
    (hname : this.stateName worker i = some name) :
    this.Carries s worker name' ↔ name' = name := by
  constructor
  · intro h
    exact h.name_eq ⟨i, .inr hphase, hname⟩
  · rintro rfl
    exact ⟨i, .inr hphase, hname⟩

theorem not_carries_check (hphase : s.phase worker = .check i) : ¬ this.Carries s worker name := by
  rintro ⟨j, hj | hj, -⟩ <;> rw [hphase] at hj <;> cases hj

theorem notMem_taken (h : this.Taken s taken) (hmem : name ∈ s.finalize) : name ∉ taken := by
  have hnodup := this.nodup
  rw [h.split, List.nodup_append] at hnodup
  exact fun htaken => hnodup.2.2 name htaken name hmem rfl

/-- The name that leaves the list is carried by the worker, and by no other. -/
theorem Taken.pop {rest : List Text} (h : this.Taken s taken) (hphase : s.phase worker = .check i)
    (hname : this.stateName worker i = some name) (hfront : s.finalize = name :: rest) :
    this.Taken ({ s with finalize := rest }.setPhase worker (.popped i)) (taken ++ [name]) := by
  have hnew : name ∉ taken := notMem_taken h (hfront ▸ List.mem_cons_self)
  have hself (n : Text) :
      this.Carries ({ s with finalize := rest }.setPhase worker (.popped i)) worker n ↔ n = name :=
    carries_popped phase_setPhase_self hname
  have hother (w : ℕ) (n : Text) (hw : w ≠ worker) :
      this.Carries ({ s with finalize := rest }.setPhase worker (.popped i)) w n ↔
        this.Carries s w n :=
    carries_of_ne (phase_setPhase_of_ne hw)
  exact {
    split := by
      rw [h.split, hfront, List.append_assoc]
      rfl
    isState := by
      intro n hn
      rcases List.mem_append.mp hn with hn | hn
      · exact h.isState n hn
      · obtain rfl := List.mem_singleton.mp hn
        exact (isState_iff this).mpr ⟨worker, i, hname⟩
    mem := by
      intro w n hcarries
      by_cases hw : w = worker
      · subst hw
        obtain rfl := (hself n).mp hcarries
        exact List.mem_append_right _ (List.mem_singleton_self n)
      · exact List.mem_append_left _ (h.mem w n ((hother w n hw).mp hcarries))
    alone := by
      intro w w' n hcarries hcarries'
      by_cases hw : w = worker <;> by_cases hw' : w' = worker
      · rw [hw, hw']
      · subst hw
        obtain rfl := (hself n).mp hcarries
        exact absurd (h.mem w' n ((hother w' n hw').mp hcarries')) hnew
      · subst hw'
        obtain rfl := (hself n).mp hcarries'
        exact absurd (h.mem w n ((hother w n hw).mp hcarries)) hnew
      · exact h.alone w w' n ((hother w n hw).mp hcarries) ((hother w' n hw').mp hcarries')
    ended := by
      intro n hn
      rcases List.mem_append.mp hn with hn | hn
      · rcases h.ended n hn with hended | ⟨w, hw⟩
        · exact .inl hended
        · have hne : w ≠ worker := by
            rintro rfl
            exact not_carries_check hphase hw
          exact .inr ⟨w, (hother w n hne).mpr hw⟩
      · exact .inr ⟨worker, (hself n).mpr (List.mem_singleton.mp hn)⟩
    fresh := by
      intro w j n hj hn
      by_cases hw : w = worker
      · subst hw
        obtain rfl := (hself n).mp ⟨j, .inl hj, hn⟩
        exact fun hbegun => hnew (h.begun n hbegun)
      · rw [phase_setPhase_of_ne hw] at hj
        exact h.fresh w j n hj hn
    begun := fun n hbegun => List.mem_append_left _ (h.begun n hbegun)
    emptied := by
      intro w hstop
      have hempty := h.emptied w hstop
      rw [hfront] at hempty
      cases hempty }

theorem Taken.begin (h : this.Taken s taken) (hphase : s.phase worker = .popped i)
    (hname : this.stateName worker i = some name) :
    this.Taken ((s.record (finalizeBegin name)).setPhase worker (.finalizing i)) taken := by
  have hcarries (w : ℕ) (n : Text) :
      this.Carries ((s.record (finalizeBegin name)).setPhase worker (.finalizing i)) w n ↔
        this.Carries s w n := by
    by_cases hw : w = worker
    · subst hw
      rw [carries_finalizing phase_setPhase_self hname, carries_popped hphase hname]
    · exact carries_of_ne (phase_setPhase_of_ne hw)
  exact {
    split := h.split
    isState := h.isState
    mem := fun w n hw => h.mem w n ((hcarries w n).mp hw)
    alone := fun w w' n hw hw' => h.alone w w' n ((hcarries w n).mp hw) ((hcarries w' n).mp hw')
    ended := by
      intro n hn
      exact (h.ended n hn).imp (List.mem_append_left _) fun ⟨w, hw⟩ => ⟨w, (hcarries w n).mpr hw⟩
    fresh := by
      intro w j n hj hn hbegun
      have hne : w ≠ worker := ne_of_phase_setPhase hj nofun
      rw [phase_setPhase_of_ne hne] at hj
      rcases List.mem_append.mp hbegun with hbegun | hbegun
      · exact h.fresh w j n hj hn hbegun
      · cases List.mem_singleton.mp hbegun
        exact hne (h.alone w worker name ⟨j, .inl hj, hn⟩ ⟨i, .inl hphase, hname⟩)
    begun := by
      intro n hbegun
      rcases List.mem_append.mp hbegun with hbegun | hbegun
      · exact h.begun n hbegun
      · cases List.mem_singleton.mp hbegun
        exact h.mem worker name ⟨i, .inl hphase, hname⟩
    emptied := h.emptied }

theorem Taken.finish (h : this.Taken s taken) (hphase : s.phase worker = .finalizing i)
    (hname : this.stateName worker i = some name) :
    this.Taken ((s.record (finalizeEnd name)).setPhase worker (.check (i + 1))) taken := by
  have hcarries (w : ℕ) (n : Text) :
      this.Carries ((s.record (finalizeEnd name)).setPhase worker (.check (i + 1))) w n ↔
        w ≠ worker ∧ this.Carries s w n := by
    by_cases hw : w = worker
    · subst hw
      exact iff_of_false (not_carries_check phase_setPhase_self) fun hcarries => hcarries.1 rfl
    · exact (carries_of_ne (phase_setPhase_of_ne hw)).trans (and_iff_right hw).symm
  exact {
    split := h.split
    isState := h.isState
    mem := fun w n hw => h.mem w n ((hcarries w n).mp hw).2
    alone := fun w w' n hw hw' =>
      h.alone w w' n ((hcarries w n).mp hw).2 ((hcarries w' n).mp hw').2
    ended := by
      intro n hn
      rcases h.ended n hn with hended | ⟨w, hw⟩
      · exact .inl (List.mem_append_left _ hended)
      · by_cases hne : w = worker
        · subst hne
          obtain rfl := (carries_finalizing hphase hname).mp hw
          exact .inl (List.mem_append_right _ (List.mem_singleton_self _))
        · exact .inr ⟨w, (hcarries w n).mpr ⟨hne, hw⟩⟩
    fresh := by
      intro w j n hj hn hbegun
      have hne : w ≠ worker := ne_of_phase_setPhase hj nofun
      rw [phase_setPhase_of_ne hne] at hj
      exact h.fresh w j n hj hn (mem_of_mem_record hbegun (by simp))
    begun := fun n hbegun => h.begun n (mem_of_mem_record hbegun (by simp))
    emptied := h.emptied }

theorem Taken.deactivate (h : this.Taken s taken) (hstop : s.stop = .deactivate worker) :
    this.Taken { s.record (StopEvent.deactivate worker) with
      isActive := Function.update s.isActive worker false
      stop := .join worker } taken where
  split := h.split
  isState := h.isState
  mem := h.mem
  alone := h.alone
  ended n hn := (h.ended n hn).imp_left (List.mem_append_left _)
  fresh w j n hj hn hbegun := h.fresh w j n hj hn (mem_of_mem_record hbegun (by simp))
  begun n hbegun := h.begun n (mem_of_mem_record hbegun (by simp))
  emptied w _ := h.emptied worker (.inl hstop)

theorem Taken.next (h : this.Taken s taken) (hnext : this.Next s s') :
    ∃ taken', this.Taken s' taken' := by
  cases moves_of_next hnext with
  | quiet hquiet => exact ⟨taken, h.quiet hquiet⟩
  | pop worker i name rest hphase hname hfront hs' =>
      subst hs'
      exact ⟨taken ++ [name], h.pop hphase hname hfront⟩
  | finalizeBegin worker i name hphase hname hs' =>
      subst hs'
      exact ⟨taken, h.begin hphase hname⟩
  | finalizeEnd worker i name hphase hname hs' =>
      subst hs'
      exact ⟨taken, h.finish hphase hname⟩
  | deactivate worker hstop hs' =>
      subst hs'
      exact ⟨taken, h.deactivate hstop⟩

/-! ## When the order is kept -/

variable (this)

/-- The names that can leave the list: those before the first that no worker has a state of. -/
def reached : List Text := this.finalize.takeWhile this.isState

/-- All states of the two names are states of one and the same worker. -/
def OneWorker (name name' : Text) : Prop :=
  ∀ worker worker', this.HasState worker name → this.HasState worker' name' → worker = worker'

/-- The list never becomes empty for `Stop` to see, unless it has been from the start, and no two
workers can have a name in hand. -/
structure OrderSafe : Prop where
  neverEmptied : this.finalize = [] ∨ this.reached ≠ this.finalize
  oneWorker : this.reached.Pairwise this.OneWorker

variable {this}

theorem Taken.reached_eq (h : this.Taken s taken) :
    this.reached = taken ++ s.finalize.takeWhile this.isState := by
  rw [reached, h.split, List.takeWhile_append_of_pos h.isState]

theorem Taken.sublist (h : this.Taken s taken) (hmem : name' ∈ taken)
    (hsublist : [name, name'].Sublist this.finalize) : [name, name'].Sublist taken := by
  have hnotMem : name' ∉ s.finalize := fun hrest => notMem_taken h hrest hmem
  rw [h.split, List.sublist_append_iff] at hsublist
  obtain ⟨l₁, l₂, heq, htaken, hrest⟩ := hsublist
  have hempty : l₂ = [] := by
    by_contra hne
    have hlast : l₂.getLast hne = name' := by
      have hall : (l₁ ++ l₂).getLast (by simp [hne]) = name' := by simp [← heq]
      rw [← hall, List.getLast_append_of_right_ne_nil _ _ hne]
    exact hnotMem (hrest.subset (hlast ▸ List.getLast_mem hne))
  rw [heq, hempty, List.append_nil]
  exact htaken

theorem OrderSafe.timely_begin (hsafe : this.OrderSafe) (h : this.Taken s taken)
    (hphase : s.phase worker = .popped i) (hname : this.stateName worker i = some name) :
    Timely this.finalize s.log (finalizeBegin name) := by
  refine ⟨h.fresh worker i name hphase hname, fun earlier hearlier => ?_⟩
  have hcarries : this.Carries s worker name := ⟨i, .inl hphase, hname⟩
  have hsublist := h.sublist (h.mem worker name hcarries) hearlier
  rcases h.ended earlier (hsublist.subset List.mem_cons_self) with hended | ⟨worker', hworker'⟩
  · exact hended
  · have hpair : this.OneWorker earlier name := by
      have hreached := hsafe.oneWorker
      rw [h.reached_eq] at hreached
      exact List.pairwise_iff_forall_sublist.mp (List.pairwise_append.mp hreached).1 hsublist
    obtain rfl := hpair worker' worker hworker'.hasState hcarries.hasState
    obtain rfl := hworker'.name_eq hcarries
    exact absurd hearlier (List.nodup_iff_sublist.mp this.nodup earlier)

theorem OrderSafe.timely_deactivate (hsafe : this.OrderSafe) (h : this.Taken s taken)
    (hstop : s.stop = .deactivate worker) :
    Timely this.finalize s.log (StopEvent.deactivate worker') := by
  intro name hbegun
  have hempty : s.finalize = [] := h.emptied worker (.inl hstop)
  have hsplit := h.split
  have hreached := h.reached_eq
  rw [hempty, List.append_nil] at hsplit
  rw [hempty, List.takeWhile_nil, List.append_nil, ← hsplit] at hreached
  rcases hsafe.neverEmptied with hnil | hne
  · rw [← hsplit, hnil] at h
    cases h.begun name hbegun
  · exact absurd hreached hne

theorem OrderSafe.next (hsafe : this.OrderSafe) (h : this.Taken s taken)
    (horder : InOrder this.finalize s.log) (hnext : this.Next s s') :
    InOrder this.finalize s'.log := by
  cases moves_of_next hnext with
  | quiet hquiet => exact hquiet.log ▸ horder
  | pop worker i name rest hphase hname hfront hs' => exact hs' ▸ horder
  | finalizeBegin worker i name hphase hname hs' =>
      subst hs'
      exact horder.append (hsafe.timely_begin h hphase hname)
  | finalizeEnd worker i name hphase hname hs' =>
      subst hs'
      exact horder.append trivial
  | deactivate worker hstop hs' =>
      subst hs'
      exact horder.append (hsafe.timely_deactivate h hstop)

theorem OrderSafe.runs (hsafe : this.OrderSafe) (hruns : this.Runs this.start s) :
    (∃ taken, this.Taken s taken) ∧ InOrder this.finalize s.log := by
  induction hruns with
  | refl => exact ⟨⟨[], taken_start⟩, inOrder_nil⟩
  | tail _ hnext ih =>
      obtain ⟨⟨taken, htaken⟩, horder⟩ := ih
      exact ⟨htaken.next hnext, hsafe.next htaken horder hnext⟩

end FinalizedThreads

end SRCommon
