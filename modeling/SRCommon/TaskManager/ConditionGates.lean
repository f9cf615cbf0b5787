import Mathlib.Data.List.Nodup
import SRCommon.Lib.PartialRun
import SRCommon.TaskManager.ThreadWorker

/-!
# Which conditions gate a state

`Load` takes the start conditions of a document for skip conditions and the
other way round. A step is right exactly when the two lists decide alike.
-/

namespace SRCommon

/-- The entries of a node of the document. -/
def ConditionNode.entries (node : ConditionNode) : WorkerConditions :=
  ThreadWorkerState.values.flatMap fun state => (node.items state).map fun name => (name, state)

/-- The entries of a list that may be left out. -/
def conditionEntries (node : Option ConditionNode) : WorkerConditions :=
  node.elim [] ConditionNode.entries

/-- The names in one list are pairwise different. -/
def NamesDiffer (node : Option ConditionNode) : Prop := ((conditionEntries node).map Prod.fst).Nodup

instance (node : Option ConditionNode) : Decidable (NamesDiffer node) :=
  inferInstanceAs (Decidable (List.Nodup _))

/-! ## What is loaded -/

theorem set_of_notMem {conditions : WorkerConditions} {name : Text} (state : ThreadWorkerState)
    (h : name ∉ conditions.map Prod.fst) : conditions.set name state = conditions ++ [(name, state)] := by
  induction conditions with
  | nil => rfl
  | cons condition conditions ih =>
      obtain ⟨name', state'⟩ := condition
      rw [List.map_cons, List.mem_cons, not_or] at h
      rw [WorkerConditions.set, if_neg (Ne.symm h.1), ih h.2]
      rfl

theorem foldl_set {entries conditions : WorkerConditions}
    (h : ((conditions ++ entries).map Prod.fst).Nodup) :
    entries.foldl (fun conditions entry => conditions.set entry.1 entry.2) conditions =
      conditions ++ entries := by
  induction entries generalizing conditions with
  | nil => simp
  | cons entry entries ih =>
      rw [List.append_cons] at h
      have hnew : entry.1 ∉ conditions.map Prod.fst := by
        rw [List.append_assoc, List.map_append, List.nodup_append] at h
        exact fun hmem => h.2.2 _ hmem entry.1 (by simp) rfl
      rw [List.foldl_cons, set_of_notMem entry.2 hnew, ih h, List.append_assoc]
      rfl

/-- The conditions of one kind are added one after the other. -/
theorem processCondition_eq (type : ℕ) (node : Option ConditionNode)
    (pState : ThreadWorkerStateBase) :
    processCondition type node pState = (conditionEntries node).foldl
      (fun pState entry => addCondition type pState entry.1 entry.2) pState := by
  cases node with
  | none => rfl
  | some node =>
      simp only [processCondition, conditionEntries, Option.elim_some, ConditionNode.entries,
        List.foldl_flatMap, List.foldl_map]

theorem foldl_addCondition (entries : WorkerConditions) (pState : ThreadWorkerStateBase) :
    entries.foldl (fun pState entry => addCondition 0 pState entry.1 entry.2) pState =
        { pState with
          skipConditions := entries.foldl (fun cs entry => cs.set entry.1 entry.2)
            pState.skipConditions } ∧
      entries.foldl (fun pState entry => addCondition 1 pState entry.1 entry.2) pState =
        { pState with
          startConditions := entries.foldl (fun cs entry => cs.set entry.1 entry.2)
            pState.startConditions } ∧
      entries.foldl (fun pState entry => addCondition 2 pState entry.1 entry.2) pState =
        { pState with
          finishConditions := entries.foldl (fun cs entry => cs.set entry.1 entry.2)
            pState.finishConditions } := by
  induction entries generalizing pState with
  | nil => exact ⟨rfl, rfl, rfl⟩
  | cons entry entries ih =>
      simp only [List.foldl_cons]
      exact ⟨(ih _).1, (ih _).2.1, (ih _).2.2⟩

/-- The start conditions of the document are loaded as skip conditions. -/
theorem loadState_eq {registered : Text → Bool} {node : StateNode} {pState : ThreadWorkerStateBase}
    (hstart : NamesDiffer node.startCondition) (hskip : NamesDiffer node.skipCondition)
    (hfinish : NamesDiffer node.finishCondition) (h : loadState registered node = some pState) :
    pState.skipConditions = conditionEntries node.startCondition ∧
      pState.startConditions = conditionEntries node.skipCondition ∧
      pState.finishConditions = conditionEntries node.finishCondition := by
  obtain ⟨name, -, h⟩ := Option.bind_eq_some_iff.mp h
  split at h
  · obtain rfl := Option.some.inj h
    simp only [processCondition_eq, (foldl_addCondition _ _).1, (foldl_addCondition _ _).2.1,
      (foldl_addCondition _ _).2.2]
    exact ⟨foldl_set hstart, foldl_set hskip, foldl_set hfinish⟩
  · cases h

/-! ## The nodes of the workers -/

section

variable (registered : Text → Bool) (threads : List ThreadNode)

/-- The nodes of the states that each worker gets. -/
def loadedNodes : List (List StateNode) :=
  threads.filterMap fun thread => (loadThread registered thread).bind fun _ =>
    thread.states.map fun states => states.filter fun node => (loadState registered node).isSome

/-- The node behind the present state of a worker. -/
def currentNode (s : WorkersState) (worker : ℕ) : Option StateNode :=
  (loadedNodes registered threads)[worker]?.bind fun nodes => nodes[s.currentState worker]?

/-- The names in each list of the document are pairwise different. -/
def ListsNamesDiffer : Prop :=
  ∀ thread ∈ threads, ∀ states, thread.states = some states → ∀ node ∈ states,
    NamesDiffer node.startCondition ∧ NamesDiffer node.skipCondition ∧
      NamesDiffer node.finishCondition

end

section

variable {registered : Text → Bool} {threads : List ThreadNode}

theorem getElem?_filterMap_eq {α β : Type} (f : α → Option β) (xs : List α) (n : ℕ) :
    (xs.filterMap f)[n]? = (xs.filter fun x => (f x).isSome)[n]?.bind f := by
  induction xs generalizing n with
  | nil => rfl
  | cons x xs ih =>
      cases hx : f x with
      | none => rw [List.filterMap_cons_none hx, List.filter_cons_of_neg (by simp [hx]), ih]
      | some y =>
          rw [List.filterMap_cons_some hx, List.filter_cons_of_pos (by simp [hx])]
          cases n with
          | zero => exact hx.symm
          | succ n => exact ih n

theorem states_loadThread {thread : ThreadNode} {worker : ThreadWorker}
    (h : loadThread registered thread = some worker) :
    ∃ states, thread.states = some states ∧
      worker.states = states.filterMap (loadState registered) := by
  obtain ⟨name, -, h⟩ := Option.bind_eq_some_iff.mp h
  obtain ⟨states, hstates, h⟩ := Option.bind_eq_some_iff.mp h
  obtain rfl := Option.some.inj h
  exact ⟨states, hstates, rfl⟩

/-- The workers and the lists of nodes are in step. -/
theorem states_load (registered : Text → Bool) (threads : List ThreadNode) :
    (ThreadsWorker.load registered threads).threadWorkers.map ThreadWorker.states =
      (loadedNodes registered threads).map fun nodes => nodes.filterMap (loadState registered) := by
  rw [ThreadsWorker.load, loadedNodes, List.map_filterMap, List.map_filterMap]
  refine List.filterMap_congr fun thread _ => ?_
  cases hload : loadThread registered thread with
  | none => rfl
  | some worker =>
      obtain ⟨states, hstates, hworker⟩ := states_loadThread hload
      have hfilter : (states.filter fun node => (loadState registered node).isSome).filterMap
          (loadState registered) = states.filterMap (loadState registered) := by
        rw [List.filterMap_filter]
        refine List.filterMap_congr fun node _ => ?_
        cases loadState registered node <;> rfl
      rw [Option.bind_some, hstates, Option.map_some, Option.map_some, Option.map_some, hworker,
        hfilter]

theorem exists_states_of_mem {nodes : List StateNode} (h : nodes ∈ loadedNodes registered threads) :
    ∃ thread ∈ threads, ∃ states, thread.states = some states ∧
      nodes = states.filter fun node => (loadState registered node).isSome := by
  obtain ⟨thread, hthread, h⟩ := List.mem_filterMap.mp h
  obtain ⟨worker, -, h⟩ := Option.bind_eq_some_iff.mp h
  obtain ⟨states, hstates, rfl⟩ := Option.map_eq_some_iff.mp h
  exact ⟨thread, hthread, states, hstates, rfl⟩

/-- A worker's present state is loaded from its node. -/
theorem current_load (s : WorkersState) (worker : ℕ) :
    (ThreadsWorker.load registered threads).current s worker =
      (currentNode registered threads s worker).bind (loadState registered) := by
  have hstates := congrArg (fun list => list[worker]?) (states_load registered threads)
  simp only [List.getElem?_map] at hstates
  rw [ThreadsWorker.current, currentNode]
  cases hnodes : (loadedNodes registered threads)[worker]? with
  | none =>
      rw [hnodes, Option.map_none, Option.map_eq_none_iff] at hstates
      rw [hstates]
      rfl
  | some nodes =>
      rw [hnodes, Option.map_some] at hstates
      obtain ⟨w, hw, hstates⟩ := Option.map_eq_some_iff.mp hstates
      obtain ⟨-, -, states, -, rfl⟩ := exists_states_of_mem (List.mem_of_getElem? hnodes)
      rw [hw, Option.bind_some, Option.bind_some, hstates, getElem?_filterMap_eq,
        List.filter_filter]
      simp only [Bool.and_self]

theorem current_eq_some {s : WorkersState} {worker : ℕ} {pState : ThreadWorkerStateBase}
    (hdiffer : ListsNamesDiffer threads)
    (h : (ThreadsWorker.load registered threads).current s worker = some pState) :
    ∃ node, currentNode registered threads s worker = some node ∧
      pState.skipConditions = conditionEntries node.startCondition ∧
      pState.startConditions = conditionEntries node.skipCondition ∧
      pState.finishConditions = conditionEntries node.finishCondition := by
  rw [current_load] at h
  obtain ⟨node, hnode, hload⟩ := Option.bind_eq_some_iff.mp h
  obtain ⟨nodes, hnodes, hmem⟩ := Option.bind_eq_some_iff.mp hnode
  obtain ⟨thread, hthread, states, hstates, rfl⟩ :=
    exists_states_of_mem (List.mem_of_getElem? hnodes)
  obtain ⟨hstart, hskip, hfinish⟩ := hdiffer thread hthread states hstates node
    (List.mem_of_mem_filter (List.mem_of_getElem? hmem))
  exact ⟨node, hnode, loadState_eq hstart hskip hfinish hload⟩

theorem exists_current {s : WorkersState} {worker : ℕ} {node : StateNode}
    (h : currentNode registered threads s worker = some node) :
    ∃ pState, (ThreadsWorker.load registered threads).current s worker = some pState := by
  rw [current_load, h, Option.bind_some]
  obtain ⟨nodes, hnodes, hmem⟩ := Option.bind_eq_some_iff.mp h
  obtain ⟨-, -, states, -, rfl⟩ := exists_states_of_mem (List.mem_of_getElem? hnodes)
  have hsome := List.of_mem_filter (List.mem_of_getElem? hmem)
  exact Option.isSome_iff_exists.mp hsome

end

/-! ## What gates a step -/

section

variable (registered : Text → Bool) (threads : List ThreadNode)

/-- All entries of the node's list hold. -/
def NodeHolds (s : WorkersState) (node : Option ConditionNode) : Prop :=
  (ThreadsWorker.load registered threads).holds s (conditionEntries node)

/-- There is such a list, and all its entries hold. -/
def NodeMet (s : WorkersState) (node : Option ConditionNode) : Prop :=
  conditionEntries node ≠ [] ∧ NodeHolds registered threads s node

/-- The document gates the step: a body is begun with the start conditions, a state is skipped for
its skip conditions, and done with the finish conditions. -/
def Gated (s : WorkersState) : WorkerStep → WorkersState → Prop
  | .enter worker, s' =>
      ∀ node, currentNode registered threads s worker = some node →
        (s.state (worker, s.currentState worker) = .idle → s'.phase worker = .body →
          NodeHolds registered threads s node.startCondition) ∧
        ((ThreadsWorker.load registered threads).step s (.enter worker) = some (s', some .success) ↔
          s.state (worker, s.currentState worker) = .idle ∧
            NodeMet registered threads s node.skipCondition)
  | .body _ _, _ => True
  | .finish worker, s' =>
      ∀ node, currentNode registered threads s worker = some node →
        (ThreadsWorker.load registered threads).step s (.finish worker) =
            some (s', some .success) →
          NodeHolds registered threads s node.finishCondition

/-- Where a call of `Execute` finds its state idle, the two lists decide alike. -/
def ListsAgree (s : WorkersState) : WorkerStep → Prop
  | .enter worker =>
      ∀ node, currentNode registered threads s worker = some node → s.phase worker = .entry →
        s.state (worker, s.currentState worker) = .idle →
        (NodeMet registered threads s node.startCondition ↔
          NodeMet registered threads s node.skipCondition) ∧
        (conditionEntries node.skipCondition = [] → conditionEntries node.startCondition = [])
  | _ => True

end

section

variable {registered : Text → Bool} {threads : List ThreadNode}

variable {s : WorkersState} {worker : ℕ} {r : WorkersState × Option ThreadWorkerResult}

theorem enter_eq_some (hdiffer : ListsNamesDiffer threads)
    (h : (ThreadsWorker.load registered threads).step s (.enter worker) = some r) :
    ∃ node, currentNode registered threads s worker = some node ∧ s.phase worker = .entry ∧
      (s.state (worker, s.currentState worker) = .idle →
        (NodeMet registered threads s node.startCondition ∧ r.2 = some .success ∧
            r.1.phase worker = .entry) ∨
          (¬ NodeMet registered threads s node.startCondition ∧ r.2 ≠ some .success ∧
            (r.1.phase worker = .body ↔ NodeHolds registered threads s node.skipCondition))) ∧
      (s.state (worker, s.currentState worker) ≠ .idle → r.2 = none) := by
  obtain ⟨pState, hcurrent, h⟩ := Option.bind_eq_some_iff.mp h
  obtain ⟨node, hnode, hskip, hstart, -⟩ := current_eq_some hdiffer hcurrent
  split at h
  · cases h
  case isFalse hphase =>
  rw [not_not] at hphase
  refine ⟨node, hnode, hphase, ?_⟩
  rw [hskip, hstart] at h
  cases hstate : s.state (worker, s.currentState worker) with
  | idle =>
      rw [hstate] at h
      refine ⟨fun _ => ?_, fun hne => absurd rfl hne⟩
      dsimp only at h
      split at h
      case isTrue hmet =>
        obtain rfl := Option.some.inj h
        exact Or.inl ⟨hmet, rfl, Function.update_self ..⟩
      case isFalse hmet =>
        refine Or.inr ⟨hmet, ?_⟩
        split at h
        case isTrue hholds =>
          obtain rfl := Option.some.inj h
          refine ⟨by simp, fun hbody => ?_, fun hh => absurd hh hholds⟩
          rw [hphase] at hbody
          cases hbody
        case isFalse hholds =>
          obtain rfl := Option.some.inj h
          exact ⟨by simp, fun _ => not_not.mp hholds, fun _ => Function.update_self ..⟩
  | working =>
      rw [hstate] at h
      obtain rfl := Option.some.inj h
      exact ⟨fun hidle => ThreadWorkerState.noConfusion hidle, fun _ => rfl⟩
  | ready =>
      rw [hstate] at h
      obtain rfl := Option.some.inj h
      exact ⟨fun hidle => ThreadWorkerState.noConfusion hidle, fun _ => rfl⟩

theorem nodeHolds_of_nil {node : Option ConditionNode} (h : conditionEntries node = []) :
    NodeHolds registered threads s node := by
  rw [NodeHolds, h]
  rfl

/-- A state that is not skipped begins rightly: whoever begins it on an empty list needs an empty
list. -/
theorem begins_iff {start skip : Option ConditionNode} (h : ¬ NodeMet registered threads s start) :
    ((NodeHolds registered threads s skip → NodeHolds registered threads s start) ∧
        ¬ NodeMet registered threads s skip) ↔
      ¬ NodeMet registered threads s skip ∧
        (conditionEntries skip = [] → conditionEntries start = []) := by
  rw [and_comm]
  refine and_congr_right fun hskip => ?_
  have hstart : NodeHolds registered threads s start ↔ conditionEntries start = [] :=
    ⟨fun hholds => by_contra fun hne => h ⟨hne, hholds⟩, nodeHolds_of_nil⟩
  have hempty : NodeHolds registered threads s skip ↔ conditionEntries skip = [] :=
    ⟨fun hholds => by_contra fun hne => hskip ⟨hne, hholds⟩, nodeHolds_of_nil⟩
  rw [hstart, hempty]

theorem gated_enter_iff (hdiffer : ListsNamesDiffer threads)
    (h : (ThreadsWorker.load registered threads).step s (.enter worker) = some r) :
    Gated registered threads s (.enter worker) r.1 ↔
      ListsAgree registered threads s (.enter worker) := by
  obtain ⟨node, hnode, hphase, hidle, hother⟩ := enter_eq_some hdiffer h
  have hsuccess : (ThreadsWorker.load registered threads).step s (.enter worker) =
      some (r.1, some .success) ↔ r.2 = some .success := by
    rw [h, Option.some_inj, Prod.ext_iff]
    exact and_iff_right rfl
  simp only [Gated, ListsAgree, hnode, Option.some_inj, forall_eq', hphase, forall_const, hsuccess]
  by_cases hstate : s.state (worker, s.currentState worker) = .idle
  · simp only [hstate, forall_const, true_and]
    obtain ⟨hmet, hr, hentry⟩ | ⟨hmet, hr, hbody⟩ := hidle hstate
    · simp only [hmet, hr, hentry, reduceCtorEq, IsEmpty.forall_iff, true_and, true_iff]
      exact ⟨fun hskip => ⟨hskip, fun hnil => absurd hnil hskip.1⟩, And.left⟩
    · simp only [hmet, hr, hbody, false_iff]
      exact begins_iff hmet
  · simp only [hstate, IsEmpty.forall_iff, false_and, iff_false, true_and, hother hstate]
    simp

theorem gated_step_iff (hdiffer : ListsNamesDiffer threads) {i : WorkerStep}
    (h : (ThreadsWorker.load registered threads).step s i = some r) :
    Gated registered threads s i r.1 ↔ ListsAgree registered threads s i := by
  cases i with
  | enter worker => exact gated_enter_iff hdiffer h
  | body worker result => exact Iff.rfl
  | finish worker =>
      refine iff_of_true (fun node hnode hsuccess => ?_) trivial
      obtain ⟨pState, hcurrent, hstep⟩ := Option.bind_eq_some_iff.mp hsuccess
      obtain ⟨node', hnode', -, -, hfinish⟩ := current_eq_some hdiffer hcurrent
      obtain rfl := Option.some.inj (hnode.symm.trans hnode')
      rw [hfinish] at hstep
      split at hstep
      · cases hstep
      · split at hstep
        · simp only [Option.some_inj, Prod.mk.injEq, reduceCtorEq, and_false] at hstep
        case isFalse hholds => exact not_not.mp hholds

theorem listsAgree_of_none {i : WorkerStep}
    (h : (ThreadsWorker.load registered threads).step s i = none) :
    ListsAgree registered threads s i := by
  cases i with
  | enter worker =>
      intro node hnode hphase hidle
      obtain ⟨pState, hcurrent⟩ := exists_current hnode
      simp only [ThreadsWorker.step, hcurrent, Option.bind_eq_bind, Option.bind_some, hphase,
        ne_eq, not_true_eq_false, if_false, hidle] at h
      split at h
      · cases h
      · split at h <;> cases h
  | body worker result => trivial
  | finish worker => trivial

/-- The conditions of a document gate what they say in just the runs in which, whenever a worker
looks at an idle state, the start conditions and the skip conditions decide alike. -/
theorem gated_iff_listsAgree (hdiffer : ListsNamesDiffer threads) (is : List WorkerStep) :
    Steps.Throughout (ThreadsWorker.load registered threads).step (Gated registered threads)
        {} is ↔
      Steps.Along (ThreadsWorker.load registered threads).step (ListsAgree registered threads)
        {} is :=
  Steps.throughout_iff_along (I := fun _ => True) (fun _ _ _ _ h => gated_step_iff hdiffer h)
    (fun _ _ _ _ => trivial) (fun _ _ _ h => listsAgree_of_none h) trivial is

end

/-! ## A state that does not wait -/

def updateReady : ConditionNode where
  items state := if state = .ready then [[3]] else []

/-- A worker draws when another one is ready with its update. -/
def drawThreads : List ThreadNode :=
  [{ name := some [1], states := some [{ name := some [2], startCondition := some updateReady }] },
    { name := some [4], states := some [{ name := some [3] }] }]

theorem listsNamesDiffer_drawThreads : ListsNamesDiffer drawThreads := by
  intro thread hthread states hstates node hnode
  simp only [drawThreads, List.mem_cons, List.not_mem_nil, or_false] at hthread
  obtain rfl | rfl := hthread
  · obtain rfl := Option.some.inj hstates
    obtain rfl := List.mem_singleton.mp hnode
    exact ⟨by decide, by decide, by decide⟩
  · obtain rfl := Option.some.inj hstates
    obtain rfl := List.mem_singleton.mp hnode
    exact ⟨by decide, by decide, by decide⟩

theorem gated_iff_listsAgree_drawThreads :
    Steps.Throughout (ThreadsWorker.load (fun _ => true) drawThreads).step
        (Gated (fun _ => true) drawThreads) {} [.enter 1, .body 1 .success, .enter 0] ↔
      Steps.Along (ThreadsWorker.load (fun _ => true) drawThreads).step
        (ListsAgree (fun _ => true) drawThreads) {} [.enter 1, .body 1 .success, .enter 0] :=
  gated_iff_listsAgree listsNamesDiffer_drawThreads _

/-- It draws while the other one is idle. -/
theorem not_gated_drawThreads :
    ListsNamesDiffer drawThreads ∧
      ¬ Steps.Throughout (ThreadsWorker.load (fun _ => true) drawThreads).step
        (Gated (fun _ => true) drawThreads) {} [.enter 0] := by
  refine ⟨listsNamesDiffer_drawThreads, fun h => ?_⟩
  have hgated := (h _ rfl).1 _ rfl
  have hholds : (ThreadsWorker.load (fun _ => true) drawThreads).holds {}
      (conditionEntries (some updateReady)) = true := hgated.1 rfl rfl
  revert hholds
  decide

end SRCommon
