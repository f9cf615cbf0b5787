import SRCommon.Lib.WorkStack
import SRCommon.SRLM.EnclosedResets
import SRCommon.SRLM.FlowMachine

/-!
# Updates of a machine are depth first

What is done with one active node does not depend on the others. The list of
active nodes with its index is a stack of work: what a node brings is done
before the nodes behind it, and what stays is kept in its order.
-/

namespace SRCommon

open WorkStack (Drains)

/-! ## One active node -/

structure FlowWorld (ν : Type) where
  nodes : RunningNodes ν
  executed : List ν := []

namespace DataType

def flowState : DataType → Option Int64
  | leaf .flow state => some state
  | _ => none

theorem flowState_of_class {this : DataType} (hclass : this.getClass ≠ .flow) :
    this.flowState = none := by
  rcases this with ⟨type, value⟩ | ⟨name, vars⟩
  · cases type with
    | flow => exact absurd rfl hclass
    | _ => rfl
  · rfl

theorem eq_flow_of_class {this : DataType} (hclass : this.getClass = .flow) :
    ∃ state : Int64, this = .leaf .flow state := by
  rcases this with ⟨type, value⟩ | ⟨name, vars⟩
  · cases type with
    | flow => exact ⟨value, rfl⟩
    | value type => cases type <;> cases hclass
    | _ => cases hclass
  · cases hclass

theorem getEnum_of_flow {this : DataType} (hclass : this.getClass = .flow) :
    ∃ state, this.flowState = some state ∧ this.getEnum = some state := by
  obtain ⟨state, rfl⟩ := eq_flow_of_class hclass
  exact ⟨state, rfl, rfl⟩

end DataType

section

variable {ν : Type}

/-- The active node that an output brings. -/
def bring (pNode : ν) (pin : NodePin (Option ν) DataType × ℕ) : Option (ActiveNodeInfo ν) :=
  (pin.1.pData.flowState.filter fun state => state ≠ FlowState.notAvailable.toInt64).map fun _ =>
    ⟨pin.1.getFirstNode, some (pNode, pin.2)⟩

namespace RunningNode

variable (this : RunningNode ν) (pNode : ν)

def brought : List (ActiveNodeInfo ν) := this.outputs.zipIdx.filterMap (bring pNode)

/-- A node with errors stays, and so does one that brings nothing. -/
def brings : Option (List (ActiveNodeInfo ν)) :=
  if this.hasErrors ∨ this.brought pNode = [] then none else some (this.brought pNode)

end RunningNode

namespace FlowMachine

/-- The machine at the first of some active nodes. -/
def atNode (w : FlowWorld ν) (kept ts : List (ActiveNodeInfo ν)) : FlowMachine ν where
  nodes := w.nodes
  active := kept ++ ts
  currentNode := kept.length
  executed := w.executed

variable {w : FlowWorld ν} {kept ts : List (ActiveNodeInfo ν)} {t : ActiveNodeInfo ν}

theorem getCurrentNode_atNode : (atNode w kept (t :: ts)).getCurrentNode = t.pNode := by
  simp [atNode, RunningMachine.getCurrentNode]

theorem getCurrentPin_atNode : (atNode w kept (t :: ts)).getCurrentPin = t.pFromPin := by
  simp [atNode, getCurrentPin]

theorem setCurrentNode_atNode (pNode : Option ν) (pFromPin : Option (ν × ℕ)) :
    (atNode w kept (t :: ts)).setCurrentNode pNode pFromPin =
      atNode w kept (⟨pNode, pFromPin⟩ :: ts) := by
  simp [atNode, setCurrentNode, RunningMachine.setCurrentNode]

/-! ## The loop over the outputs -/

theorem bring_of_class {n : ν} {pin : NodePin (Option ν) DataType × ℕ}
    (hclass : pin.1.pData.getClass ≠ .flow) : bring n pin = none := by
  rw [bring, DataType.flowState_of_class hclass]
  rfl

theorem bring_of_flow {n : ν} {pin : NodePin (Option ν) DataType × ℕ} {state : Int64}
    (hflow : pin.1.pData.flowState = some state) :
    bring n pin = if state = FlowState.notAvailable.toInt64 then none
      else some ⟨pin.1.getFirstNode, some (n, pin.2)⟩ := by
  rw [bring, hflow, Option.filter_some]
  by_cases hstate : state = FlowState.notAvailable.toInt64 <;> simp [hstate]

theorem insertIdx_length_append {α : Type} (l l' : List α) (a : α) :
    (l ++ l').insertIdx l.length a = l ++ a :: l' := by
  induction l with
  | nil => simp
  | cons b l ih => simp [ih]

/-- The first active node that is brought takes the place of the current one, the others come
behind it. -/
def passed (w : FlowWorld ν) (kept ts : List (ActiveNodeInfo ν)) (t : ActiveNodeInfo ν) :
    List (ActiveNodeInfo ν) → PassedPins ν
  | [] => ⟨atNode w kept (t :: ts), false, kept.length + 1⟩
  | t' :: new => ⟨atNode w kept (t' :: new ++ ts), true, kept.length + (new.length + 1)⟩

theorem passPin_passed (n : ν) (new : List (ActiveNodeInfo ν))
    (pin : NodePin (Option ν) DataType × ℕ) :
    passPin n (passed w kept ts t new) pin =
      some (passed w kept ts t (new ++ (bring n pin).toList)) := by
  by_cases hclass : pin.1.pData.getClass = .flow
  · obtain ⟨state, hflow, henum⟩ := DataType.getEnum_of_flow hclass
    rw [bring_of_flow hflow]
    by_cases hstate : state = FlowState.notAvailable.toInt64
    · simp [passPin, hclass, henum, hstate]
    · cases new with
      | nil => simp [passPin, hclass, henum, hstate, passed, setCurrentNode_atNode]
      | cons t' new =>
          have hinsert := insertIdx_length_append (kept ++ t' :: new) ts
            ⟨pin.1.getFirstNode, some (n, pin.2)⟩
          rw [List.length_append, List.length_cons, List.append_assoc, List.append_assoc] at hinsert
          simpa [passPin, hclass, henum, hstate, passed, atNode, Nat.add_assoc] using hinsert
  · rw [passPin, if_pos hclass, bring_of_class hclass, Option.toList_none, List.append_nil]

theorem foldlM_passPin (n : ν) (pins : List (NodePin (Option ν) DataType × ℕ))
    (new : List (ActiveNodeInfo ν)) :
    pins.foldlM (passPin n) (passed w kept ts t new) =
      some (passed w kept ts t (new ++ pins.filterMap (bring n))) := by
  induction pins generalizing new with
  | nil => simp
  | cons pin pins ih =>
      rw [List.foldlM_cons, passPin_passed, Option.bind_eq_bind, Option.bind_some, ih]
      cases hbring : bring n pin <;> simp [hbring]

/-! ## The loop over the active nodes -/

/-- What the loop over the active nodes does behind `Execute`. -/
def nextActive (m : FlowMachine ν) : FlowMachine ν :=
  match m.getCurrentNode with
  | none => { m with active := m.active.eraseIdx m.currentNode }
  | some _ => { m with currentNode := m.currentNode + 1 }

theorem nextActive_nil : (atNode w kept []).nextActive = atNode w kept [] := by
  simp [nextActive, atNode, RunningMachine.getCurrentNode, List.eraseIdx_of_length_le]

theorem nextActive_of_none (hnode : t.pNode = none) :
    (atNode w kept (t :: ts)).nextActive = atNode w kept ts := by
  rw [nextActive, getCurrentNode_atNode, hnode]
  simp [atNode, List.eraseIdx_append_of_length_le]

theorem nextActive_of_some (hnode : t.pNode ≠ none) :
    (atNode w kept (t :: ts)).nextActive = atNode w (kept ++ [t]) ts := by
  obtain ⟨n, hn⟩ := Option.ne_none_iff_exists'.mp hnode
  rw [nextActive, getCurrentNode_atNode, hn]
  simp [atNode]

end FlowMachine

end

variable {ν : Type} [DecidableEq ν]

/-- The nodes after a reset, and the active node behind it. -/
def resetFrom (fuel : ℕ) (nodes : RunningNodes ν) (pStart : ν) :
    Option (RunningNodes ν × ActiveNodeInfo ν) := do
  let node ← (nodes pStart).executeStartReset
  let nodes ← resetNodes pStart fuel (Function.update nodes pStart node) [pStart] [pStart]
  let node ← (nodes pStart).setFirstOutput FlowState.executed.toInt64
  some (Function.update nodes pStart node,
    ⟨node.outputs.head?.bind NodePin.getFirstNode, some (pStart, 0)⟩)

def leaveFrom (nodes : RunningNodes ν) : Option (ν × ℕ) → Option (RunningNodes ν)
  | none => some nodes
  | some pin => RunningNodes.modify nodes pin.1 fun node => node.setOutput pin.2 .executed

/-- What is done with an active node, and what it brings. -/
inductive Advances (kind : ν → FlowKind)
    (compute : RunningNodes ν → ν → Option (RunningNodes ν)) :
    FlowWorld ν → ActiveNodeInfo ν → FlowWorld ν → Option (List (ActiveNodeInfo ν)) → Prop
  | drop {w : FlowWorld ν} (pin : Option (ν × ℕ)) : Advances kind compute w ⟨none, pin⟩ w (some [])
  | compute {w : FlowWorld ν} {n : ν} (pin : Option (ν × ℕ))
      (hkind : (kind n).getType = .compute) : Advances kind compute w ⟨some n, pin⟩ w none
  | connector {w : FlowWorld ν} {n : ν} {pin : Option (ν × ℕ)} {nodes : RunningNodes ν}
      (hkind : (kind n).getType = .connector) (hleave : leaveFrom w.nodes pin = some nodes) :
      Advances kind compute w ⟨some n, pin⟩ ⟨nodes, w.executed⟩ none
  | execute {w : FlowWorld ν} {n : ν} {pin : Option (ν × ℕ)} {nodes nodes' : RunningNodes ν}
      (hkind : (kind n).getType = .executable ∨ (kind n).getType = .endReset)
      (hleave : leaveFrom w.nodes pin = some nodes)
      (hexec : nodes.executeNode kind compute n = some nodes') :
      Advances kind compute w ⟨some n, pin⟩ ⟨nodes', w.executed ++ [n]⟩ ((nodes' n).brings n)
  | reset {w : FlowWorld ν} {n : ν} {pin : Option (ν × ℕ)} {nodes nodes' : RunningNodes ν}
      {fuel : ℕ} {t : ActiveNodeInfo ν} (hkind : (kind n).getType = .startReset)
      (hleave : leaveFrom w.nodes pin = some nodes)
      (hreset : resetFrom fuel nodes n = some (nodes', t)) :
      Advances kind compute w ⟨some n, pin⟩ ⟨nodes', w.executed ++ [n]⟩ (some [t])

namespace FlowMachine

variable {kind : ν → FlowKind} {compute : RunningNodes ν → ν → Option (RunningNodes ν)}
  {w w' : FlowWorld ν} {kept ts ts' : List (ActiveNodeInfo ν)} {t t' : ActiveNodeInfo ν}
  {fuel : ℕ} {m m' : FlowMachine ν}

/-- The machine after a node has been left to what it brings. -/
def turned (w : FlowWorld ν) (kept ts : List (ActiveNodeInfo ν)) (t : ActiveNodeInfo ν) :
    Option (List (ActiveNodeInfo ν)) → FlowMachine ν × Bool
  | none => (atNode w kept (t :: ts), false)
  | some new => (atNode w kept (new ++ ts), true)

theorem leavePin_atNode : (atNode w kept (t :: ts)).leavePin =
    (leaveFrom w.nodes t.pFromPin).map fun nodes => atNode ⟨nodes, w.executed⟩ kept (t :: ts) := by
  unfold leavePin leaveFrom
  rw [getCurrentPin_atNode]
  cases t.pFromPin with
  | none => rfl
  | some pin => rfl

theorem processExecutable_atNode {n : ν} (hnode : t.pNode = some n) :
    (atNode w kept (t :: ts)).processExecutable kind compute =
      (w.nodes.executeNode kind compute n).map fun nodes =>
        turned ⟨nodes, w.executed ++ [n]⟩ kept ts t ((nodes n).brings n) := by
  rw [processExecutable, getCurrentNode_atNode, hnode]
  change (w.nodes.executeNode kind compute n).bind _ = _
  cases hexec : w.nodes.executeNode kind compute n with
  | none => rfl
  | some nodes =>
      rw [Option.bind_some, Option.map_some, RunningNode.brings]
      have hfold : (nodes n).outputs.zipIdx.foldlM (passPin n)
          ⟨atNode ⟨nodes, w.executed ++ [n]⟩ kept (t :: ts), false, kept.length + 1⟩ =
            some (passed ⟨nodes, w.executed ++ [n]⟩ kept ts t ((nodes n).brought n)) :=
        foldlM_passPin n _ []
      by_cases herrors : (nodes n).hasErrors
      · rw [if_pos herrors, if_pos (Or.inl herrors)]
        rfl
      · rw [if_neg herrors]
        refine (congrArg (Option.bind · _) hfold).trans ?_
        rw [Option.bind_some]
        cases (nodes n).brought n <;> simp [herrors, passed, turned]

theorem processReset_atNode {n : ν} (hnode : t.pNode = some n) :
    (atNode w kept (t :: ts)).processReset fuel =
      (resetFrom fuel w.nodes n).map fun r =>
        turned ⟨r.1, w.executed ++ [n]⟩ kept ts t (some [r.2]) := by
  have hcurrent : (atNode w kept (t :: ts)).getCurrentNode = some n :=
    getCurrentNode_atNode.trans hnode
  have hnodes : (atNode w kept (t :: ts)).nodes = w.nodes := rfl
  rw [processReset, hcurrent, resetFrom]
  simp only [RunningMachine.processReset, hcurrent, hnodes, Option.bind_eq_bind, Option.bind_some]
  cases hstart : (w.nodes n).executeStartReset with
  | none => rfl
  | some node =>
      have houtputs : node.outputs ≠ [] := by
        obtain ⟨node', hfirst, rfl⟩ := Option.map_eq_some_iff.mp hstart
        exact (setFirstOutput_cases hfirst).2.2.2.2
      rw [Option.bind_some, Option.bind_some, if_neg houtputs]
      cases hreset : resetNodes n fuel (Function.update w.nodes n node) [n] [n] with
      | none => rfl
      | some nodes =>
          rw [Option.bind_some, Option.bind_some, RunningMachine.leaveStart]
          cases hleave : (nodes n).setFirstOutput FlowState.executed.toInt64 with
          | none => rfl
          | some node' =>
              simp [atNode, turned, RunningMachine.setCurrentNode]

theorem advances_of_null {new : Option (List (ActiveNodeInfo ν))} (hnode : t.pNode = none)
    (h : Advances kind compute w t w' new) : w' = w ∧ new = some [] := by
  cases h with
  | drop pin => exact ⟨rfl, rfl⟩
  | _ => cases hnode

/-- One `Execute` is a step of the active node. -/
theorem advances_of_execute {r : FlowMachine ν × Bool} (hnode : t.pNode ≠ none)
    (h : (atNode w kept (t :: ts)).execute kind compute fuel = some r) :
    ∃ w' new, Advances kind compute w t w' new ∧ r = turned w' kept ts t new := by
  obtain ⟨pNode, pin⟩ := t
  obtain ⟨n, rfl⟩ := Option.ne_none_iff_exists'.mp hnode
  rw [execute, getCurrentNode_atNode] at h
  change (if (kind n).getType = .compute then _ else _) = _ at h
  split at h
  next hkind =>
    cases h
    exact ⟨w, none, .compute pin hkind, rfl⟩
  next hcompute =>
    obtain ⟨m, hleave, h⟩ := Option.bind_eq_some_iff.mp h
    rw [leavePin_atNode] at hleave
    obtain ⟨nodes, hfrom, rfl⟩ := Option.map_eq_some_iff.mp hleave
    split at h
    case h_1 hkind =>
      rw [processExecutable_atNode rfl] at h
      obtain ⟨nodes', hexec, rfl⟩ := Option.map_eq_some_iff.mp h
      exact ⟨_, _, .execute (.inl hkind) hfrom hexec, rfl⟩
    case h_2 hkind =>
      rw [processExecutable_atNode rfl] at h
      obtain ⟨nodes', hexec, rfl⟩ := Option.map_eq_some_iff.mp h
      exact ⟨_, _, .execute (.inr hkind) hfrom hexec, rfl⟩
    case h_3 hkind =>
      rw [processReset_atNode rfl] at h
      obtain ⟨⟨nodes', t⟩, hreset, rfl⟩ := Option.map_eq_some_iff.mp h
      exact ⟨_, _, .reset hkind hfrom hreset, rfl⟩
    case h_4 hkind => exact absurd hkind hcompute
    case h_5 hkind =>
      cases h
      exact ⟨_, none, .connector hkind hfrom, rfl⟩

theorem resetNodes_mono {pStart : ν} {fuel' : ℕ} {nodes nodes' : RunningNodes ν}
    {passed queue : List ν} (hle : fuel ≤ fuel')
    (h : resetNodes pStart fuel nodes passed queue = some nodes') :
    resetNodes pStart fuel' nodes passed queue = some nodes' := by
  induction fuel generalizing fuel' nodes passed queue with
  | zero => cases h
  | succ fuel ih =>
      obtain ⟨k, rfl⟩ : ∃ k, fuel' = k + 1 := ⟨fuel' - 1, by omega⟩
      cases queue with
      | nil => exact h
      | cons n queue =>
          rw [resetNodes] at h ⊢
          exact ih (Nat.le_of_add_le_add_right hle) h

theorem resetFrom_mono {n : ν} {fuel' : ℕ} {nodes : RunningNodes ν}
    {r : RunningNodes ν × ActiveNodeInfo ν} (hle : fuel ≤ fuel')
    (h : resetFrom fuel nodes n = some r) : resetFrom fuel' nodes n = some r := by
  obtain ⟨node, hstart, h⟩ := Option.bind_eq_some_iff.mp h
  obtain ⟨nodes', hreset, h⟩ := Option.bind_eq_some_iff.mp h
  rw [resetFrom, hstart]
  simpa only [Option.bind_eq_bind, Option.bind_some, resetNodes_mono hle hreset] using h

theorem execute_of_advances {new : Option (List (ActiveNodeInfo ν))} (hnode : t.pNode ≠ none)
    (h : Advances kind compute w t w' new) (kept ts : List (ActiveNodeInfo ν)) :
    ∃ bound, ∀ fuel, bound ≤ fuel →
      (atNode w kept (t :: ts)).execute kind compute fuel = some (turned w' kept ts t new) := by
  cases h with
  | drop pin => exact absurd rfl hnode
  | compute pin hkind =>
      refine ⟨0, fun fuel _ => ?_⟩
      rw [execute, getCurrentNode_atNode]
      exact if_pos hkind
  | connector hkind hleave =>
      refine ⟨0, fun fuel _ => ?_⟩
      simp only [execute, getCurrentNode_atNode, leavePin_atNode, hkind, hleave]
      rfl
  | execute hkind hleave hexec =>
      refine ⟨0, fun fuel _ => ?_⟩
      rcases hkind with hkind | hkind
      all_goals
        simp only [execute, getCurrentNode_atNode, leavePin_atNode, hkind, hleave]
        refine (processExecutable_atNode rfl).trans ?_
        rw [hexec]
        rfl
  | @reset n pin nodes nodes' bound t hkind hleave hreset =>
      refine ⟨bound, fun fuel hfuel => ?_⟩
      simp only [execute, getCurrentNode_atNode, leavePin_atNode, hkind, hleave]
      refine (processReset_atNode rfl).trans ?_
      rw [resetFrom_mono hfuel hreset]
      rfl

/-! ## The loops -/

theorem updateLoop_nil (innerFuel fuel : ℕ) :
    (atNode w kept []).updateLoop kind compute innerFuel (fuel + 1) = some (atNode w kept []) := by
  rw [updateLoop, if_neg]
  simp [atNode]

theorem updateLoop_cons (innerFuel fuel : ℕ) :
    (atNode w kept (t :: ts)).updateLoop kind compute innerFuel (fuel + 1) =
      ((atNode w kept (t :: ts)).executeAll kind compute innerFuel innerFuel).bind fun m =>
        m.nextActive.updateLoop kind compute innerFuel fuel := by
  rw [updateLoop, if_pos]
  · refine congrArg (Option.bind _) (funext fun m => ?_)
    rw [nextActive]
    cases m.getCurrentNode <;> rfl
  · simp [atNode]

theorem executeAll_nil (innerFuel fuel : ℕ) :
    (atNode w kept []).executeAll kind compute innerFuel (fuel + 1) = some (atNode w kept []) := by
  simp [executeAll, execute, atNode, RunningMachine.getCurrentNode]

theorem executeAll_of_none (hnode : t.pNode = none) (innerFuel fuel : ℕ) :
    (atNode w kept (t :: ts)).executeAll kind compute innerFuel (fuel + 1) =
      some (atNode w kept (t :: ts)) := by
  rw [executeAll, execute, getCurrentNode_atNode, hnode]
  rfl

/-- `while (Execute(dt));` ends at an active node that stays or is null. -/
theorem drains_of_executeAll {innerFuel : ℕ}
    (h : (atNode w kept ts).executeAll kind compute innerFuel fuel = some m) :
    ∃ w₁ stays rest, m.nextActive = atNode w₁ (kept ++ stays) rest ∧
      ∀ w' kept', Drains (Advances kind compute) w₁ rest w' kept' →
        Drains (Advances kind compute) w ts w' (stays ++ kept') := by
  induction fuel generalizing w ts with
  | zero => cases h
  | succ fuel ih =>
      cases ts with
      | nil =>
          rw [executeAll_nil] at h
          cases h
          rw [nextActive_nil]
          exact ⟨w, [], [], by rw [List.append_nil], fun w' kept' h => h⟩
      | cons t ts =>
          by_cases hnode : t.pNode = none
          · rw [executeAll_of_none hnode] at h
            cases h
            rw [nextActive_of_none hnode]
            refine ⟨w, [], ts, by rw [List.append_nil], fun w' kept' hrest => ?_⟩
            obtain ⟨pNode, pin⟩ := t
            obtain rfl : pNode = none := hnode
            exact .next (.drop pin) hrest
          · obtain ⟨⟨m₁, goesOn⟩, hexec, h⟩ := Option.bind_eq_some_iff.mp h
            obtain ⟨w₁, new, hstep, hr⟩ := advances_of_execute hnode hexec
            cases new with
            | none =>
                cases hr
                cases h
                rw [nextActive_of_some hnode]
                exact ⟨w₁, [t], ts, rfl, fun w' kept' hrest => .stay hstep hrest⟩
            | some new =>
                cases hr
                obtain ⟨w₂, stays, rest, hm, hrest⟩ := ih h
                exact ⟨w₂, stays, rest, hm, fun w' kept' h => .next hstep (hrest w' kept' h)⟩

theorem drains_of_updateLoop {innerFuel : ℕ}
    (h : (atNode w kept ts).updateLoop kind compute innerFuel fuel = some m) :
    ∃ w' kept', Drains (Advances kind compute) w ts w' kept' ∧
      m = atNode w' (kept ++ kept') [] := by
  induction fuel generalizing w kept ts with
  | zero => cases h
  | succ fuel ih =>
      cases ts with
      | nil =>
          rw [updateLoop_nil] at h
          cases h
          exact ⟨w, [], .nil w, by rw [List.append_nil]⟩
      | cons t ts =>
          rw [updateLoop_cons] at h
          obtain ⟨m₁, hall, h⟩ := Option.bind_eq_some_iff.mp h
          obtain ⟨w₁, stays, rest, hm, hdrains⟩ := drains_of_executeAll hall
          rw [hm] at h
          obtain ⟨w', kept', hrest, rfl⟩ := ih h
          exact ⟨w', stays ++ kept', hdrains w' kept' hrest, by rw [List.append_assoc]⟩

/-- The loops end from any fuel of a bound on. The machine is at the start of the outer loop, or in
the inner one. -/
structure Finishes (kind : ν → FlowKind) (compute : RunningNodes ν → ν → Option (RunningNodes ν))
    (m m' : FlowMachine ν) : Prop where
  outer : ∃ bound, ∀ innerFuel fuel, bound ≤ innerFuel → bound ≤ fuel →
    m.updateLoop kind compute innerFuel fuel = some m'
  inner : ∃ bound, ∀ innerFuel fuel fuel', bound ≤ innerFuel → bound ≤ fuel → bound ≤ fuel' →
    (m.executeAll kind compute innerFuel fuel').bind (fun m =>
      m.nextActive.updateLoop kind compute innerFuel fuel) = some m'

theorem finishes_nil : Finishes kind compute (atNode w kept []) (atNode w kept []) where
  outer := by
    refine ⟨1, fun innerFuel fuel _ hfuel => ?_⟩
    obtain ⟨k, rfl⟩ := Nat.exists_eq_add_of_le' hfuel
    exact updateLoop_nil innerFuel k
  inner := by
    refine ⟨1, fun innerFuel fuel fuel' _ hfuel hfuel' => ?_⟩
    obtain ⟨k, rfl⟩ := Nat.exists_eq_add_of_le' hfuel
    obtain ⟨k', rfl⟩ := Nat.exists_eq_add_of_le' hfuel'
    rw [executeAll_nil, Option.bind_some, nextActive_nil]
    exact updateLoop_nil innerFuel k

theorem finishes_cons
    (h : ∃ bound, ∀ innerFuel fuel fuel', bound ≤ innerFuel → bound ≤ fuel → bound ≤ fuel' →
      ((atNode w kept (t :: ts)).executeAll kind compute innerFuel fuel').bind (fun m =>
        m.nextActive.updateLoop kind compute innerFuel fuel) = some m') :
    Finishes kind compute (atNode w kept (t :: ts)) m' where
  outer := by
    obtain ⟨bound, h⟩ := h
    refine ⟨bound + 1, fun innerFuel fuel hinner hfuel => ?_⟩
    obtain ⟨k, rfl⟩ := Nat.exists_eq_add_of_le' (Nat.le_of_add_left_le hfuel)
    rw [updateLoop_cons]
    exact h innerFuel k innerFuel (by omega) (by omega) (by omega)
  inner := h

theorem finishes_of_drains (h : Drains (Advances kind compute) w ts w' ts') :
    ∀ kept, Finishes kind compute (atNode w kept ts) (atNode w' (kept ++ ts') []) := by
  induction h with
  | nil w =>
      intro kept
      rw [List.append_nil]
      exact finishes_nil
  | @stay w w₁ w' t ts ts' hstep hrest ih =>
      intro kept
      have hnode : t.pNode ≠ none := fun hnone => by cases (advances_of_null hnone hstep).2
      obtain ⟨bound, hexec⟩ := execute_of_advances hnode hstep kept ts
      obtain ⟨⟨bound', houter⟩, -⟩ := ih (kept ++ [t])
      refine finishes_cons ⟨bound + bound' + 1, fun innerFuel fuel fuel' hinner hfuel hfuel' => ?_⟩
      obtain ⟨k, rfl⟩ := Nat.exists_eq_add_of_le' (Nat.le_of_add_left_le hfuel')
      rw [executeAll, hexec innerFuel (by omega)]
      change (updateLoop kind compute innerFuel fuel (atNode w₁ kept (t :: ts)).nextActive) = _
      rw [nextActive_of_some hnode, houter innerFuel fuel (by omega) (by omega), List.append_assoc,
        List.singleton_append]
  | @next w w₁ w' t new ts ts' hstep hrest ih =>
      intro kept
      obtain ⟨⟨bound', houter⟩, ⟨bound₂, hinner⟩⟩ := ih kept
      by_cases hnode : t.pNode = none
      · obtain ⟨rfl, hnew⟩ := advances_of_null hnode hstep
        cases hnew
        refine finishes_cons ⟨bound' + 1, fun innerFuel fuel fuel' hinner hfuel hfuel' => ?_⟩
        obtain ⟨k, rfl⟩ := Nat.exists_eq_add_of_le' (Nat.le_of_add_left_le hfuel')
        rw [executeAll_of_none hnode, Option.bind_some, nextActive_of_none hnode]
        exact houter innerFuel fuel (by omega) (by omega)
      · obtain ⟨bound, hexec⟩ := execute_of_advances hnode hstep kept ts
        refine finishes_cons ⟨bound + bound₂ + 1, fun innerFuel fuel fuel' hin hfuel hfuel' => ?_⟩
        obtain ⟨k, rfl⟩ := Nat.exists_eq_add_of_le' (Nat.le_of_add_left_le hfuel')
        rw [executeAll, hexec innerFuel (by omega)]
        exact hinner innerFuel fuel k (by omega) (by omega) (by omega)

/-! ## Updates -/

/-- `UpdateMachine` ends. -/
def Updates (kind : ν → FlowKind) (compute : RunningNodes ν → ν → Option (RunningNodes ν))
    (m m' : FlowMachine ν) : Prop :=
  ∃ fuel, m.updateMachine kind compute fuel = some m'

/-- An update ends if and only if the work that starts with the active nodes can be done, and then
the machine is as this leaves it. -/
theorem updates_iff_drains : Updates kind compute m m' ↔
    Drains (Advances kind compute) ⟨m.nodes, m.executed⟩ m.active ⟨m'.nodes, m'.executed⟩
      m'.active ∧ m'.currentNode = m'.active.length := by
  have hstart : { m with currentNode := 0 } = atNode ⟨m.nodes, m.executed⟩ [] m.active := rfl
  simp only [Updates, updateMachine, hstart]
  constructor
  · rintro ⟨fuel, h⟩
    obtain ⟨w', kept', hdrains, rfl⟩ := drains_of_updateLoop h
    simpa [atNode] using hdrains
  · rintro ⟨hdrains, hcurrent⟩
    obtain ⟨⟨bound, houter⟩, -⟩ := finishes_of_drains hdrains []
    refine ⟨bound, (houter bound bound le_rfl le_rfl).trans ?_⟩
    rw [List.nil_append, atNode, List.append_nil, ← hcurrent]

theorem exists_updates (h : ∃ w' kept, Drains (Advances kind compute) ⟨m.nodes, m.executed⟩
    m.active w' kept) : ∃ m', Updates kind compute m m' := by
  obtain ⟨w', kept, h⟩ := h
  exact ⟨atNode w' kept [], updates_iff_drains.mpr ⟨by simpa [atNode] using h, by simp [atNode]⟩⟩

/-- The first active nodes are done with before the others, which only see what has become of the
nodes. -/
theorem updates_append : Updates kind compute { m with active := ts ++ ts' } m' ↔
    ∃ m₁ m₂, Updates kind compute { m with active := ts } m₁ ∧
      Updates kind compute { m₁ with active := ts' } m₂ ∧
      m' = { m₂ with
        active := m₁.active ++ m₂.active
        currentNode := m₁.active.length + m₂.active.length } := by
  simp only [updates_iff_drains]
  constructor
  · rintro ⟨h, hcurrent⟩
    obtain ⟨w₁, kept₁, kept₂, h₁, h₂, hactive⟩ := h.split
    refine ⟨atNode w₁ kept₁ [], atNode ⟨m'.nodes, m'.executed⟩ kept₂ [], ?_, ?_, ?_⟩
    · simpa [atNode] using h₁
    · simpa [atNode] using h₂
    · obtain ⟨⟨nodes, active, currentNode⟩, executed⟩ := m'
      obtain rfl : active = kept₁ ++ kept₂ := hactive
      obtain rfl : currentNode = (kept₁ ++ kept₂).length := hcurrent
      simp [atNode]
  · rintro ⟨m₁, m₂, ⟨h₁, -⟩, ⟨h₂, -⟩, rfl⟩
    exact ⟨h₁.append h₂, List.length_append.symm⟩

end FlowMachine

end SRCommon
