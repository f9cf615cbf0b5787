import SRCommon.SRLM.ProcessReset

/-!
# What a reset reaches

The nodes that a start node encloses are those behind it that can be reached
without an end node. `ProcessReset` resets each of them and nothing else.
-/

namespace SRCommon

open QueueSearch (Reaches meet search)

section

variable {ν : Type}

/-- A link from an output to a node that is no end node. -/
def FlowsTo (nodes : ν → RunningNode ν) (a b : ν) : Prop :=
  ∃ connection ∈ (nodes a).outputConnections,
    connection.pNode = some b ∧ (nodes b).type ≠ .endReset

def Encloses (nodes : ν → RunningNode ν) : ν → ν → Prop := Relation.ReflTransGen (FlowsTo nodes)

/-- The status is `None` and all flows are `NotAvailable`. -/
structure IsReset (node node' : RunningNode ν) : Prop where
  status : node'.status = LogicalNodeStatus.none
  outputFlows : ∀ (i : ℕ) pin, node.outputs[i]? = some pin → pin.pData.getClass = .flow →
    node'.outputs[i]? =
      some { pin with pData := .leaf .flow FlowState.notAvailable.toInt64 }

/-- All nodes that the start node encloses are reset, and those that it does not are as before. -/
structure ResetsEnclosed (nodes : ν → RunningNode ν) (pStart : ν) (nodes' : ν → RunningNode ν) :
    Prop where
  enclosed : ∀ n, n ≠ pStart → Encloses nodes pStart n → IsReset (nodes n) (nodes' n)
  others : ∀ n, n ≠ pStart → ¬ Encloses nodes pStart n → nodes' n = nodes n

/-- Two graphs with the same links between nodes of the same types. -/
def SameLinks (nodes nodes' : ν → RunningNode ν) : Prop :=
  ∀ n, (nodes' n).type = (nodes n).type ∧
    (nodes' n).outputConnections = (nodes n).outputConnections

variable {nodes nodes' : ν → RunningNode ν} {node node' : RunningNode ν} {pStart n : ν}

theorem SameLinks.flowsTo (h : SameLinks nodes nodes') : FlowsTo nodes' = FlowsTo nodes := by
  funext a b
  simp only [FlowsTo, (h a).2, (h b).1]

/-! ## Links -/

/-- The far end of a link, unless it is null or an end node. -/
def farEnd (nodes : ν → RunningNode ν) (connection : NodeConnect (Option ν)) : Option ν :=
  connection.pNode.filter fun pNode => (nodes pNode).type ≠ .endReset

def nextNodes (nodes : ν → RunningNode ν) (n : ν) : List ν :=
  (nodes n).outputConnections.filterMap (farEnd nodes)

theorem SameLinks.nextNodes (h : SameLinks nodes nodes') :
    nextNodes nodes' = SRCommon.nextNodes nodes := by
  have hfar : farEnd nodes' = farEnd nodes := by
    funext connection
    simp only [farEnd, (h _).1]
  funext n
  rw [SRCommon.nextNodes, SRCommon.nextNodes, (h n).2, hfar]

theorem mem_nextNodes {a b : ν} : b ∈ nextNodes nodes a ↔ FlowsTo nodes a b := by
  simp only [nextNodes, FlowsTo, List.mem_filterMap, farEnd, Option.filter_eq_some_iff,
    decide_eq_true_eq]

theorem reaches_nextNodes : Reaches (nextNodes nodes) = Encloses nodes := by
  have hstep : (fun a b => b ∈ nextNodes nodes a) = FlowsTo nodes :=
    funext fun a => funext fun b => propext mem_nextNodes
  rw [QueueSearch.Reaches, hstep]
  rfl

/-! ## One node -/

theorem resetFlow_of_flow {pin : NodePin (Option ν) DataType} (h : pin.pData.getClass = .flow) :
    pin.resetFlow = { pin with pData := .leaf .flow FlowState.notAvailable.toInt64 } := by
  obtain ⟨connections, data⟩ := pin
  rcases data with ⟨type, value⟩ | ⟨name, vars⟩
  · rcases type with _ | _ | _ | reflector | type
    · cases h
    · rfl
    · cases h
    · cases h
    · cases type <;> cases h
  · cases h

theorem connections_resetFlow (pin : NodePin (Option ν) DataType) :
    pin.resetFlow.connections = pin.connections := by
  unfold NodePin.resetFlow
  split <;> rfl

theorem outputConnections_resetOutputFlows (node : RunningNode ν) :
    node.resetOutputFlows.outputConnections = node.outputConnections := by
  unfold RunningNode.resetOutputFlows RunningNode.outputConnections
  rw [List.flatMap_map]
  exact congrArg (fun f => node.outputs.flatMap f) (funext connections_resetFlow)

theorem isReset_reset (node : RunningNode ν) : IsReset node node.resetOutputFlows.resetStatus where
  status := rfl
  outputFlows i pin hpin hflow := by
    change (node.outputs.map NodePin.resetFlow)[i]? = _
    rw [List.getElem?_map, hpin, Option.map_some, resetFlow_of_flow hflow]

/-- The first output is there and has place for the state. -/
theorem setFirstOutput_cases {value : Int64} (h : node.setFirstOutput value = some node') :
    node'.type = node.type ∧ node'.outputConnections = node.outputConnections ∧
      node'.HasState ∧ node.HasState ∧ node'.outputs ≠ [] := by
  unfold RunningNode.setFirstOutput at h
  split at h
  · cases h
  next pin outputs houtputs =>
    obtain ⟨pData, hdata, rfl⟩ := Option.map_eq_some_iff.mp h
    have hholds : pin.pData.HoldsInteger := by
      rw [← DataType.isSome_setEnum value, hdata]
      rfl
    have hholds' : pData.HoldsInteger := by
      rw [DataType.HoldsInteger, DataType.getClass_of_setEnum hdata]
      exact hholds
    refine ⟨rfl, ?_, ⟨_, rfl, hholds'⟩, ⟨pin, ?_, hholds⟩, List.cons_ne_nil _ _⟩
    · rw [RunningNode.outputConnections, RunningNode.outputConnections, houtputs]
      rfl
    · rw [houtputs]
      rfl

theorem exists_setFirstOutput (h : node.HasState) (value : Int64) :
    ∃ node', node.setFirstOutput value = some node' := by
  obtain ⟨pin, hpin, hholds⟩ := h
  obtain ⟨pData, hdata⟩ := Option.isSome_iff_exists.mp
    ((DataType.isSome_setEnum value).mpr hholds)
  rw [RunningNode.setFirstOutput]
  split
  next hnil =>
    rw [hnil] at hpin
    cases hpin
  next pin' outputs houtputs =>
    rw [houtputs] at hpin
    cases hpin
    rw [hdata]
    exact ⟨_, rfl⟩

end

/-! ## The loop -/

section

variable {ν : Type} [DecidableEq ν] {nodes nodes' : ν → RunningNode ν} {node : RunningNode ν}
  {pStart n : ν} {m m' : RunningMachine ν}

theorem sameLinks_update (htype : node.type = (nodes n).type)
    (hlinks : node.outputConnections = (nodes n).outputConnections) :
    SameLinks nodes (Function.update nodes n node) := by
  intro k
  rcases eq_or_ne k n with rfl | hne
  · rw [Function.update_self]
    exact ⟨htype, hlinks⟩
  · rw [Function.update_of_ne hne]
    exact ⟨rfl, rfl⟩

theorem sameLinks_resetNode (pStart : ν) (nodes : ν → RunningNode ν) (n : ν) :
    SameLinks nodes (resetNode pStart nodes n) := by
  rw [resetNode]
  split
  · exact fun k => ⟨rfl, rfl⟩
  · exact sameLinks_update rfl (outputConnections_resetOutputFlows (nodes n))

theorem passConnection_eq (nodes : ν → RunningNode ν) (r : List ν × List ν)
    (connection : NodeConnect (Option ν)) :
    passConnection nodes r connection = (farEnd nodes connection).elim r (meet r) := by
  rw [passConnection, farEnd]
  split
  next hnull => rw [hnull, Option.filter_none, Option.elim_none]
  next pNode hnode =>
    rw [hnode, Option.filter_some]
    by_cases htype : (nodes pNode).type = .endReset
    · simp [htype]
    · simp [htype, QueueSearch.meet]

theorem foldl_passConnection (nodes : ν → RunningNode ν)
    (connections : List (NodeConnect (Option ν))) (r : List ν × List ν) :
    connections.foldl (passConnection nodes) r =
      (connections.filterMap (farEnd nodes)).foldl meet r := by
  induction connections generalizing r with
  | nil => rfl
  | cons connection connections ih =>
      rw [List.foldl_cons, ih, passConnection_eq, List.filterMap_cons]
      cases farEnd nodes connection <;> rfl

/-- The loop is a search of the graph behind the start node. -/
theorem resetNodes_eq_search (pStart : ν) (fuel : ℕ) (nodes : ν → RunningNode ν)
    (passed queue : List ν) :
    resetNodes pStart fuel nodes passed queue =
      search nextNodes (resetNode pStart) fuel nodes passed queue := by
  induction fuel generalizing nodes passed queue with
  | zero => rfl
  | succ fuel ih =>
      cases queue with
      | nil => rfl
      | cons n queue =>
          rw [resetNodes, search, ih, foldl_passConnection]
          rfl

theorem foldl_resetNode {order : List ν} (hnodup : order.Nodup) (nodes : ν → RunningNode ν)
    (n : ν) :
    order.foldl (resetNode pStart) nodes n =
      if n ∈ order ∧ n ≠ pStart then (nodes n).resetOutputFlows.resetStatus else nodes n := by
  have hupdate : resetNode pStart = fun nodes k => Function.update nodes k
      (if k = pStart then nodes k else (nodes k).resetOutputFlows.resetStatus) := by
    funext nodes k
    rw [resetNode]
    split
    · rw [Function.update_eq_self]
    · rfl
  rw [hupdate]
  refine (QueueSearch.foldl_update_apply
    (fun k node => if k = pStart then node else node.resetOutputFlows.resetStatus) hnodup
    nodes n).trans ?_
  by_cases hn : n ∈ order <;> by_cases hs : n = pStart <;> simp [hn, hs]

/-- The loop ends and has reset the enclosed nodes. -/
theorem exists_resetNodes (hfinite : {n | Encloses nodes pStart n}.Finite) :
    ∃ nodes', (∃ bound, ∀ fuel, bound ≤ fuel →
        resetNodes pStart fuel nodes [pStart] [pStart] = some nodes') ∧
      nodes' pStart = nodes pStart ∧ ResetsEnclosed nodes pStart nodes' := by
  rw [← reaches_nextNodes] at hfinite
  have hlinks : ∀ nodes n, nextNodes (resetNode pStart nodes n) = nextNodes nodes :=
    fun nodes n => (sameLinks_resetNode pStart nodes n).nextNodes
  obtain ⟨order, hnodup, hmem, bound, hsearch⟩ := QueueSearch.exists_search hlinks hfinite
  rw [reaches_nextNodes] at hmem
  refine ⟨order.foldl (resetNode pStart) nodes, ⟨bound, fun fuel hfuel => ?_⟩, ?_, ?_, ?_⟩
  · rw [resetNodes_eq_search, hsearch fuel hfuel]
  · rw [foldl_resetNode hnodup, if_neg fun h => h.2 rfl]
  · intro n hn henclosed
    rw [foldl_resetNode hnodup, if_pos ⟨(hmem n).mpr henclosed, hn⟩]
    exact isReset_reset (nodes n)
  · intro n hn hnot
    rw [foldl_resetNode hnodup, if_neg fun h => hnot ((hmem n).mp h.1)]

/-- What is done to the start node itself is left open. -/
theorem ResetsEnclosed.of_update {node' : RunningNode ν}
    (hlinks : SameLinks nodes (Function.update nodes pStart node))
    (h : ResetsEnclosed (Function.update nodes pStart node) pStart nodes') :
    ResetsEnclosed nodes pStart (Function.update nodes' pStart node') := by
  have hencloses : Encloses (Function.update nodes pStart node) = Encloses nodes := by
    unfold Encloses
    rw [hlinks.flowsTo]
  constructor
  · intro n hn henclosed
    have hreset := h.enclosed n hn (hencloses ▸ henclosed)
    rw [Function.update_of_ne hn] at hreset ⊢
    exact hreset
  · intro n hn hnot
    have hsame := h.others n hn (hencloses ▸ hnot)
    rw [Function.update_of_ne hn] at hsame ⊢
    exact hsame

/-! ## The whole step -/

namespace RunningMachine

structure AtStart (m : RunningMachine ν) (pStart : ν) : Prop where
  current : m.getCurrentNode = some pStart
  type : (m.nodes pStart).type = .startReset
  finite : {n | Encloses m.nodes pStart n}.Finite

/-- `ProcessReset` ends, and has reset what the start node encloses. -/
def Resets (m : RunningMachine ν) (pStart : ν) : Prop :=
  ∃ r, (∃ bound, ∀ fuel, bound ≤ fuel → m.processReset fuel = some r) ∧
    ResetsEnclosed m.nodes pStart r.1.nodes

theorem exists_leaveStart (h : (m.nodes pStart).HasState) :
    ∃ m' node', m.leaveStart pStart = some m' ∧
      m'.nodes = Function.update m.nodes pStart node' := by
  obtain ⟨node', hnode'⟩ := exists_setFirstOutput h FlowState.executed.toInt64
  rw [leaveStart, hnode']
  exact ⟨_, node', rfl, rfl⟩

/-- `ProcessReset` does what it is for if and only if the first output of the start node is there
and can take a state. -/
theorem resets_iff_hasState (hm : m.AtStart pStart) :
    m.Resets pStart ↔ (m.nodes pStart).HasState := by
  constructor
  · rintro ⟨r, ⟨bound, hr⟩, -⟩
    obtain ⟨s, hs, hrest⟩ := Option.bind_eq_some_iff.mp (hr bound le_rfl)
    obtain ⟨node, hnode, -⟩ := Option.bind_eq_some_iff.mp hrest
    obtain ⟨node', hnode', -⟩ := Option.map_eq_some_iff.mp hnode
    rw [hm.current] at hs
    cases hs
    exact (setFirstOutput_cases hnode').2.2.2.1
  · intro hstate
    obtain ⟨node, hnode⟩ := exists_setFirstOutput hstate FlowState.available.toInt64
    obtain ⟨htype, hlinks, hstate', -, houtputs⟩ := setFirstOutput_cases hnode
    let started : RunningNode ν :=
      { node with status := node.status ||| LogicalNodeStatus.success }
    have hstarted : (m.nodes pStart).executeStartReset = some started := by
      rw [RunningNode.executeStartReset, hnode]
      rfl
    have hsame : SameLinks m.nodes (Function.update m.nodes pStart started) :=
      sameLinks_update htype hlinks
    have hfinite : {n | Encloses (Function.update m.nodes pStart started) pStart n}.Finite := by
      unfold Encloses
      rw [hsame.flowsTo]
      exact hm.finite
    obtain ⟨nodes, ⟨bound, hloop⟩, hstart, hresets⟩ := exists_resetNodes hfinite
    rw [Function.update_self] at hstart
    have hstartedState : (nodes pStart).HasState := by
      rw [hstart]
      exact hstate'
    obtain ⟨left, node', hleft, hnodes⟩ :=
      exists_leaveStart (m := { m with nodes := nodes }) hstartedState
    refine ⟨(left, true), ⟨bound, fun fuel hfuel => ?_⟩, ?_⟩
    · rw [processReset, hm.current, Option.bind_eq_bind, Option.bind_some, hstarted,
        Option.bind_eq_bind, Option.bind_some, if_neg houtputs, hloop fuel hfuel,
        Option.bind_eq_bind, Option.bind_some, hleft]
      rfl
    · rw [hnodes]
      exact hresets.of_update hsame

end RunningMachine

end

/-- A start node and a node that leads back to it. -/
def startLoop : RunningMachine Bool where
  nodes n :=
    { type := if n then .executable else .startReset
      inputs := []
      outputs := [{ connections := [⟨some !n, 0⟩],
                    pData := .leaf .flow FlowState.executed.toInt64 }]
      status := LogicalNodeStatus.success }
  active := [⟨some false, none⟩]
  currentNode := 0

theorem RunningMachine.resets_iff_hasState_loop :
    startLoop.AtStart false ∧ (startLoop.Resets false ↔ (startLoop.nodes false).HasState) := by
  have hstart : startLoop.AtStart false := ⟨rfl, rfl, Set.toFinite _⟩
  exact ⟨hstart, RunningMachine.resets_iff_hasState hstart⟩

/-- A start node that was loaded without an output is executed before its outputs are counted. -/
theorem RunningMachine.not_resets :
    ¬ ∀ (m : RunningMachine Bool) (pStart : Bool), m.AtStart pStart → m.Resets pStart := by
  intro h
  let bare : RunningMachine Bool :=
    { nodes := fun _ => { type := .startReset, inputs := [], outputs := [],
                          status := LogicalNodeStatus.none }
      active := [⟨some false, none⟩]
      currentNode := 0 }
  obtain ⟨r, ⟨bound, hr⟩, -⟩ := h bare false ⟨rfl, rfl, Set.toFinite _⟩
  have hnone : bare.processReset bound = none := rfl
  cases hnone.symm.trans (hr bound le_rfl)

end SRCommon
