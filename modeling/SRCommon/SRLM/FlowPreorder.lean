import SRCommon.SRLM.FlowTermination

/-!
# Flows without synchronizations

Where no node waits and nothing is reset, an update lists the nodes depth
first: a node is followed by all that is behind its first output, then by all
that is behind the next one. No active node is left.
-/

namespace SRCommon

open Relation (TransGen)
open WorkStack (DepthFirst Drains)

/-- The nodes that a flow goes through at once. -/
def FlowKind.IsPlain (this : FlowKind) : Prop :=
  this ∈ [start, debugPrint, sequence, branch, endReset]

theorem FlowKind.IsPlain.getType_eq {this : FlowKind} (h : this.IsPlain) :
    this.getType = .executable ∨ this.getType = .endReset := by
  cases this <;> simp [FlowKind.IsPlain, FlowKind.getType] at h ⊢

section

variable {ν : Type}

def NodePin.isAvailable (pin : NodePin (Option ν) DataType) : Bool :=
  pin.pData.flowState.any fun state => state ≠ FlowState.notAvailable.toInt64

/-- The nodes that a node leads to, a branch only on the side of its condition. -/
def flowNext (kind : ν → FlowKind) (nodes : RunningNodes ν) (n : ν) : List ν :=
  if kind n = .branch then
    (do
      let condition ← (nodes n).inputs[1]?
      let holds ← condition.pData.getBool
      let pin ← (nodes n).outputs[if holds then 0 else 1]?
      pin.getFirstNode).toList
  else (nodes n).outputs.filterMap NodePin.getFirstNode

/-- The literals are as they were at first, and there is no error. -/
structure PlainWorld (nodes : RunningNodes ν) (s : RunningNodes ν) : Prop where
  classes : s.classes = nodes.classes
  inputs : ∀ n, (s n).inputs = (nodes n).inputs
  ok : ∀ n, ¬ (s n).hasErrors

/-- What a machine has to be like. -/
structure PlainFlow (kind : ν → FlowKind) (nodes : RunningNodes ν) : Prop where
  typed : FlowTyped kind nodes.classes
  plain : ∀ n, (kind n).IsPlain
  outputs : ∀ n, (nodes n).outputs ≠ []
  literals : ∀ n, ∀ pin ∈ (nodes n).inputs, pin.pData.getClass ≠ .flow →
    firstLink pin.connections = none
  ok : ∀ n, ¬ (nodes n).hasErrors

theorem bring_eq (n : ν) (pin : NodePin (Option ν) DataType × ℕ) :
    bring n pin = if pin.1.isAvailable then some ⟨pin.1.getFirstNode, some (n, pin.2)⟩
      else none := by
  rw [bring, NodePin.isAvailable]
  cases pin.1.pData.flowState with
  | none => rfl
  | some state =>
      rw [Option.filter_some, Option.any_some]
      split <;> rfl

/-- The nodes that are brought are those behind the available outputs. -/
theorem filterMap_brought (node : RunningNode ν) (n : ν) :
    (node.brought n).filterMap ActiveNodeInfo.pNode =
      (node.outputs.filter NodePin.isAvailable).filterMap NodePin.getFirstNode := by
  have hbring : (fun pin => (bring n pin).bind ActiveNodeInfo.pNode) =
      (fun pin : NodePin (Option ν) DataType =>
        if pin.isAvailable then pin.getFirstNode else none) ∘ Prod.fst := by
    funext pin
    rw [bring_eq, Function.comp_apply]
    split <;> rfl
  rw [RunningNode.brought, List.filterMap_filterMap, hbring, ← List.filterMap_map,
    List.zipIdx_map_fst, List.filterMap_filter]

theorem brought_ne_nil {node : RunningNode ν} {pin : NodePin (Option ν) DataType} (n : ν)
    (hpin : pin ∈ node.outputs) (havailable : pin.isAvailable) : node.brought n ≠ [] := by
  obtain ⟨i, hi⟩ := List.mem_iff_getElem?.mp hpin
  have hmem : (pin, i) ∈ node.outputs.zipIdx := List.mk_mem_zipIdx_iff_getElem?.mpr hi
  have hbrought : ⟨pin.getFirstNode, some (n, i)⟩ ∈ node.brought n := by
    refine List.mem_filterMap.mpr ⟨(pin, i), hmem, ?_⟩
    rw [bring_eq, if_pos havailable]
  exact List.ne_nil_of_mem hbrought

variable {kind : ν → FlowKind} {nodes s s' : RunningNodes ν} {n : ν}

theorem map_getFirstNode (h : s.classes = nodes.classes) (n : ν) :
    (s n).outputs.map NodePin.getFirstNode = (nodes n).outputs.map NodePin.getFirstNode := by
  have houtputs := congrArg (fun g => ((g n).outputs.map fun pin =>
    pin.connections.head?.bind NodeConnect.pNode)) h
  simp only [RunningNodes.classes, RunningNode.nodeClass, List.map_map] at houtputs
  exact houtputs

theorem inputs_setOutput {node node' : RunningNode ν} {i : ℕ} {state : FlowState}
    (h : node.setOutput i state = some node') :
    node'.inputs = node.inputs ∧ node'.hasErrors = node.hasErrors := by
  obtain ⟨pin, hpin, h⟩ := Option.bind_eq_some_iff.mp h
  obtain ⟨pData, hdata, h⟩ := Option.bind_eq_some_iff.mp h
  cases h
  exact ⟨rfl, rfl⟩

theorem hasErrors_success (node : RunningNode ν) :
    (node.addStatus LogicalNodeStatus.success).hasErrors = node.hasErrors := by
  rw [RunningNode.hasErrors_addStatus, show decide (_ ≠ (0 : UInt64)) = false by decide,
    Bool.or_false]

/-- The nodes behind a node all of whose outputs are available. -/
theorem flowNext_of_forall_available (h : s.classes = nodes.classes) (hkind : kind n ≠ .branch)
    (havailable : ∀ pin ∈ (s n).outputs, pin.isAvailable) :
    ((s n).outputs.filter NodePin.isAvailable).filterMap NodePin.getFirstNode =
      flowNext kind nodes n := by
  have hnodes := congrArg (List.filterMap id) (map_getFirstNode h n)
  rw [List.filterMap_map, List.filterMap_map] at hnodes
  rw [List.filter_eq_self.mpr havailable, flowNext, if_neg hkind]
  exact hnodes

/-- What the execution of a node amounts to. -/
structure PassesOn (kind : ν → FlowKind) (nodes s' : RunningNodes ν) (n : ν) : Prop where
  world : PlainWorld nodes s'
  available : ∃ pin ∈ (s' n).outputs, pin.isAvailable
  next : ((s' n).outputs.filter NodePin.isAvailable).filterMap NodePin.getFirstNode =
    flowNext kind nodes n

theorem passesOn_of_forall_available (hflow : PlainFlow kind nodes) (h : PlainWorld nodes s')
    (hkind : kind n ≠ .branch) (havailable : ∀ pin ∈ (s' n).outputs, pin.isAvailable) :
    PassesOn kind nodes s' n where
  world := h
  available := by
    have hlength : (s' n).outputs.length = (nodes n).outputs.length := by
      simpa using congrArg List.length (map_getFirstNode h.classes n)
    obtain ⟨pin, hpin⟩ := List.exists_mem_of_length_pos
      (hlength ▸ List.length_pos_of_ne_nil (hflow.outputs n))
    exact ⟨pin, hpin, havailable pin hpin⟩
  next := flowNext_of_forall_available h.classes hkind havailable

theorem isAvailable_setFlow (pin : NodePin (Option ν) DataType) (state : FlowState) :
    NodePin.isAvailable { pin with pData := .leaf .flow state.toInt64 } =
      decide (state.toInt64 ≠ FlowState.notAvailable.toInt64) := rfl

theorem isAvailable_of_makeAvailable {pin pin' : NodePin (Option ν) DataType}
    (hclass : pin.pData.getClass = .flow) (h : RunningNode.makeAvailable pin = some pin') :
    pin'.isAvailable := by
  obtain ⟨connections, pData⟩ := pin
  obtain ⟨state, rfl⟩ := DataType.eq_flow_of_class hclass
  by_cases hstate : state = FlowState.notAvailable.toInt64
  · simp only [RunningNode.makeAvailable, DataType.getEnum, hstate, DataType.setEnum,
      Option.bind_eq_bind, Option.bind_some, ne_eq, not_true_eq_false, if_false, Option.map_some]
      at h
    cases h
    rfl
  · simp only [RunningNode.makeAvailable, DataType.getEnum, hstate, Option.bind_eq_bind,
      Option.bind_some, ne_eq, not_false_eq_true, if_true] at h
    cases h
    exact decide_eq_true hstate

theorem exists_twoFlows (hs : s.classes = nodes.classes)
    (houtputs : (nodes.classes n).outputs.map PinClass.dataClass = [.flow, .flow]) :
    ∃ first second, (s n).outputs = [first, second] ∧ first.pData.getClass = .flow ∧
      second.pData.getClass = .flow := by
  have hmap : (nodes.classes n).outputs.map PinClass.dataClass =
      (s n).outputs.map NodePin.dataClass := by
    rw [← hs]
    exact List.map_map
  rw [hmap] at houtputs
  obtain ⟨first, rest, hpins, hfirst, hrest⟩ := List.map_eq_cons_iff.mp houtputs
  obtain ⟨second, rfl, hsecond⟩ := List.map_eq_singleton_iff.mp hrest
  exact ⟨first, second, hpins, hfirst, hsecond⟩

/-- The node behind an output of a branch. -/
theorem flowNext_of_branch (hkind : kind n = .branch) {condition : NodePin (Option ν) DataType}
    (hcondition : (nodes n).inputs[1]? = some condition) {holds : Bool}
    (hholds : condition.pData.getBool = some holds) (h : s.classes = nodes.classes)
    {first second : NodePin (Option ν) DataType} (hpins : (s n).outputs = [first, second]) :
    flowNext kind nodes n = (if holds then first else second).getFirstNode.toList := by
  have hmap := map_getFirstNode h n
  rw [hpins] at hmap
  obtain ⟨first', rest, houtputs, hfirst, hrest⟩ := List.map_eq_cons_iff.mp hmap.symm
  obtain ⟨second', rfl, hsecond⟩ := List.map_eq_singleton_iff.mp hrest
  rw [flowNext, if_pos hkind]
  cases holds <;> simp [hcondition, hholds, houtputs, hfirst, hsecond]

end

section

variable {ν : Type} [DecidableEq ν] {kind : ν → FlowKind}
  {compute : RunningNodes ν → ν → Option (RunningNodes ν)} {nodes s s' : RunningNodes ν} {n : ν}

/-! ## One node -/

theorem PlainWorld.update (h : PlainWorld nodes s) {node : RunningNode ν}
    (hclass : node.nodeClass = (s n).nodeClass) (hinputs : node.inputs = (s n).inputs)
    (herrors : node.hasErrors = (s n).hasErrors) :
    PlainWorld nodes (Function.update s n node) where
  classes := (classes_update hclass).trans h.classes
  inputs k := by
    rcases eq_or_ne k n with rfl | hne
    · rw [Function.update_self, hinputs, h.inputs]
    · rw [Function.update_of_ne hne, h.inputs]
  ok k := by
    rcases eq_or_ne k n with rfl | hne
    · rw [Function.update_self, herrors]
      exact h.ok k
    · rw [Function.update_of_ne hne]
      exact h.ok k

theorem PlainWorld.setOutput (h : PlainWorld nodes s) {i : ℕ} {state : FlowState}
    (hset : s.modify n (fun node => node.setOutput i state) = some s') : PlainWorld nodes s' := by
  obtain ⟨node, hnode, rfl⟩ := Option.map_eq_some_iff.mp hset
  obtain ⟨hinputs, herrors⟩ := inputs_setOutput hnode
  exact h.update (nodeClass_setOutput hnode) hinputs herrors

theorem PlainWorld.success (h : PlainWorld nodes s) (n : ν) :
    PlainWorld nodes (s.addStatus n LogicalNodeStatus.success) :=
  h.update rfl rfl (hasErrors_success (s n))

/-- A literal is what is read. -/
theorem PlainWorld.calcInput (h : PlainWorld nodes s)
    (compute : RunningNodes ν → ν → Option (RunningNodes ν)) (hflow : PlainFlow kind nodes) {i : ℕ}
    {dataClass : DataTypeClass}
    (hin : ((nodes.classes n).inputs.map PinClass.dataClass)[i]? = some dataClass)
    (hclass : dataClass ≠ .flow) :
    ∃ pin, (nodes n).inputs[i]? = some pin ∧
      s.calcInput kind compute n i = some (s, some pin.pData) := by
  obtain ⟨pin, hpin, hpinClass⟩ := exists_input rfl hin
  have hlink := hflow.literals n pin (List.mem_of_getElem? hpin) (hpinClass ▸ hclass)
  refine ⟨pin, hpin, ?_⟩
  rw [RunningNodes.calcInput, h.inputs, hpin]
  simp only [Option.bind_eq_bind, Option.bind_some, hlink]

theorem PassesOn.success (h : PassesOn kind nodes s' n) :
    PassesOn kind nodes (s'.addStatus n LogicalNodeStatus.success) n := by
  have houtputs : (s'.addStatus n LogicalNodeStatus.success n).outputs = (s' n).outputs := by
    rw [RunningNodes.addStatus, Function.update_self]
    rfl
  exact ⟨h.world.success n, houtputs ▸ h.available, houtputs ▸ h.next⟩

/-- The only output is made available. -/
theorem passesOn_of_single (hflow : PlainFlow kind nodes) (h : PlainWorld nodes s)
    (hkind : kind n ≠ .branch)
    (houtputs : (nodes.classes n).outputs.map PinClass.dataClass = [.flow])
    (hset : s.modify n (fun node => node.setOutput 0 .available) = some s') :
    PassesOn kind nodes s' n := by
  obtain ⟨pin, hpin, hclass⟩ := exists_singleFlow h.classes houtputs
  have hnew := outputs_of_setOutput (by rw [hpin]; rfl) hclass hset
  refine passesOn_of_forall_available hflow (h.setOutput hset) hkind fun pin' hpin' => ?_
  rw [hnew, hpin, List.set_cons_zero, List.mem_singleton] at hpin'
  rw [hpin', isAvailable_setFlow]
  rfl

theorem passesOn_of_debugPrint (hflow : PlainFlow kind nodes) (h : PlainWorld nodes s)
    (hkind : kind n = .debugPrint) (hexec : s.executeDebugPrint kind compute n = some s') :
    PassesOn kind nodes s' n := by
  obtain ⟨hinputs, houtputs⟩ : (FlowKind.debugPrint).HasPins _ _ := hkind ▸ hflow.typed.pins n
  obtain ⟨msg, -, hmsg⟩ := h.calcInput compute hflow (i := 1) (n := n)
    (by rw [hinputs]; rfl) (by decide)
  obtain ⟨type, -, htype⟩ := h.calcInput compute hflow (i := 2) (n := n)
    (by rw [hinputs]; rfl) (by decide)
  simp only [RunningNodes.executeDebugPrint, hmsg, htype, Option.bind_eq_bind, Option.bind_some]
    at hexec
  obtain ⟨text, -, hexec⟩ := Option.bind_eq_some_iff.mp hexec
  obtain ⟨value, -, hset⟩ := Option.bind_eq_some_iff.mp hexec
  exact passesOn_of_single hflow h (by rw [hkind]; decide) houtputs hset

theorem passesOn_of_sequence (hflow : PlainFlow kind nodes) (h : PlainWorld nodes s)
    (hkind : kind n = .sequence) {outputs : List (NodePin (Option ν) DataType)}
    (houtputs : (s n).outputs.mapM RunningNode.makeAvailable = some outputs) :
    PassesOn kind nodes (Function.update s n { s n with outputs }) n := by
  have hclass : RunningNode.nodeClass { s n with outputs } = (s n).nodeClass :=
    congrArg (NodeClass.mk _) (map_pinClass_of_mapM houtputs)
  refine passesOn_of_forall_available hflow (h.update hclass rfl rfl) (by rw [hkind]; decide) ?_
  rw [Function.update_self]
  intro pin hpin
  obtain ⟨old, hold, hmake⟩ := exists_of_mapM houtputs pin hpin
  obtain ⟨-, hflows⟩ : (FlowKind.sequence).HasPins _ _ := hkind ▸ hflow.typed.pins n
  refine isAvailable_of_makeAvailable (hflows _ ?_) hmake
  rw [← h.classes]
  exact List.mem_map_of_mem (List.mem_map_of_mem hold)

theorem passesOn_of_branch (hflow : PlainFlow kind nodes) (h : PlainWorld nodes s)
    (hkind : kind n = .branch) (hexec : s.executeBranch kind compute n = some s') :
    PassesOn kind nodes s' n := by
  obtain ⟨hinputs, houtputs⟩ : (FlowKind.branch).HasPins _ _ := hkind ▸ hflow.typed.pins n
  obtain ⟨condition, hpin, hcondition⟩ := h.calcInput compute hflow (i := 1) (n := n)
    (by rw [hinputs]; rfl) (by decide)
  simp only [RunningNodes.executeBranch, hcondition, Option.bind_eq_bind, Option.bind_some]
    at hexec
  obtain ⟨holds, hholds, hexec⟩ := Option.bind_eq_some_iff.mp hexec
  obtain ⟨s₁, hs₁, hset⟩ := Option.bind_eq_some_iff.mp hexec
  obtain ⟨first, second, hpins, hfirst, hsecond⟩ := exists_twoFlows h.classes houtputs
  have hnew₁ := outputs_of_setOutput (by rw [hpins]; rfl) hfirst hs₁
  rw [hpins] at hnew₁
  have hnew := outputs_of_setOutput (by rw [hnew₁]; rfl) hsecond hset
  rw [hnew₁] at hnew
  have hworld := (h.setOutput hs₁).setOutput hset
  have hnext := flowNext_of_branch hkind hpin hholds hworld.classes hnew
  have hone : ∀ pin : NodePin (Option ν) DataType,
      [pin].filterMap NodePin.getFirstNode = pin.getFirstNode.toList := by
    intro pin
    rw [List.filterMap_cons]
    cases pin.getFirstNode <;> rfl
  cases holds with
  | false =>
      refine ⟨hworld, ⟨_, by rw [hnew]; exact List.mem_cons_of_mem _ List.mem_cons_self, rfl⟩, ?_⟩
      rw [hnext, hnew]
      exact hone { second with pData := .leaf .flow FlowState.available.toInt64 }
  | true =>
      refine ⟨hworld, ⟨_, by rw [hnew]; exact List.mem_cons_self, rfl⟩, ?_⟩
      rw [hnext, hnew]
      exact hone { first with pData := .leaf .flow FlowState.available.toInt64 }

theorem passesOn_of_executeNode (hflow : PlainFlow kind nodes) (h : PlainWorld nodes s)
    (hexec : s.executeNode kind compute n = some s') : PassesOn kind nodes s' n := by
  obtain ⟨s₁, hs₁, rfl⟩ := Option.map_eq_some_iff.mp hexec
  refine PassesOn.success ?_
  have hplain := hflow.plain n
  have hpins := hflow.typed.pins n
  rw [RunningNodes.executeClass] at hs₁
  cases hkind : kind n <;> rw [hkind] at hplain hpins hs₁
  case compute => cases hs₁
  case connector => cases hs₁
  case startReset => simp [FlowKind.IsPlain] at hplain
  case synchronize => simp [FlowKind.IsPlain] at hplain
  case start => exact passesOn_of_single hflow h (by rw [hkind]; decide) hpins.2 hs₁
  case endReset => exact passesOn_of_single hflow h (by rw [hkind]; decide) hpins.2 hs₁
  case debugPrint => exact passesOn_of_debugPrint hflow h hkind hs₁
  case branch => exact passesOn_of_branch hflow h hkind hs₁
  case sequence =>
    obtain ⟨node, hnode, rfl⟩ := Option.map_eq_some_iff.mp hs₁
    obtain ⟨outputs, houtputs, rfl⟩ := Option.map_eq_some_iff.mp hnode
    exact passesOn_of_sequence hflow h hkind houtputs

/-! ## Updates -/

theorem PlainWorld.leaveFrom (h : PlainWorld nodes s) {pin : Option (ν × ℕ)}
    (hleave : SRCommon.leaveFrom s pin = some s') : PlainWorld nodes s' := by
  cases pin with
  | none =>
      cases hleave
      exact h
  | some pin => exact h.setOutput hleave

/-- A node brings what is behind it, and a null node brings nothing. -/
theorem PlainWorld.advances (hflow : PlainFlow kind nodes) {w w' : FlowWorld ν}
    {t : ActiveNodeInfo ν} {new : Option (List (ActiveNodeInfo ν))} (h : PlainWorld nodes w.nodes)
    (hstep : Advances kind compute w t w' new) :
    PlainWorld nodes w'.nodes ∧ ∃ l, new = some l ∧
      w'.executed = w.executed ++ t.pNode.toList ∧
      l.filterMap ActiveNodeInfo.pNode = t.pNode.toList.flatMap (flowNext kind nodes) := by
  cases hstep with
  | drop pin => exact ⟨h, [], rfl, (List.append_nil _).symm, rfl⟩
  | @compute n pin hkind => exact absurd ((hflow.plain n).getType_eq) (by simp [hkind])
  | @connector n pin nodes₁ hkind hleave =>
      exact absurd ((hflow.plain n).getType_eq) (by simp [hkind])
  | @execute n pin nodes₁ nodes₂ hkind hleave hexec =>
      have hpasses := passesOn_of_executeNode hflow (h.leaveFrom hleave) hexec
      obtain ⟨out, hout, havailable⟩ := hpasses.available
      refine ⟨hpasses.world, _, if_neg ?_, rfl, ?_⟩
      · rw [not_or]
        exact ⟨hpasses.world.ok n, brought_ne_nil n hout havailable⟩
      · rw [filterMap_brought, hpasses.next]
        exact (List.append_nil _).symm
  | @reset n pin nodes₁ nodes₂ fuel u hkind hleave hreset =>
      exact absurd ((hflow.plain n).getType_eq) (by simp [hkind])

/-- All active nodes are done with, and what has been executed is listed depth first. -/
theorem PlainWorld.drains (hflow : PlainFlow kind nodes) {w w' : FlowWorld ν}
    {ts kept : List (ActiveNodeInfo ν)} (h : PlainWorld nodes w.nodes)
    (hdrains : Drains (Advances kind compute) w ts w' kept) :
    PlainWorld nodes w'.nodes ∧ kept = [] ∧ ∃ l, w'.executed = w.executed ++ l ∧
      DepthFirst (flowNext kind nodes) (ts.filterMap ActiveNodeInfo.pNode) l := by
  induction hdrains with
  | nil w => exact ⟨h, rfl, [], (List.append_nil _).symm, .nil⟩
  | stay hstep hrest ih =>
      obtain ⟨-, l, hnew, -⟩ := h.advances hflow hstep
      cases hnew
  | @next w w₁ w' t new ts kept hstep hrest ih =>
      obtain ⟨hw₁, l, hnew, hexecuted, hnext⟩ := h.advances hflow hstep
      cases hnew
      obtain ⟨hw', hkept, l', hexecuted', hfirst⟩ := ih hw₁
      refine ⟨hw', hkept, t.pNode.toList ++ l', ?_, ?_⟩
      · rw [hexecuted', hexecuted, List.append_assoc]
      · rw [List.filterMap_append, hnext] at hfirst
        cases hn : t.pNode with
        | none =>
            rw [hn] at hfirst
            rw [List.filterMap_cons_none hn]
            exact hfirst
        | some n =>
            rw [hn, Option.toList_some, List.flatMap_singleton] at hfirst
            rw [List.filterMap_cons_some hn]
            exact .of_append hfirst

open FlowMachine (Updates init)

/-- However often the machine is updated, the nodes have been executed once in the order of the
flows, and no active node is left. -/
theorem FlowMachine.executed_depthFirst {entryPoints : List ν} {m : FlowMachine ν}
    (hflow : PlainFlow kind nodes)
    (hm : TransGen (Updates kind compute) (init nodes entryPoints) m) :
    DepthFirst (flowNext kind nodes) entryPoints m.executed ∧ m.active = [] := by
  suffices h : PlainWorld nodes m.nodes ∧ DepthFirst (flowNext kind nodes) entryPoints m.executed ∧
      m.active = [] from h.2
  induction hm with
  | @single m hupdate =>
      obtain ⟨hdrains, -⟩ := FlowMachine.updates_iff_drains.mp hupdate
      have hstart : PlainWorld nodes nodes := ⟨rfl, fun _ => rfl, hflow.ok⟩
      obtain ⟨hworld, hactive, l, hexecuted, hfirst⟩ := PlainWorld.drains hflow hstart hdrains
      have hentries : (init nodes entryPoints).active.filterMap ActiveNodeInfo.pNode =
          entryPoints := by
        simp [init, List.filterMap_map]
      rw [hentries] at hfirst
      obtain rfl : m.executed = l := hexecuted
      exact ⟨hworld, hfirst, hactive⟩
  | @tail m m' _ hupdate ih =>
      obtain ⟨hworld, hfirst, hactive⟩ := ih
      obtain ⟨hdrains, -⟩ := FlowMachine.updates_iff_drains.mp hupdate
      rw [hactive] at hdrains
      obtain ⟨hsame, hkept⟩ := hdrains.of_nil
      obtain ⟨hnodes, hexecuted⟩ := FlowWorld.mk.inj hsame
      exact ⟨hnodes ▸ hworld, hexecuted ▸ hfirst, hkept⟩

end

def plainSample : RunningNodes (Fin 6) :=
  ![{ type := .executable, inputs := [], outputs := [flowPin [⟨some 1, 0⟩]], status := 1 },
    { type := .executable, inputs := [flowPin [⟨some 0, 0⟩]],
      outputs := [flowPin [⟨some 2, 0⟩], flowPin [⟨some 3, 0⟩]], status := 1 },
    { type := .executable,
      inputs := [flowPin [⟨some 1, 0⟩], { pData := .leaf (.value .string) [] },
        { pData := .leaf (.enum none) (0 : Int64) }],
      outputs := [flowPin [⟨some 4, 0⟩]], status := 1 },
    { type := .executable,
      inputs := [flowPin [⟨some 1, 1⟩], { pData := .leaf (.value .bool) (true : Bool) }],
      outputs := [flowPin [⟨some 4, 0⟩], flowPin [⟨some 2, 0⟩]], status := 1 },
    { type := .endReset, inputs := [flowPin [⟨some 2, 0⟩, ⟨some 3, 0⟩]],
      outputs := [flowPin [⟨some 5, 0⟩]], status := 1 },
    { type := .executable,
      inputs := [flowPin [⟨some 4, 0⟩], { pData := .leaf (.value .string) [] },
        { pData := .leaf (.enum none) (0 : Int64) }],
      outputs := [flowPin []], status := 1 }]

def plainSampleKind : Fin 6 → FlowKind :=
  ![.start, .sequence, .debugPrint, .branch, .endReset, .debugPrint]

theorem plainFlow_plainSample : PlainFlow plainSampleKind plainSample where
  typed := by
    constructor
    · intro n
      fin_cases n <;> simp [plainSampleKind, plainSample, RunningNodes.classes,
        RunningNode.nodeClass, FlowKind.HasPins, NodePin.pinClass, NodePin.dataClass, flowPin,
        DataType.getClass, LeafType.getClass, ValueType.getClass]
    · intro n
      fin_cases n <;> simp [plainSample, RunningNodes.classes, RunningNode.nodeClass,
        NodePin.pinClass, NodePin.dataClass, flowPin, firstLink, DataType.getClass,
        LeafType.getClass]
  plain n := by fin_cases n <;> simp [plainSampleKind, FlowKind.IsPlain]
  outputs n := by fin_cases n <;> simp [plainSample]
  literals := by decide
  ok := by decide

theorem FlowMachine.executed_depthFirst_plainSample :
    ∃ m, TransGen (FlowMachine.Updates plainSampleKind fun s _ => some s)
        (FlowMachine.init plainSample [0]) m ∧ m.executed = [0, 1, 2, 4, 5, 3, 4, 5] ∧
      DepthFirst (flowNext plainSampleKind plainSample) [0] m.executed ∧ m.active = [] := by
  have hupdate : ((FlowMachine.init plainSample [0]).updateMachine plainSampleKind
      (fun s _ => some s) 20).map FlowMachine.executed = some [0, 1, 2, 4, 5, 3, 4, 5] := by
    decide +kernel
  obtain ⟨m, hm, hexecuted⟩ := Option.map_eq_some_iff.mp hupdate
  have hrun := TransGen.single (r := FlowMachine.Updates plainSampleKind fun s _ => some s) ⟨20, hm⟩
  exact ⟨m, hrun, hexecuted, FlowMachine.executed_depthFirst plainFlow_plainSample hrun⟩

end SRCommon
