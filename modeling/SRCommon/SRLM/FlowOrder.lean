import SRCommon.SRLM.FlowTermination

/-!
# The order in which nodes are executed

A node is executed because an output of a node that was executed before it
leads to it. Behind a synchronization all nodes that it waits for have been
executed, on cycles and after resets too.
-/

namespace SRCommon

open Relation (ReflTransGen)

namespace RunningNode

variable {ν : Type}

/-- One of the flows has led to another node. -/
def FlowsExecuted (this : RunningNode ν) : Prop :=
  ∃ pin ∈ this.outputs, pin.pData.flowState = some FlowState.executed.toInt64

end RunningNode

section

variable {ν : Type}

/-- A node that is no compute node is at most given a status while others are computed. -/
structure ComputesAside (kind : ν → FlowKind)
    (compute : RunningNodes ν → ν → Option (RunningNodes ν)) : Prop where
  pins : KeepsPins compute
  others : ∀ (s : RunningNodes ν) n s' p, compute s n = some s' → (kind p).getType ≠ .compute →
    ∃ status, s' p = (s p).addStatus status

/-- A flow from the first node leads to an input of the second. -/
def WaitsFor (kind : ν → FlowKind) (g : ν → NodeClass ν) (n q : ν) : Prop :=
  (kind q).getType ≠ .compute ∧ ∃ pin ∈ (g n).inputs, pin.dataClass = .flow ∧
    ∃ link, firstLink pin.connections = some link ∧ link.1 = q

/-- What has to be executed before. -/
def Ready (kind : ν → FlowKind) (g : ν → NodeClass ν) (entryPoints before : List ν) (n : ν) :
    Prop :=
  n ∈ entryPoints ∨ ∃ p ∈ before, Leads g p n ∧
    (kind p = .synchronize → ∀ q, WaitsFor kind g p q → q ∈ before)

def Caused (kind : ν → FlowKind) (g : ν → NodeClass ν) (entryPoints executed : List ν) : Prop :=
  ∀ before n after, executed = before ++ n :: after → Ready kind g entryPoints before n

variable {kind : ν → FlowKind} {g : ν → NodeClass ν} {entryPoints executed : List ν} {n : ν}

theorem Caused.snoc (h : Caused kind g entryPoints executed)
    (hn : Ready kind g entryPoints executed n) : Caused kind g entryPoints (executed ++ [n]) := by
  intro before m after heq
  rcases List.eq_nil_or_concat' after with rfl | ⟨after, k, rfl⟩
  · obtain ⟨rfl, hm⟩ := List.append_inj' heq rfl
    cases hm
    exact hn
  · rw [← List.cons_append, ← List.append_assoc] at heq
    exact h before m after (List.append_inj_left' heq rfl)

/-- No flow has been made executed, and no error has been taken back. -/
def Quiet (kind : ν → FlowKind) (s s' : RunningNodes ν) : Prop :=
  ∀ p, (kind p).getType ≠ .compute →
    ((s' p).FlowsExecuted → (s p).FlowsExecuted) ∧ ((s p).hasErrors → (s' p).hasErrors)

theorem Quiet.refl (s : RunningNodes ν) : Quiet kind s s := fun _ _ => ⟨id, id⟩

theorem Quiet.trans {s s' s'' : RunningNodes ν} (h : Quiet kind s s') (h' : Quiet kind s' s'') :
    Quiet kind s s'' :=
  fun p hp => ⟨(h p hp).1 ∘ (h' p hp).1, (h' p hp).2 ∘ (h p hp).2⟩

/-! ## What makes no flow executed -/

theorem flowState_setEnum {this data : DataType} {value state : Int64}
    (h : this.setEnum value = some data) (hstate : data.flowState = some state) :
    state = value := by
  unfold DataType.setEnum at h
  split at h <;> cases h <;> cases hstate
  rfl

theorem flowsExecuted_setOutput {node node' : RunningNode ν} {i : ℕ} {state : FlowState}
    (h : node.setOutput i state = some node') (hexecuted : node'.FlowsExecuted) :
    node.FlowsExecuted ∨ state.toInt64 = FlowState.executed.toInt64 := by
  obtain ⟨pin, hpin, h⟩ := Option.bind_eq_some_iff.mp h
  obtain ⟨pData, hdata, h⟩ := Option.bind_eq_some_iff.mp h
  cases h
  obtain ⟨pin', hmem, hstate⟩ := hexecuted
  rcases List.mem_or_eq_of_mem_set hmem with hmem | rfl
  · exact .inl ⟨pin', hmem, hstate⟩
  · exact .inr (flowState_setEnum hdata hstate).symm

theorem status_setOutput {node node' : RunningNode ν} {i : ℕ} {state : FlowState}
    (h : node.setOutput i state = some node') : node'.status = node.status := by
  obtain ⟨pin, hpin, h⟩ := Option.bind_eq_some_iff.mp h
  obtain ⟨pData, hdata, h⟩ := Option.bind_eq_some_iff.mp h
  cases h
  rfl

theorem flowsExecuted_resetOutputFlows {node : RunningNode ν}
    (hexecuted : node.resetOutputFlows.FlowsExecuted) : node.FlowsExecuted := by
  obtain ⟨pin', hmem, hstate⟩ := hexecuted
  obtain ⟨pin, hpin, rfl⟩ := List.mem_map.mp hmem
  refine ⟨pin, hpin, ?_⟩
  unfold NodePin.resetFlow at hstate
  split at hstate
  · cases hstate
  · exact hstate

theorem flowState_makeAvailable {pin pin' : NodePin (Option ν) DataType}
    (h : RunningNode.makeAvailable pin = some pin')
    (hstate : pin'.pData.flowState = some FlowState.executed.toInt64) : pin' = pin := by
  obtain ⟨state, -, h⟩ := Option.bind_eq_some_iff.mp h
  split at h
  · cases h
    rfl
  · obtain ⟨pData, hdata, rfl⟩ := Option.map_eq_some_iff.mp h
    cases flowState_setEnum hdata hstate

theorem quiet_compute {compute : RunningNodes ν → ν → Option (RunningNodes ν)}
    {s s' : RunningNodes ν} (hcompute : ComputesAside kind compute) (h : compute s n = some s') :
    Quiet kind s s' := by
  intro p hp
  obtain ⟨status, hstatus⟩ := hcompute.others s n s' p h hp
  rw [hstatus]
  refine ⟨id, fun herrors => ?_⟩
  rw [RunningNode.hasErrors_addStatus, herrors, Bool.true_or]

/-! ## Why a node is active -/

/-- Only what has been executed has an executed flow. -/
structure FlowsCaused (kind : ν → FlowKind) (g : ν → NodeClass ν) (entryPoints : List ν)
    (w : FlowWorld ν) : Prop where
  classes : w.nodes.classes = g
  flows : ∀ p, (kind p).getType ≠ .compute → (w.nodes p).FlowsExecuted → p ∈ w.executed
  caused : Caused kind g entryPoints w.executed

structure Justified (kind : ν → FlowKind) (g : ν → NodeClass ν) (entryPoints executed : List ν)
    (t : ActiveNodeInfo ν) : Prop where
  entry : t.pFromPin = none → ∀ n, t.pNode = some n → n ∈ entryPoints
  behind : ∀ pin, t.pFromPin = some pin → pin.1 ∈ executed ∧ FollowsFrom g pin.1 t ∧
    (kind pin.1 = .synchronize → ∀ q, WaitsFor kind g pin.1 q → q ∈ executed)

variable {executed' : List ν} {t : ActiveNodeInfo ν}

theorem Justified.of_pin {pin : ν × ℕ} (hpin : t.pFromPin = some pin)
    (h : pin.1 ∈ executed ∧ FollowsFrom g pin.1 t ∧
      (kind pin.1 = .synchronize → ∀ q, WaitsFor kind g pin.1 q → q ∈ executed)) :
    Justified kind g entryPoints executed t where
  entry hnone := by cases hpin.symm.trans hnone
  behind pin' hpin' := by
    cases hpin.symm.trans hpin'
    exact h

theorem Justified.mono (h : Justified kind g entryPoints executed t) (hsub : executed ⊆ executed') :
    Justified kind g entryPoints executed' t where
  entry := h.entry
  behind pin hpin := by
    obtain ⟨hmem, hleads, hwaits⟩ := h.behind pin hpin
    exact ⟨hsub hmem, hleads, fun hkind q hq => hsub (hwaits hkind q hq)⟩

theorem Justified.ready (h : Justified kind g entryPoints executed t) (hn : t.pNode = some n) :
    Ready kind g entryPoints executed n := by
  cases hpin : t.pFromPin with
  | none => exact .inl (h.entry hpin n hn)
  | some pin =>
      obtain ⟨hmem, hleads, hwaits⟩ := h.behind pin hpin
      exact .inr ⟨pin.1, hmem, hleads.2 n hn, hwaits⟩

theorem eq_brought_of_brings {node : RunningNode ν} {new : List (ActiveNodeInfo ν)}
    (h : node.brings n = some new) : new = node.brought n := by
  rw [RunningNode.brings] at h
  split at h
  · cases h
  · exact (Option.some.inj h).symm

theorem mem_brought_fromPin {node : RunningNode ν} {u : ActiveNodeInfo ν}
    (hu : u ∈ node.brought n) : ∃ i, u.pFromPin = some (n, i) := by
  obtain ⟨pin, -, hbring⟩ := List.mem_filterMap.mp hu
  obtain ⟨state, -, rfl⟩ := Option.map_eq_some_iff.mp hbring
  exact ⟨pin.2, rfl⟩

end

section

variable {ν : Type} [DecidableEq ν] {kind : ν → FlowKind}
  {compute : RunningNodes ν → ν → Option (RunningNodes ν)} {g : ν → NodeClass ν}
  {s s' : RunningNodes ν} {n : ν}

theorem quiet_update {node : RunningNode ν}
    (hflows : node.FlowsExecuted → (s n).FlowsExecuted)
    (herrors : (s n).hasErrors → node.hasErrors) : Quiet kind s (Function.update s n node) := by
  intro p hp
  rcases eq_or_ne p n with rfl | hne
  · rw [Function.update_self]
    exact ⟨hflows, herrors⟩
  · rw [Function.update_of_ne hne]
    exact ⟨id, id⟩

theorem quiet_addStatus (status : UInt64) : Quiet kind s (s.addStatus n status) := by
  refine quiet_update id fun h => ?_
  rw [RunningNode.hasErrors_addStatus, h, Bool.true_or]

theorem quiet_setOutput {i : ℕ} {state : FlowState}
    (hstate : state.toInt64 ≠ FlowState.executed.toInt64)
    (h : s.modify n (fun node => node.setOutput i state) = some s') : Quiet kind s s' := by
  obtain ⟨node, hnode, rfl⟩ := Option.map_eq_some_iff.mp h
  refine quiet_update (fun hflows => ?_) fun herrors => ?_
  · exact (flowsExecuted_setOutput hnode hflows).resolve_right hstate
  · rw [RunningNode.hasErrors, status_setOutput hnode]
    exact herrors

theorem quiet_getOutput (i : ℕ) : Quiet kind s (s.getOutput n i).1 := by
  rw [RunningNodes.getOutput]
  split
  · exact quiet_addStatus _
  · exact .refl s

theorem quiet_calcInput (hcompute : ComputesAside kind compute) {i : ℕ}
    {r : RunningNodes ν × Option DataType} (h : s.calcInput kind compute n i = some r) :
    Quiet kind s r.1 := by
  obtain ⟨pin, hpin, h⟩ := Option.bind_eq_some_iff.mp h
  split at h
  · cases h
    exact .refl s
  next link hlink =>
    split at h
    · obtain ⟨s₁, hs₁, h⟩ := Option.bind_eq_some_iff.mp h
      have hquiet := quiet_compute hcompute hs₁
      split at h
      · cases h
        exact hquiet.trans (quiet_addStatus _)
      · cases h
        exact hquiet.trans (quiet_getOutput _)
    · split at h
      all_goals
        split at h
        · cases h
          exact quiet_addStatus _
        · cases h
          exact quiet_getOutput _

theorem quiet_awaitInputs (hcompute : ComputesAside kind compute) {is : List ℕ} {arrived : Bool}
    (h : RunningNodes.awaitInputs kind compute n is s = some (s', arrived)) : Quiet kind s s' := by
  induction is generalizing s with
  | nil =>
      cases h
      exact .refl _
  | cons i is ih =>
      obtain ⟨⟨s₁, input⟩, hinput, h⟩ := Option.bind_eq_some_iff.mp h
      have hquiet := quiet_calcInput hcompute hinput
      obtain ⟨data, -, h⟩ := Option.bind_eq_some_iff.mp h
      obtain ⟨state, -, h⟩ := Option.bind_eq_some_iff.mp h
      split at h
      · cases h
        exact hquiet
      · exact hquiet.trans (ih h)

theorem quiet_setAvailable {i : ℕ} (available : Bool)
    (h : s.modify n (fun node => node.setOutput i (if available then .available
      else .notAvailable)) = some s') : Quiet kind s s' := by
  refine quiet_setOutput ?_ h
  cases available <;> decide

theorem quiet_executeNode (hcompute : ComputesAside kind compute)
    (h : s.executeNode kind compute n = some s') : Quiet kind s s' := by
  obtain ⟨s₁, hs₁, rfl⟩ := Option.map_eq_some_iff.mp h
  refine Quiet.trans ?_ (quiet_addStatus _)
  rw [RunningNodes.executeClass] at hs₁
  split at hs₁
  case h_1 => cases hs₁
  case h_2 => cases hs₁
  case h_3 => exact quiet_setAvailable true hs₁
  case h_4 => exact quiet_setAvailable true hs₁
  case h_5 => exact quiet_setAvailable true hs₁
  case h_6 =>
    obtain ⟨⟨s₂, msg⟩, hmsg, h⟩ := Option.bind_eq_some_iff.mp hs₁
    obtain ⟨msg, -, h⟩ := Option.bind_eq_some_iff.mp h
    obtain ⟨text, -, h⟩ := Option.bind_eq_some_iff.mp h
    obtain ⟨⟨s₃, type⟩, htype, h⟩ := Option.bind_eq_some_iff.mp h
    obtain ⟨type, -, h⟩ := Option.bind_eq_some_iff.mp h
    obtain ⟨value, -, h⟩ := Option.bind_eq_some_iff.mp h
    have hinputs := (quiet_calcInput hcompute hmsg).trans (quiet_calcInput hcompute htype)
    exact hinputs.trans (quiet_setAvailable true h)
  case h_7 =>
    obtain ⟨node, hnode, rfl⟩ := Option.map_eq_some_iff.mp hs₁
    obtain ⟨outputs, houtputs, rfl⟩ := Option.map_eq_some_iff.mp hnode
    refine quiet_update ?_ id
    rintro ⟨pin', hmem, hstate⟩
    obtain ⟨pin, hpin, hmake⟩ := exists_of_mapM houtputs pin' hmem
    obtain rfl := flowState_makeAvailable hmake hstate
    exact ⟨pin', hpin, hstate⟩
  case h_8 =>
    obtain ⟨⟨s₂, condition⟩, hcondition, h⟩ := Option.bind_eq_some_iff.mp hs₁
    obtain ⟨condition, -, h⟩ := Option.bind_eq_some_iff.mp h
    obtain ⟨holds, -, h⟩ := Option.bind_eq_some_iff.mp h
    obtain ⟨s₃, hs₃, h⟩ := Option.bind_eq_some_iff.mp h
    refine ((quiet_calcInput hcompute hcondition).trans (quiet_setAvailable holds hs₃)).trans ?_
    refine quiet_setOutput ?_ h
    cases holds <;> decide
  case h_9 =>
    obtain ⟨⟨s₂, arrived⟩, hawait, h⟩ := Option.bind_eq_some_iff.mp hs₁
    exact (quiet_awaitInputs hcompute hawait).trans (quiet_setAvailable arrived h)

/-! ## Synchronizations -/

/-- A flow is read from the node at the other end. -/
theorem flowsExecuted_of_calcInput (hg : FlowTyped kind g) (hs : s.classes = g) {i : ℕ}
    {data : DataType} (h : s.calcInput kind compute n i = some (s', some data))
    (hdata : data.getEnum = some FlowState.executed.toInt64) (hok : ¬ (s n).hasErrors)
    {pin : NodePin (Option ν) DataType} (hpin : (s n).inputs[i]? = some pin)
    (hflow : pin.pData.getClass = .flow) {link : ν × ℕ}
    (hlink : firstLink pin.connections = some link) (hq : (kind link.1).getType ≠ .compute) :
    (s link.1).FlowsExecuted := by
  have hmem : pin.pinClass ∈ (g n).inputs := by
    rw [← hs]
    exact List.mem_map_of_mem (List.mem_of_getElem? hpin)
  obtain ⟨out, hout, hclass⟩ := hg.linked n pin.pinClass hmem link hlink
  have hin : ((g link.1).outputs.map PinClass.dataClass)[link.2]? = some .flow := by
    rw [List.getElem?_map, hout, Option.map_some, hclass, ← hflow]
    rfl
  obtain ⟨pin', hpin', hflow'⟩ := exists_output hs hin
  simp only [RunningNodes.calcInput, hpin, hlink, hq, hflow, hok, RunningNodes.getOutput, hpin',
    Option.bind_eq_bind, Option.bind_some, if_true, if_false, Bool.false_eq_true] at h
  cases h
  obtain ⟨state, hstate, henum⟩ := DataType.getEnum_of_flow hflow'
  exact ⟨pin', List.mem_of_getElem? hpin', by rw [hstate, ← henum, hdata]⟩

theorem flowsExecuted_of_awaitInputs (hg : FlowTyped kind g) (hcompute : ComputesAside kind compute)
    (hs : s.classes = g) (hn : (kind n).getType ≠ .compute) {is : List ℕ}
    (h : RunningNodes.awaitInputs kind compute n is s = some (s', true))
    (hok : ¬ (s' n).hasErrors) {i : ℕ} (hi : i ∈ is) {pin : PinClass ν}
    (hpin : (g n).inputs[i]? = some pin) (hflow : pin.dataClass = .flow) {link : ν × ℕ}
    (hlink : firstLink pin.connections = some link) (hq : (kind link.1).getType ≠ .compute) :
    (s link.1).FlowsExecuted := by
  induction is generalizing s with
  | nil => cases hi
  | cons i₀ is ih =>
      have hquiet := quiet_awaitInputs hcompute h
      obtain ⟨⟨s₁, input⟩, hinput, hread⟩ := Option.bind_eq_some_iff.mp h
      obtain ⟨data, hdata, hread⟩ := Option.bind_eq_some_iff.mp hread
      obtain ⟨state, hstate, hrest⟩ := Option.bind_eq_some_iff.mp hread
      split at hrest
      · cases hrest
      next hexecuted =>
        rcases List.mem_cons.mp hi with rfl | hi
        · rw [← hs] at hpin
          obtain ⟨pin', hget, rfl⟩ := Option.map_eq_some_iff.mp (List.getElem?_map.symm.trans hpin)
          rw [show input = some data from hdata] at hinput
          refine flowsExecuted_of_calcInput hg hs hinput ?_ (fun herrors => ?_) hget hflow hlink hq
          · rw [hstate, not_not.mp hexecuted]
          · exact hok ((hquiet n hn).2 herrors)
        · have hs₁ := (classes_calcInput hcompute.pins hinput).trans hs
          exact (quiet_calcInput hcompute hinput link.1 hq).1 (ih hs₁ hrest hi)

theorem brought_of_setOutput {pin : NodePin (Option ν) DataType} {state : FlowState}
    (houtputs : (s n).outputs = [pin]) (hflow : pin.pData.getClass = .flow)
    (h : s.modify n (fun node => node.setOutput 0 state) = some s') :
    (s' n).brought n = if state.toInt64 = FlowState.notAvailable.toInt64 then []
      else [⟨pin.getFirstNode, some (n, 0)⟩] := by
  have hset := outputs_of_setOutput (by rw [houtputs]; rfl) hflow h
  rw [houtputs, List.set_cons_zero] at hset
  rw [RunningNode.brought, hset]
  change [({ pin with pData := .leaf .flow state.toInt64 }, 0)].filterMap (bring n) = _
  rw [List.filterMap_cons, FlowMachine.bring_of_flow rfl]
  split_ifs <;> rfl

theorem brought_addStatus (status : UInt64) :
    (s.addStatus n status n).brought n = (s n).brought n := by
  rw [RunningNodes.addStatus, Function.update_self]
  rfl

/-- A synchronization that brings something has seen all flows that lead to it. -/
theorem flowsExecuted_of_synchronize (hg : FlowTyped kind g) (hcompute : ComputesAside kind compute)
    (hs : s.classes = g) (hkind : kind n = .synchronize)
    (h : s.executeNode kind compute n = some s') {new : List (ActiveNodeInfo ν)}
    (hnew : (s' n).brings n = some new) {q : ν} (hq : WaitsFor kind g n q) :
    (s q).FlowsExecuted := by
  obtain ⟨s₁, hclass, rfl⟩ := Option.map_eq_some_iff.mp h
  rw [RunningNodes.executeClass, hkind] at hclass
  obtain ⟨⟨s₂, arrived⟩, hawait, hset⟩ := Option.bind_eq_some_iff.mp hclass
  rw [RunningNode.brings] at hnew
  split at hnew
  · cases hnew
  next hbrings =>
    rw [not_or] at hbrings
    obtain ⟨-, houtputs⟩ : (FlowKind.synchronize).HasPins _ _ := hkind ▸ hg.pins n
    have hs₂ := (classes_awaitInputs hcompute.pins hawait).trans hs
    obtain ⟨pin, hpin, hflow⟩ := exists_singleFlow hs₂ houtputs
    have hbrought := brought_of_setOutput hpin hflow hset
    cases arrived with
    | false =>
        rw [brought_addStatus] at hbrings
        exact absurd hbrought hbrings.2
    | true =>
        have hquiet : Quiet kind s₂ (s₁.addStatus n LogicalNodeStatus.success) :=
          (quiet_setAvailable true hset).trans (quiet_addStatus _)
        have hok : ¬ (s₂ n).hasErrors := fun herrors =>
          hbrings.1 ((hquiet n (by rw [hkind]; decide)).2 herrors)
        obtain ⟨hqkind, pin, hpin, hflow, link, hlink, rfl⟩ := hq
        obtain ⟨i, hi⟩ := List.mem_iff_getElem?.mp hpin
        refine flowsExecuted_of_awaitInputs hg hcompute hs (by rw [hkind]; decide) hawait hok ?_ hi
          hflow hlink hqkind
        have hlength : (g n).inputs.length = (s n).inputs.length := by
          rw [← hs]
          exact List.length_map _
        rw [List.mem_range, ← hlength]
        exact (List.getElem?_eq_some_iff.mp hi).1

/-! ## Steps -/

variable {entryPoints executed : List ν} {t : ActiveNodeInfo ν} {w w' : FlowWorld ν}

theorem flowsExecuted_of_leaveFrom {pin : Option (ν × ℕ)} (h : leaveFrom s pin = some s') {p : ν}
    (hexecuted : (s' p).FlowsExecuted) : (s p).FlowsExecuted ∨ ∃ i, pin = some (p, i) := by
  cases pin with
  | none =>
      cases h
      exact .inl hexecuted
  | some pin =>
      obtain ⟨node, hnode, rfl⟩ := Option.map_eq_some_iff.mp h
      rcases eq_or_ne p pin.1 with rfl | hne
      · exact .inr ⟨pin.2, rfl⟩
      · rw [Function.update_of_ne hne] at hexecuted
        exact .inl hexecuted

theorem flowsExecuted_of_resetNodes {pStart p : ν} {fuel : ℕ} {passed queue : List ν}
    (h : resetNodes pStart fuel s passed queue = some s') (hexecuted : (s' p).FlowsExecuted) :
    (s p).FlowsExecuted := by
  induction fuel generalizing s passed queue with
  | zero => cases h
  | succ fuel ih =>
      cases queue with
      | nil =>
          cases h
          exact hexecuted
      | cons n queue =>
          have hflows := ih h
          rw [resetNode] at hflows
          split at hflows
          · exact hflows
          · rcases eq_or_ne p n with rfl | hne
            · rw [Function.update_self] at hflows
              exact flowsExecuted_resetOutputFlows hflows
            · rw [Function.update_of_ne hne] at hflows
              exact hflows

theorem flowsExecuted_of_resetFrom {fuel : ℕ} {r : RunningNodes ν × ActiveNodeInfo ν} {p : ν}
    (h : resetFrom fuel s n = some r) (hne : p ≠ n) (hexecuted : (r.1 p).FlowsExecuted) :
    (s p).FlowsExecuted := by
  obtain ⟨node, hstart, h⟩ := Option.bind_eq_some_iff.mp h
  obtain ⟨s₁, hreset, h⟩ := Option.bind_eq_some_iff.mp h
  obtain ⟨node₂, hleave, h⟩ := Option.bind_eq_some_iff.mp h
  cases h
  simp only [Function.update_of_ne hne] at hexecuted
  have hflows := flowsExecuted_of_resetNodes hreset hexecuted
  rwa [Function.update_of_ne hne] at hflows

theorem FlowsCaused.leaveFrom (h : FlowsCaused kind g entryPoints w)
    (ht : Justified kind g entryPoints w.executed t) {nodes : RunningNodes ν}
    (hleave : SRCommon.leaveFrom w.nodes t.pFromPin = some nodes) :
    FlowsCaused kind g entryPoints ⟨nodes, w.executed⟩ where
  classes := (classes_leaveFrom hleave).trans h.classes
  flows p hp hexecuted := by
    rcases flowsExecuted_of_leaveFrom hleave hexecuted with hflows | ⟨i, hpin⟩
    · exact h.flows p hp hflows
    · exact (ht.behind (p, i) hpin).1
  caused := h.caused

/-- One step of one active node. -/
theorem FlowsCaused.advances (hg : FlowTyped kind g) (hcompute : ComputesAside kind compute)
    {new : Option (List (ActiveNodeInfo ν))} (h : FlowsCaused kind g entryPoints w)
    (ht : Justified kind g entryPoints w.executed t) (hstep : Advances kind compute w t w' new) :
    FlowsCaused kind g entryPoints w' ∧ w.executed ⊆ w'.executed ∧
      ∀ l, new = some l → ∀ u ∈ l, Justified kind g entryPoints w'.executed u := by
  cases hstep with
  | drop pin =>
      refine ⟨h, List.Subset.refl _, ?_⟩
      rintro l hl u hu
      cases hl
      cases hu
  | compute pin hkind => exact ⟨h, List.Subset.refl _, by rintro l ⟨⟩⟩
  | connector hkind hleave => exact ⟨h.leaveFrom ht hleave, List.Subset.refl _, by rintro l ⟨⟩⟩
  | @execute n pin nodes nodes' hkind hleave hexec =>
      have hleft := h.leaveFrom ht hleave
      have hquiet := quiet_executeNode hcompute hexec
      have hclasses := (classes_executeNode hcompute.pins hexec).trans hleft.classes
      refine ⟨⟨hclasses, fun p hp hexecuted => ?_, h.caused.snoc (ht.ready rfl)⟩,
        List.subset_append_left _ _, ?_⟩
      · exact List.mem_append_left _ (hleft.flows p hp ((hquiet p hp).1 hexecuted))
      · intro l hl u hu
        obtain rfl := eq_brought_of_brings hl
        obtain ⟨i, hi⟩ := mem_brought_fromPin hu
        refine .of_pin hi ?_
        refine ⟨List.mem_append_right _ List.mem_cons_self, followsFrom_of_brought hclasses hu,
          fun hsync q hq => List.mem_append_left _ (hleft.flows q hq.1 ?_)⟩
        exact flowsExecuted_of_synchronize hg hcompute hleft.classes hsync hexec hl hq
  | @reset n pin nodes nodes' fuel t hkind hleave hreset =>
      have hleft := h.leaveFrom ht hleave
      have hclasses := (classes_resetFrom hreset).trans hleft.classes
      refine ⟨⟨hclasses, fun p hp hexecuted => ?_, h.caused.snoc (ht.ready rfl)⟩,
        List.subset_append_left _ _, ?_⟩
      · rcases eq_or_ne p n with rfl | hne
        · exact List.mem_append_right _ List.mem_cons_self
        · have hflows := flowsExecuted_of_resetFrom hreset hne hexecuted
          exact List.mem_append_left _ (hleft.flows p hp hflows)
      · intro l hl u hu
        cases hl
        obtain rfl := List.mem_singleton.mp hu
        have hu : u = ⟨(nodes' n).outputs.head?.bind NodePin.getFirstNode, some (n, 0)⟩ :=
          node_of_resetFrom hreset
        obtain ⟨pin, hpin, hflow⟩ := exists_output_of_reset hg hkind hclasses
        rw [List.head?_eq_getElem?, hpin] at hu
        rw [hu]
        refine .of_pin rfl ⟨List.mem_append_right _ List.mem_cons_self,
          followsFrom_of_output hclasses hpin hflow, fun hsync => ?_⟩
        rw [hsync] at hkind
        cases hkind

/-! ## Runs -/

open FlowMachine (Updates init)

/-- An invariant of all updates. -/
structure CausedRun (kind : ν → FlowKind) (g : ν → NodeClass ν) (entryPoints : List ν)
    (m : FlowMachine ν) : Prop where
  world : FlowsCaused kind g entryPoints ⟨m.nodes, m.executed⟩
  active : ∀ t ∈ m.active, Justified kind g entryPoints m.executed t

theorem CausedRun.updates {m m' : FlowMachine ν} (hg : FlowTyped kind g)
    (hcompute : ComputesAside kind compute) (h : CausedRun kind g entryPoints m)
    (hm : Updates kind compute m m') : CausedRun kind g entryPoints m' := by
  obtain ⟨hdrains, -⟩ := FlowMachine.updates_iff_drains.mp hm
  have hinvariant := hdrains.invariant (I := FlowsCaused kind g entryPoints)
    (J := fun w t => Justified kind g entryPoints w.executed t) ?_ h.world h.active
  · exact ⟨hinvariant.1, hinvariant.2.2⟩
  · intro w t w' new hw ht hstep
    obtain ⟨hw', hsub, hnew⟩ := hw.advances hg hcompute ht hstep
    exact ⟨hw', fun u hu => hu.mono hsub, hnew⟩

end

end SRCommon
