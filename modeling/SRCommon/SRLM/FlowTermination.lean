import Mathlib.Data.Fin.VecNotation
import Mathlib.Tactic.FinCases
import SRCommon.SRLM.FlowRuns

/-!
# Updates come to an end

The classes of the data of the pins, and their links, stay as they are. Where
each node has the pins of its class, linked pins are of one class and the flows
have no cycle, every update ends.
-/

namespace SRCommon

open Relation (TransGen ReflTransGen)

namespace DataType

theorem exists_getEnum {this : DataType} (h : this.HoldsInteger) :
    ∃ value, this.getEnum = some value := by
  rcases this with ⟨type, old⟩ | ⟨name, vars⟩
  · cases type with
    | flow => exact ⟨old, rfl⟩
    | «enum» reflector => exact ⟨old, rfl⟩
    | value type =>
        cases type
        case int64 => exact ⟨old, rfl⟩
        case uint64 => exact ⟨_, rfl⟩
        all_goals simp [HoldsInteger, getClass, LeafType.getClass, ValueType.getClass] at h
    | _ => simp [HoldsInteger, getClass, LeafType.getClass] at h
  · simp [HoldsInteger, getClass] at h

theorem exists_getBool {this : DataType} (h : this.getClass = .bool) :
    ∃ value, this.getBool = some value := by
  rcases this with ⟨type, old⟩ | ⟨name, vars⟩
  · cases type with
    | value type =>
        cases type
        case bool => exact ⟨old, rfl⟩
        all_goals cases h
    | _ => cases h
  · cases h

theorem exists_getString {this : DataType} (h : this.getClass = .string) :
    ∃ value, this.getString = some value := by
  rcases this with ⟨type, old⟩ | ⟨name, vars⟩
  · cases type with
    | value type =>
        cases type
        case string => exact ⟨old, rfl⟩
        all_goals cases h
    | _ => cases h
  · cases h

theorem exists_setEnum {this : DataType} (h : this.HoldsInteger) (value : Int64) :
    ∃ data, this.setEnum value = some data :=
  Option.isSome_iff_exists.mp ((isSome_setEnum value).mpr h)

theorem holdsInteger_of_flow {this : DataType} (h : this.getClass = .flow) : this.HoldsInteger := by
  simp [HoldsInteger, h]

theorem holdsInteger_of_enum {this : DataType} (h : this.getClass = .enum) : this.HoldsInteger := by
  simp [HoldsInteger, h]

end DataType

theorem RunningNode.hasErrors_addStatus {ν : Type} (node : RunningNode ν) (status : UInt64) :
    (node.addStatus status).hasErrors =
      (node.hasErrors || decide (status &&& LogicalNodeStatus.errorStatus ≠ 0)) := by
  have hdistrib : (node.status ||| status) &&& LogicalNodeStatus.errorStatus =
      (node.status &&& LogicalNodeStatus.errorStatus) |||
        (status &&& LogicalNodeStatus.errorStatus) := by
    rw [← UInt64.toBitVec_inj]
    simpa using BitVec.and_or_distrib_right
  have hzero : ∀ a b : UInt64, a ||| b = 0 ↔ a = 0 ∧ b = 0 := by
    intro a b
    simp [← UInt64.toNat_inj]
  simp [hasErrors, addStatus, hdistrib, hzero]

/-! ## Pins without their values -/

structure PinClass (ν : Type) where
  connections : List (NodeConnect (Option ν))
  dataClass : DataTypeClass

structure NodeClass (ν : Type) where
  inputs : List (PinClass ν)
  outputs : List (PinClass ν)

/-- The pins that `InitNode` adds. A sequence and a synchronization may have any number of flows. -/
def FlowKind.HasPins : FlowKind → List DataTypeClass → List DataTypeClass → Prop
  | compute, _, _ | connector, _, _ => True
  | start, inputs, outputs => inputs = [] ∧ outputs = [.flow]
  | debugPrint, inputs, outputs => inputs = [.flow, .string, .enum] ∧ outputs = [.flow]
  | sequence, inputs, outputs => inputs = [.flow] ∧ ∀ dataClass ∈ outputs, dataClass = .flow
  | branch, inputs, outputs => inputs = [.flow, .bool] ∧ outputs = [.flow, .flow]
  | startReset, inputs, outputs | endReset, inputs, outputs => inputs = [.flow] ∧ outputs = [.flow]
  | synchronize, inputs, outputs => (∀ dataClass ∈ inputs, dataClass = .flow) ∧ outputs = [.flow]

section

variable {ν : Type}

def NodePin.dataClass (pin : NodePin (Option ν) DataType) : DataTypeClass := pin.pData.getClass

def NodePin.pinClass (pin : NodePin (Option ν) DataType) : PinClass ν where
  connections := pin.connections
  dataClass := pin.dataClass

def RunningNode.nodeClass (this : RunningNode ν) : NodeClass ν where
  inputs := this.inputs.map NodePin.pinClass
  outputs := this.outputs.map NodePin.pinClass

def RunningNodes.classes (s : RunningNodes ν) (n : ν) : NodeClass ν := (s n).nodeClass

/-- The nodes have the pins of their classes, and a link leads to data of the same class. -/
structure FlowTyped (kind : ν → FlowKind) (g : ν → NodeClass ν) : Prop where
  pins : ∀ n, (kind n).HasPins ((g n).inputs.map PinClass.dataClass)
    ((g n).outputs.map PinClass.dataClass)
  linked : ∀ n, ∀ pin ∈ (g n).inputs, ∀ link, firstLink pin.connections = some link →
    ∃ out : PinClass ν, (g link.1).outputs[link.2]? = some out ∧ out.dataClass = pin.dataClass

/-- A flow leads from the first node to the second. -/
def Leads (g : ν → NodeClass ν) (a b : ν) : Prop :=
  ∃ out ∈ (g a).outputs, out.dataClass = .flow ∧
    out.connections.head?.bind NodeConnect.pNode = some b

def KeepsPins (compute : RunningNodes ν → ν → Option (RunningNodes ν)) : Prop :=
  ∀ (s : RunningNodes ν) n s', compute s n = some s' → s'.classes = s.classes

/-- Compute nodes can be computed, and keep the pins of all nodes. -/
structure ComputesPins (kind : ν → FlowKind)
    (compute : RunningNodes ν → ν → Option (RunningNodes ν)) (g : ν → NodeClass ν) : Prop where
  total : ∀ (s : RunningNodes ν) n, s.classes = g → (kind n).getType = .compute →
    ∃ s', compute s n = some s'
  pins : ∀ (s : RunningNodes ν) n s', compute s n = some s' → s'.classes = s.classes

/-! ## Pins stay as they are -/

theorem map_set_of_getElem? {α β : Type} {f : α → β} {l : List α} {i : ℕ} {a b : α}
    (ha : l[i]? = some a) (hab : f b = f a) : (l.set i b).map f = l.map f := by
  obtain ⟨hi, rfl⟩ := List.getElem?_eq_some_iff.mp ha
  rw [List.map_set, hab]
  refine List.ext_getElem? fun k => ?_
  rcases eq_or_ne i k with rfl | hne
  · rw [List.getElem?_set_self (by rwa [List.length_map]), List.getElem?_map, ha, Option.map_some]
  · rw [List.getElem?_set_ne hne]

theorem pinClass_setData {pin : NodePin (Option ν) DataType} {pData : DataType}
    (h : pData.getClass = pin.pData.getClass) :
    NodePin.pinClass { pin with pData } = pin.pinClass :=
  congrArg (PinClass.mk _) h

theorem nodeClass_setOutput {node node' : RunningNode ν} {i : ℕ} {state : FlowState}
    (h : node.setOutput i state = some node') : node'.nodeClass = node.nodeClass := by
  obtain ⟨pin, hpin, h⟩ := Option.bind_eq_some_iff.mp h
  obtain ⟨pData, hdata, h⟩ := Option.bind_eq_some_iff.mp h
  cases h
  have hclass := pinClass_setData (DataType.getClass_of_setEnum hdata)
  exact congrArg (NodeClass.mk _) (map_set_of_getElem? hpin hclass)

theorem nodeClass_setFirstOutput {node node' : RunningNode ν} {value : Int64}
    (h : node.setFirstOutput value = some node') : node'.nodeClass = node.nodeClass := by
  rw [RunningNode.setFirstOutput] at h
  split at h
  · cases h
  next pin outputs houtputs =>
    obtain ⟨pData, hdata, rfl⟩ := Option.map_eq_some_iff.mp h
    have hclass := pinClass_setData (DataType.getClass_of_setEnum hdata)
    simp [RunningNode.nodeClass, houtputs, hclass]

theorem nodeClass_executeStartReset {node node' : RunningNode ν}
    (h : node.executeStartReset = some node') : node'.nodeClass = node.nodeClass := by
  obtain ⟨node₁, hfirst, rfl⟩ := Option.map_eq_some_iff.mp h
  have hclass := nodeClass_setFirstOutput hfirst
  exact hclass

theorem pinClass_makeAvailable {pin pin' : NodePin (Option ν) DataType}
    (h : RunningNode.makeAvailable pin = some pin') : pin'.pinClass = pin.pinClass := by
  obtain ⟨state, -, h⟩ := Option.bind_eq_some_iff.mp h
  split at h
  · cases h
    rfl
  · obtain ⟨pData, hdata, rfl⟩ := Option.map_eq_some_iff.mp h
    exact pinClass_setData (DataType.getClass_of_setEnum hdata)

theorem exists_makeAvailable {pin : NodePin (Option ν) DataType}
    (hflow : pin.pData.getClass = .flow) : ∃ pin', RunningNode.makeAvailable pin = some pin' := by
  obtain ⟨state, -, henum⟩ := DataType.getEnum_of_flow hflow
  obtain ⟨pData, hdata⟩ :=
    DataType.exists_setEnum (DataType.holdsInteger_of_flow hflow) FlowState.available.toInt64
  rw [RunningNode.makeAvailable, henum]
  simp only [Option.bind_eq_bind, Option.bind_some, hdata]
  split
  · exact ⟨pin, rfl⟩
  · exact ⟨_, rfl⟩

theorem map_pinClass_of_mapM {outputs outputs' : List (NodePin (Option ν) DataType)}
    (h : outputs.mapM RunningNode.makeAvailable = some outputs') :
    outputs'.map NodePin.pinClass = outputs.map NodePin.pinClass := by
  induction outputs generalizing outputs' with
  | nil =>
      cases h
      rfl
  | cons pin outputs ih =>
      rw [List.mapM_cons] at h
      obtain ⟨pin', hpin, h⟩ := Option.bind_eq_some_iff.mp h
      obtain ⟨rest, hrest, h⟩ := Option.bind_eq_some_iff.mp h
      cases h
      rw [List.map_cons, List.map_cons, pinClass_makeAvailable hpin, ih hrest]

theorem exists_of_mapM {outputs outputs' : List (NodePin (Option ν) DataType)}
    (h : outputs.mapM RunningNode.makeAvailable = some outputs') :
    ∀ pin' ∈ outputs', ∃ pin ∈ outputs, RunningNode.makeAvailable pin = some pin' := by
  induction outputs generalizing outputs' with
  | nil =>
      cases h
      simp
  | cons pin outputs ih =>
      rw [List.mapM_cons] at h
      obtain ⟨pin', hpin, h⟩ := Option.bind_eq_some_iff.mp h
      obtain ⟨rest, hrest, h⟩ := Option.bind_eq_some_iff.mp h
      cases h
      rw [List.forall_mem_cons]
      refine ⟨⟨pin, List.mem_cons_self, hpin⟩, fun k hk => ?_⟩
      obtain ⟨pin₂, hmem, hpin₂⟩ := ih hrest k hk
      exact ⟨pin₂, List.mem_cons_of_mem _ hmem, hpin₂⟩

theorem nodeClass_resetOutputFlows (node : RunningNode ν) :
    node.resetOutputFlows.nodeClass = node.nodeClass := by
  refine congrArg (NodeClass.mk _) (List.map_map.trans (List.map_congr_left fun pin _ => ?_))
  unfold NodePin.resetFlow
  rw [Function.comp_apply]
  split
  next hflow =>
    exact pinClass_setData (congrArg DataType.getClass hflow).symm
  · rfl

/-! ## What is brought -/

/-- The pin that has led to an active node is a flow. -/
def FromFlow (g : ν → NodeClass ν) (t : ActiveNodeInfo ν) : Prop :=
  ∀ pin, t.pFromPin = some pin →
    ∃ out, (g pin.1).outputs[pin.2]? = some out ∧ out.dataClass = .flow

/-- A flow of the node leads to the active node. -/
def FollowsFrom (g : ν → NodeClass ν) (n : ν) (t : ActiveNodeInfo ν) : Prop :=
  FromFlow g t ∧ ∀ p, t.pNode = some p → Leads g n p

variable {kind : ν → FlowKind} {g : ν → NodeClass ν} {s : RunningNodes ν} {n : ν}

theorem exists_input (hs : s.classes = g) {i : ℕ} {dataClass : DataTypeClass}
    (hpin : ((g n).inputs.map PinClass.dataClass)[i]? = some dataClass) :
    ∃ pin, (s n).inputs[i]? = some pin ∧ pin.pData.getClass = dataClass := by
  have hmap : (g n).inputs.map PinClass.dataClass = (s n).inputs.map NodePin.dataClass := by
    rw [← hs]
    exact List.map_map
  rw [hmap, List.getElem?_map] at hpin
  exact Option.map_eq_some_iff.mp hpin

theorem exists_output (hs : s.classes = g) {i : ℕ} {dataClass : DataTypeClass}
    (hpin : ((g n).outputs.map PinClass.dataClass)[i]? = some dataClass) :
    ∃ pin, (s n).outputs[i]? = some pin ∧ pin.pData.getClass = dataClass := by
  have hmap : (g n).outputs.map PinClass.dataClass = (s n).outputs.map NodePin.dataClass := by
    rw [← hs]
    exact List.map_map
  rw [hmap, List.getElem?_map] at hpin
  exact Option.map_eq_some_iff.mp hpin

/-- The only output of most nodes. -/
theorem exists_singleFlow (hs : s.classes = g)
    (houtputs : (g n).outputs.map PinClass.dataClass = [.flow]) :
    ∃ pin, (s n).outputs = [pin] ∧ pin.pData.getClass = .flow := by
  have hmap : (g n).outputs.map PinClass.dataClass = (s n).outputs.map NodePin.dataClass := by
    rw [← hs]
    exact List.map_map
  rw [hmap] at houtputs
  obtain ⟨pin, hpin, hclass⟩ := List.map_eq_singleton_iff.mp houtputs
  exact ⟨pin, hpin, hclass⟩

theorem exists_output_of_reset (hg : FlowTyped kind g) (hkind : (kind n).getType = .startReset)
    (hs : s.classes = g) :
    ∃ pin, (s n).outputs[0]? = some pin ∧ pin.pData.getClass = .flow := by
  have hpins := hg.pins n
  cases hk : kind n <;> rw [hk] at hkind hpins
  case startReset => exact exists_output hs (by rw [hpins.2]; rfl)
  all_goals cases hkind

theorem exists_executeSequence (hg : FlowTyped kind g) (hs : s.classes = g)
    (hkind : kind n = .sequence) :
    ∃ outputs, (s n).outputs.mapM RunningNode.makeAvailable = some outputs := by
  obtain ⟨-, houtputs⟩ : (FlowKind.sequence).HasPins _ _ := hkind ▸ hg.pins n
  have hflows : ∀ pin ∈ (s n).outputs, pin.pData.getClass = .flow := by
    intro pin hpin
    refine houtputs _ (List.mem_map.mpr ⟨pin.pinClass, ?_, rfl⟩)
    rw [← hs]
    exact List.mem_map_of_mem hpin
  generalize (s n).outputs = pins at hflows
  induction pins with
  | nil => exact ⟨[], rfl⟩
  | cons pin pins ih =>
      rw [List.forall_mem_cons] at hflows
      obtain ⟨outputs, houtputs⟩ := ih hflows.2
      obtain ⟨pin', hpin'⟩ := exists_makeAvailable hflows.1
      rw [List.mapM_cons, hpin', houtputs]
      exact ⟨pin' :: outputs, rfl⟩

theorem exists_executeStartReset {node : RunningNode ν} (h : node.HasState) :
    ∃ node', node.executeStartReset = some node' ∧ node'.HasState := by
  obtain ⟨node₁, hfirst⟩ := exists_setFirstOutput h FlowState.available.toInt64
  obtain ⟨-, -, hstate, -⟩ := setFirstOutput_cases hfirst
  refine ⟨{ node₁ with status := node₁.status ||| LogicalNodeStatus.success }, ?_, hstate⟩
  rw [RunningNode.executeStartReset, hfirst]
  rfl

/-- Nothing is behind an active node that is null. -/
def ActiveNodeInfo.rank (rank : ν → ℕ) (this : ActiveNodeInfo ν) : ℕ :=
  this.pNode.elim 0 fun pNode => rank pNode + 1

theorem ActiveNodeInfo.rank_lt {rank : ν → ℕ} {t u : ActiveNodeInfo ν} (hn : t.pNode = some n)
    (hlt : ∀ p, u.pNode = some p → rank p < rank n) : u.rank rank < t.rank rank := by
  rw [ActiveNodeInfo.rank, ActiveNodeInfo.rank, hn, Option.elim_some]
  cases hu : u.pNode with
  | none => exact Nat.succ_pos _
  | some p => exact Nat.succ_lt_succ (hlt p hu)

theorem followsFrom_of_output (hs : s.classes = g) {i : ℕ} {pin : NodePin (Option ν) DataType}
    (hpin : (s n).outputs[i]? = some pin) (hflow : pin.pData.getClass = .flow) :
    FollowsFrom g n ⟨pin.getFirstNode, some (n, i)⟩ := by
  have hout : (g n).outputs[i]? = some pin.pinClass := by
    rw [← hs]
    exact (List.getElem?_map).trans (congrArg (Option.map _) hpin)
  refine ⟨fun p hp => ?_, fun p hp => ?_⟩
  · cases hp
    exact ⟨pin.pinClass, hout, hflow⟩
  · exact ⟨pin.pinClass, List.mem_of_getElem? hout, hflow, hp⟩

theorem followsFrom_of_brought (hs : s.classes = g) {t : ActiveNodeInfo ν}
    (ht : t ∈ (s n).brought n) : FollowsFrom g n t := by
  obtain ⟨⟨pin, i⟩, hmem, hbring⟩ := List.mem_filterMap.mp ht
  have hpin : (s n).outputs[i]? = some pin := List.mk_mem_zipIdx_iff_getElem?.mp hmem
  by_cases hflow : pin.pData.getClass = .flow
  · obtain ⟨state, hstate, -⟩ := DataType.getEnum_of_flow hflow
    rw [FlowMachine.bring_of_flow hstate] at hbring
    split at hbring
    · cases hbring
    · cases hbring
      exact followsFrom_of_output hs hpin hflow
  · rw [FlowMachine.bring_of_class hflow] at hbring
    cases hbring

end

section

variable {ν : Type} [DecidableEq ν] {kind : ν → FlowKind}
  {compute : RunningNodes ν → ν → Option (RunningNodes ν)} {g : ν → NodeClass ν}
  {s s' : RunningNodes ν} {n : ν}

theorem classes_update {node : RunningNode ν} (h : node.nodeClass = (s n).nodeClass) :
    RunningNodes.classes (Function.update s n node) = s.classes := by
  funext k
  rcases eq_or_ne k n with rfl | hne
  · rw [RunningNodes.classes, Function.update_self, h, RunningNodes.classes]
  · rw [RunningNodes.classes, Function.update_of_ne hne, RunningNodes.classes]

theorem classes_modify {f : RunningNode ν → Option (RunningNode ν)}
    (hf : ∀ node, f (s n) = some node → node.nodeClass = (s n).nodeClass)
    (h : s.modify n f = some s') : s'.classes = s.classes := by
  obtain ⟨node, hnode, rfl⟩ := Option.map_eq_some_iff.mp h
  exact classes_update (hf node hnode)

theorem classes_setOutput {i : ℕ} {state : FlowState}
    (h : s.modify n (fun node => node.setOutput i state) = some s') : s'.classes = s.classes :=
  classes_modify (fun _ => nodeClass_setOutput) h

theorem outputs_of_setOutput {i : ℕ} {state : FlowState} {pin : NodePin (Option ν) DataType}
    (hpin : (s n).outputs[i]? = some pin) (hflow : pin.pData.getClass = .flow)
    (h : s.modify n (fun node => node.setOutput i state) = some s') :
    (s' n).outputs = (s n).outputs.set i { pin with pData := .leaf .flow state.toInt64 } := by
  obtain ⟨node, hnode, rfl⟩ := Option.map_eq_some_iff.mp h
  obtain ⟨old, hold⟩ := DataType.eq_flow_of_class hflow
  simp only [RunningNode.setOutput, hpin, hold, DataType.setEnum, Option.bind_eq_bind,
    Option.bind_some, Option.some.injEq] at hnode
  rw [Function.update_self, ← hnode]

theorem classes_addStatus (status : UInt64) : (s.addStatus n status).classes = s.classes :=
  classes_update rfl

theorem classes_getOutput (i : ℕ) : (s.getOutput n i).1.classes = s.classes := by
  rw [RunningNodes.getOutput]
  split
  · exact classes_addStatus _
  · rfl

theorem classes_calcInput {i : ℕ} {r : RunningNodes ν × Option DataType}
    (hcompute : KeepsPins compute)
    (h : s.calcInput kind compute n i = some r) : r.1.classes = s.classes := by
  obtain ⟨pin, hpin, h⟩ := Option.bind_eq_some_iff.mp h
  split at h
  · cases h
    rfl
  next link hlink =>
    split at h
    · obtain ⟨s₁, hs₁, h⟩ := Option.bind_eq_some_iff.mp h
      have hpins := hcompute s _ s₁ hs₁
      split at h
      · cases h
        exact (classes_addStatus _).trans hpins
      · cases h
        exact (classes_getOutput _).trans hpins
    · split at h
      all_goals
        split at h
        · cases h
          exact classes_addStatus _
        · cases h
          exact classes_getOutput _

theorem classes_awaitInputs (hcompute : KeepsPins compute) {is : List ℕ}
    {arrived : Bool} (h : RunningNodes.awaitInputs kind compute n is s = some (s', arrived)) :
    s'.classes = s.classes := by
  induction is generalizing s with
  | nil =>
      cases h
      rfl
  | cons i is ih =>
      obtain ⟨⟨s₁, input⟩, hinput, h⟩ := Option.bind_eq_some_iff.mp h
      have hpins := classes_calcInput hcompute hinput
      obtain ⟨data, -, h⟩ := Option.bind_eq_some_iff.mp h
      obtain ⟨state, -, h⟩ := Option.bind_eq_some_iff.mp h
      split at h
      · cases h
        exact hpins
      · exact (ih h).trans hpins

theorem classes_executeNode (hcompute : KeepsPins compute)
    (h : s.executeNode kind compute n = some s') : s'.classes = s.classes := by
  obtain ⟨s₁, hs₁, rfl⟩ := Option.map_eq_some_iff.mp h
  refine (classes_addStatus _).trans ?_
  rw [RunningNodes.executeClass] at hs₁
  split at hs₁
  case h_1 => cases hs₁
  case h_2 => cases hs₁
  case h_3 => exact classes_setOutput hs₁
  case h_4 => exact classes_setOutput hs₁
  case h_5 => exact classes_setOutput hs₁
  case h_6 =>
    obtain ⟨⟨s₂, msg⟩, hmsg, h⟩ := Option.bind_eq_some_iff.mp hs₁
    obtain ⟨msg, -, h⟩ := Option.bind_eq_some_iff.mp h
    obtain ⟨text, -, h⟩ := Option.bind_eq_some_iff.mp h
    obtain ⟨⟨s₃, type⟩, htype, h⟩ := Option.bind_eq_some_iff.mp h
    obtain ⟨type, -, h⟩ := Option.bind_eq_some_iff.mp h
    obtain ⟨value, -, h⟩ := Option.bind_eq_some_iff.mp h
    have hmsg := classes_calcInput hcompute hmsg
    exact (classes_setOutput h).trans ((classes_calcInput hcompute htype).trans hmsg)
  case h_7 =>
    refine classes_modify (fun node hnode => ?_) hs₁
    obtain ⟨outputs, houtputs, rfl⟩ := Option.map_eq_some_iff.mp hnode
    exact congrArg (NodeClass.mk _) (map_pinClass_of_mapM houtputs)
  case h_8 =>
    obtain ⟨⟨s₂, condition⟩, hcondition, h⟩ := Option.bind_eq_some_iff.mp hs₁
    obtain ⟨condition, -, h⟩ := Option.bind_eq_some_iff.mp h
    obtain ⟨value, -, h⟩ := Option.bind_eq_some_iff.mp h
    obtain ⟨s₃, hs₃, h⟩ := Option.bind_eq_some_iff.mp h
    exact (classes_setOutput h).trans
      ((classes_setOutput hs₃).trans (classes_calcInput hcompute hcondition))
  case h_9 =>
    obtain ⟨⟨s₂, arrived⟩, hawait, h⟩ := Option.bind_eq_some_iff.mp hs₁
    exact (classes_setOutput h).trans (classes_awaitInputs hcompute hawait)

theorem classes_leaveFrom {pin : Option (ν × ℕ)} (h : leaveFrom s pin = some s') :
    s'.classes = s.classes := by
  cases pin with
  | none =>
      cases h
      rfl
  | some pin => exact classes_setOutput h

theorem classes_resetNodes {pStart : ν} {fuel : ℕ} {passed queue : List ν}
    (h : resetNodes pStart fuel s passed queue = some s') : s'.classes = s.classes := by
  induction fuel generalizing s passed queue with
  | zero => cases h
  | succ fuel ih =>
      cases queue with
      | nil =>
          cases h
          rfl
      | cons n queue =>
          refine (ih h).trans ?_
          rw [resetNode]
          split
          · rfl
          · exact classes_update (nodeClass_resetOutputFlows (s n))

theorem classes_resetFrom {fuel : ℕ} {r : RunningNodes ν × ActiveNodeInfo ν}
    (h : resetFrom fuel s n = some r) : r.1.classes = s.classes := by
  obtain ⟨node, hstart, h⟩ := Option.bind_eq_some_iff.mp h
  obtain ⟨s₁, hreset, h⟩ := Option.bind_eq_some_iff.mp h
  obtain ⟨node₂, hleave, h⟩ := Option.bind_eq_some_iff.mp h
  cases h
  refine (classes_update (nodeClass_setFirstOutput hleave)).trans ?_
  exact (classes_resetNodes hreset).trans (classes_update (nodeClass_executeStartReset hstart))

theorem node_of_resetFrom {fuel : ℕ} {r : RunningNodes ν × ActiveNodeInfo ν}
    (h : resetFrom fuel s n = some r) :
    r.2 = ⟨(r.1 n).outputs.head?.bind NodePin.getFirstNode, some (n, 0)⟩ := by
  obtain ⟨node, hstart, h⟩ := Option.bind_eq_some_iff.mp h
  obtain ⟨s₁, hreset, h⟩ := Option.bind_eq_some_iff.mp h
  obtain ⟨node₂, hleave, h⟩ := Option.bind_eq_some_iff.mp h
  cases h
  simp only [Function.update_self]

theorem classes_advances {w w' : FlowWorld ν} {t : ActiveNodeInfo ν}
    {new : Option (List (ActiveNodeInfo ν))} (hcompute : KeepsPins compute)
    (h : Advances kind compute w t w' new) : w'.nodes.classes = w.nodes.classes := by
  cases h with
  | drop pin => rfl
  | compute pin hkind => rfl
  | connector hkind hleave => exact classes_leaveFrom hleave
  | execute hkind hleave hexec =>
      exact (classes_executeNode hcompute hexec).trans (classes_leaveFrom hleave)
  | reset hkind hleave hreset => exact (classes_resetFrom hreset).trans (classes_leaveFrom hleave)

/-! ## Steps -/

/-- All that an active node brings is behind it. -/
theorem followsFrom_of_advances {w w' : FlowWorld ν} {t : ActiveNodeInfo ν}
    {new : List (ActiveNodeInfo ν)} (hg : FlowTyped kind g)
    (hcompute : KeepsPins compute) (hw : w.nodes.classes = g)
    (h : Advances kind compute w t w' (some new)) :
    ∀ u ∈ new, ∃ n, t.pNode = some n ∧ FollowsFrom g n u := by
  have hw' := (classes_advances hcompute h).trans hw
  generalize hnew : some new = new' at h
  cases h with
  | drop pin =>
      cases hnew
      simp
  | compute pin hkind => cases hnew
  | connector hkind hleave => cases hnew
  | @execute n pin nodes nodes' hkind hleave hexec =>
      rw [RunningNode.brings] at hnew
      split at hnew
      · cases hnew
      · cases hnew
        exact fun u hu => ⟨n, rfl, followsFrom_of_brought hw' hu⟩
  | @reset n pin nodes nodes' fuel t hkind hleave hreset =>
      cases hnew
      intro u hu
      rw [List.mem_singleton.mp hu]
      refine ⟨n, rfl, ?_⟩
      obtain ⟨pin, hpin, hflow⟩ := exists_output_of_reset hg hkind hw'
      have ht : t = ⟨(nodes' n).outputs.head?.bind NodePin.getFirstNode, some (n, 0)⟩ :=
        node_of_resetFrom hreset
      rw [ht, List.head?_eq_getElem?, hpin]
      exact followsFrom_of_output hw' hpin hflow

/-! ## Each step can be done -/

theorem exists_setOutput (hs : s.classes = g) {i : ℕ} (state : FlowState)
    (hpin : ((g n).outputs.map PinClass.dataClass)[i]? = some .flow) :
    ∃ s', s.modify n (fun node => node.setOutput i state) = some s' ∧ s'.classes = g := by
  obtain ⟨pin, hpin, hflow⟩ := exists_output hs hpin
  obtain ⟨pData, hset⟩ :=
    DataType.exists_setEnum (DataType.holdsInteger_of_flow hflow) state.toInt64
  suffices h : ∃ s', s.modify n (fun node => node.setOutput i state) = some s' by
    obtain ⟨s', h⟩ := h
    exact ⟨s', h, (classes_setOutput h).trans hs⟩
  refine ⟨Function.update s n { s n with outputs := (s n).outputs.set i { pin with pData } }, ?_⟩
  simp [RunningNodes.modify, RunningNode.setOutput, hpin, hset]

/-- What is read from an input is of the class of the pin. -/
theorem exists_calcInput (hg : FlowTyped kind g) (hcompute : ComputesPins kind compute g)
    (hs : s.classes = g) {i : ℕ} {dataClass : DataTypeClass}
    (hin : ((g n).inputs.map PinClass.dataClass)[i]? = some dataClass) :
    ∃ s' data, s.calcInput kind compute n i = some (s', some data) ∧ s'.classes = g ∧
      data.getClass = dataClass := by
  suffices h : ∃ r data, s.calcInput kind compute n i = some r ∧ r.2 = some data ∧
      data.getClass = dataClass by
    obtain ⟨⟨s', input⟩, data, h, rfl, hclass⟩ := h
    exact ⟨s', data, h, (classes_calcInput hcompute.pins h).trans hs, hclass⟩
  obtain ⟨pin, hpin, hclass⟩ := exists_input hs hin
  rw [RunningNodes.calcInput, hpin]
  simp only [Option.bind_eq_bind, Option.bind_some]
  cases hlink : firstLink pin.connections with
  | none => exact ⟨_, pin.pData, rfl, rfl, hclass⟩
  | some link =>
      have hread : ∀ s : RunningNodes ν, s.classes = g → ∃ r data,
          some (s.getOutput link.1 link.2) = some r ∧ r.2 = some data ∧
            data.getClass = dataClass := by
        intro s' hs'
        have hinput : pin.pinClass ∈ (g n).inputs := by
          rw [← hs]
          exact List.mem_map_of_mem (List.mem_of_getElem? hpin)
        obtain ⟨out, hout, hsame⟩ := hg.linked n pin.pinClass hinput link hlink
        have hout : ((g link.1).outputs.map PinClass.dataClass)[link.2]? = some dataClass := by
          rw [List.getElem?_map, hout, Option.map_some, hsame, ← hclass]
          rfl
        obtain ⟨pin', hpin', hclass'⟩ := exists_output hs' hout
        refine ⟨_, pin'.pData, rfl, ?_, hclass'⟩
        rw [RunningNodes.getOutput, hpin']
      have hreject : ∀ s : RunningNodes ν, s.classes = g → ∀ status, ∃ r data,
          some (s.rejectInput n i status) = some r ∧ r.2 = some data ∧
            data.getClass = dataClass := by
        intro s' hs' status
        obtain ⟨pin', hpin', hclass'⟩ := exists_input hs' hin
        refine ⟨_, pin'.pData, rfl, ?_, hclass'⟩
        rw [RunningNodes.rejectInput, hpin']
        rfl
      simp only
      split
      next hkind =>
        obtain ⟨s₁, hs₁⟩ := hcompute.total s link.1 hs hkind
        have hclasses := (hcompute.pins s link.1 s₁ hs₁).trans hs
        rw [hs₁, Option.bind_some]
        split
        · exact hreject s₁ hclasses _
        · exact hread s₁ hclasses
      · split
        all_goals
          split
          · exact hreject s hs _
          · exact hread s hs

theorem exists_awaitInputs (hg : FlowTyped kind g) (hcompute : ComputesPins kind compute g)
    (hs : s.classes = g) {is : List ℕ}
    (his : ∀ i ∈ is, ((g n).inputs.map PinClass.dataClass)[i]? = some .flow) :
    ∃ s' arrived, RunningNodes.awaitInputs kind compute n is s = some (s', arrived) := by
  induction is generalizing s with
  | nil => exact ⟨s, true, rfl⟩
  | cons i is ih =>
      rw [List.forall_mem_cons] at his
      obtain ⟨s₁, data, hinput, hs₁, hclass⟩ := exists_calcInput hg hcompute hs his.1
      obtain ⟨state, -, henum⟩ := DataType.getEnum_of_flow hclass
      rw [RunningNodes.awaitInputs, hinput]
      simp only [Option.bind_eq_bind, Option.bind_some, henum]
      split
      · exact ⟨s₁, false, rfl⟩
      · exact ih hs₁ his.2

theorem exists_executeDebugPrint (hg : FlowTyped kind g) (hcompute : ComputesPins kind compute g)
    (hs : s.classes = g) (hkind : kind n = .debugPrint) :
    ∃ s', s.executeDebugPrint kind compute n = some s' := by
  obtain ⟨hinputs, houtputs⟩ : (FlowKind.debugPrint).HasPins _ _ := hkind ▸ hg.pins n
  obtain ⟨s₁, msg, hmsg, hs₁, hstring⟩ :=
    exists_calcInput hg hcompute hs (i := 1) (by rw [hinputs]; rfl)
  obtain ⟨text, htext⟩ := DataType.exists_getString hstring
  obtain ⟨s₂, type, htype, hs₂, henum⟩ :=
    exists_calcInput hg hcompute hs₁ (i := 2) (by rw [hinputs]; rfl)
  obtain ⟨value, hvalue⟩ := DataType.exists_getEnum (DataType.holdsInteger_of_enum henum)
  obtain ⟨s', h, -⟩ := exists_setOutput hs₂ (i := 0) .available (by rw [houtputs]; rfl)
  refine ⟨s', ?_⟩
  simp only [RunningNodes.executeDebugPrint, hmsg, htext, htype, hvalue, h, Option.bind_eq_bind,
    Option.bind_some]

theorem exists_executeBranch (hg : FlowTyped kind g) (hcompute : ComputesPins kind compute g)
    (hs : s.classes = g) (hkind : kind n = .branch) :
    ∃ s', s.executeBranch kind compute n = some s' := by
  obtain ⟨hinputs, houtputs⟩ : (FlowKind.branch).HasPins _ _ := hkind ▸ hg.pins n
  obtain ⟨s₁, condition, hcondition, hs₁, hbool⟩ :=
    exists_calcInput hg hcompute hs (i := 1) (by rw [hinputs]; rfl)
  obtain ⟨holds, hholds⟩ := DataType.exists_getBool hbool
  obtain ⟨s₂, h₂, hs₂⟩ := exists_setOutput hs₁ (i := 0)
    (if holds then .available else .notAvailable) (by rw [houtputs]; rfl)
  obtain ⟨s', h, -⟩ := exists_setOutput hs₂ (i := 1)
    (if holds then .notAvailable else .available) (by rw [houtputs]; rfl)
  refine ⟨s', ?_⟩
  simp only [RunningNodes.executeBranch, hcondition, hholds, h₂, h, Option.bind_eq_bind,
    Option.bind_some]

theorem exists_executeSynchronize (hg : FlowTyped kind g) (hcompute : ComputesPins kind compute g)
    (hs : s.classes = g) (hkind : kind n = .synchronize) :
    ∃ s', s.executeSynchronize kind compute n = some s' := by
  obtain ⟨hinputs, houtputs⟩ : (FlowKind.synchronize).HasPins _ _ := hkind ▸ hg.pins n
  have hflows : ∀ i ∈ List.range (s n).inputs.length,
      ((g n).inputs.map PinClass.dataClass)[i]? = some .flow := by
    intro i hi
    have hlength : ((g n).inputs.map PinClass.dataClass).length = (s n).inputs.length := by
      rw [← hs]
      simp [RunningNodes.classes, RunningNode.nodeClass]
    have hlt : i < ((g n).inputs.map PinClass.dataClass).length := by
      rw [hlength]
      exact List.mem_range.mp hi
    rw [List.getElem?_eq_getElem hlt, hinputs _ (List.getElem_mem hlt)]
  obtain ⟨s₁, arrived, hawait⟩ := exists_awaitInputs hg hcompute hs hflows
  have hs₁ := (classes_awaitInputs hcompute.pins hawait).trans hs
  obtain ⟨s', h, -⟩ := exists_setOutput hs₁ (i := 0)
    (if arrived then .available else .notAvailable) (by rw [houtputs]; rfl)
  refine ⟨s', ?_⟩
  simp only [RunningNodes.executeSynchronize, hawait, h, Option.bind_eq_bind, Option.bind_some]

theorem exists_executeNode (hg : FlowTyped kind g) (hcompute : ComputesPins kind compute g)
    (hs : s.classes = g)
    (hkind : (kind n).getType = .executable ∨ (kind n).getType = .endReset) :
    ∃ s', s.executeNode kind compute n = some s' := by
  suffices h : ∃ s', s.executeClass kind compute n = some s' by
    obtain ⟨s', h⟩ := h
    exact ⟨_, congrArg (Option.map _) h⟩
  have hpins := hg.pins n
  rw [RunningNodes.executeClass]
  cases hk : kind n <;> rw [hk] at hkind hpins
  case compute => simp [FlowKind.getType] at hkind
  case connector => simp [FlowKind.getType] at hkind
  case startReset => simp [FlowKind.getType] at hkind
  case start =>
    obtain ⟨s', h, -⟩ := exists_setOutput hs (i := 0) .available (by rw [hpins.2]; rfl)
    exact ⟨s', h⟩
  case endReset =>
    obtain ⟨s', h, -⟩ := exists_setOutput hs (i := 0) .available (by rw [hpins.2]; rfl)
    exact ⟨s', h⟩
  case debugPrint => exact exists_executeDebugPrint hg hcompute hs hk
  case sequence =>
    obtain ⟨outputs, houtputs⟩ := exists_executeSequence hg hs hk
    simp [RunningNodes.modify, houtputs]
  case branch => exact exists_executeBranch hg hcompute hs hk
  case synchronize => exact exists_executeSynchronize hg hcompute hs hk

theorem exists_leaveFrom (hs : s.classes = g) {t : ActiveNodeInfo ν} (ht : FromFlow g t) :
    ∃ s', leaveFrom s t.pFromPin = some s' := by
  cases hpin : t.pFromPin with
  | none => exact ⟨s, rfl⟩
  | some pin =>
    obtain ⟨out, hout, hflow⟩ := ht pin hpin
    obtain ⟨s', h, -⟩ := exists_setOutput hs (n := pin.1) (i := pin.2) .executed
      (by rw [List.getElem?_map, hout, Option.map_some, hflow])
    exact ⟨s', h⟩

theorem exists_resetFrom [Finite ν] (hg : FlowTyped kind g) (hs : s.classes = g)
    (hkind : (kind n).getType = .startReset) : ∃ fuel r, resetFrom fuel s n = some r := by
  obtain ⟨pin, hpin, hflow⟩ := exists_output_of_reset hg hkind hs
  have hstate : (s n).HasState :=
    ⟨pin, by rw [List.head?_eq_getElem?, hpin], DataType.holdsInteger_of_flow hflow⟩
  obtain ⟨node, hstart, hstate₁⟩ := exists_executeStartReset hstate
  obtain ⟨s₁, ⟨fuel, hreset⟩, hsame, -⟩ :=
    exists_resetNodes (Set.toFinite {k | Encloses (Function.update s n node) n k})
  rw [Function.update_self] at hsame
  obtain ⟨node', hleave⟩ := exists_setFirstOutput (hsame ▸ hstate₁) FlowState.executed.toInt64
  refine ⟨fuel, ⟨Function.update s₁ n node',
    ⟨node'.outputs.head?.bind NodePin.getFirstNode, some (n, 0)⟩⟩, ?_⟩
  simp only [resetFrom, hstart, Option.bind_eq_bind, Option.bind_some, hreset fuel le_rfl, hleave]

theorem exists_advances [Finite ν] (hg : FlowTyped kind g) (hcompute : ComputesPins kind compute g)
    {w : FlowWorld ν} {t : ActiveNodeInfo ν} (hw : w.nodes.classes = g) (ht : FromFlow g t) :
    ∃ w' new, Advances kind compute w t w' new := by
  obtain ⟨pNode, pin⟩ := t
  obtain ⟨nodes, hleave⟩ := exists_leaveFrom hw ht
  have hnodes := (classes_leaveFrom hleave).trans hw
  cases pNode with
  | none => exact ⟨w, _, .drop pin⟩
  | some n =>
      cases hkind : (kind n).getType with
      | compute => exact ⟨w, _, .compute pin hkind⟩
      | connector => exact ⟨_, _, .connector hkind hleave⟩
      | executable =>
          obtain ⟨nodes', hexec⟩ := exists_executeNode hg hcompute hnodes (.inl hkind)
          exact ⟨_, _, .execute (.inl hkind) hleave hexec⟩
      | endReset =>
          obtain ⟨nodes', hexec⟩ := exists_executeNode hg hcompute hnodes (.inr hkind)
          exact ⟨_, _, .execute (.inr hkind) hleave hexec⟩
      | startReset =>
          obtain ⟨fuel, ⟨nodes', t⟩, hreset⟩ := exists_resetFrom hg hnodes hkind
          exact ⟨_, _, .reset hkind hleave hreset⟩

/-! ## Updates -/

open FlowMachine (Updates init)

/-- The classes of the pins are kept, and every active node comes from a flow. -/
structure FlowRun (g : ν → NodeClass ν) (m : FlowMachine ν) : Prop where
  classes : RunningNodes.classes m.nodes = g
  active : ∀ t ∈ m.active, FromFlow g t

theorem FlowRun.updates {m m' : FlowMachine ν} (hg : FlowTyped kind g)
    (hcompute : ComputesPins kind compute g) (h : FlowRun g m) (hm : Updates kind compute m m') :
    FlowRun g m' := by
  obtain ⟨hdrains, -⟩ := FlowMachine.updates_iff_drains.mp hm
  have hinvariant := hdrains.invariant (I := fun w => w.nodes.classes = g)
    (J := fun _ t => FromFlow g t) ?_ h.classes h.active
  · exact ⟨hinvariant.1, hinvariant.2.2⟩
  · intro w t w' new hw ht hstep
    refine ⟨(classes_advances hcompute.pins hstep).trans hw, fun _ hu => hu, ?_⟩
    rintro l rfl u hu
    obtain ⟨n, -, hleads, -⟩ := followsFrom_of_advances hg hcompute.pins hw hstep u hu
    exact hleads

/-- In a machine of typed nodes whose flows have no cycle, every update that follows some updates
comes to an end. -/
theorem FlowMachine.exists_next_update [Finite ν] {nodes : RunningNodes ν} {entryPoints : List ν}
    {m : FlowMachine ν} (hg : FlowTyped kind nodes.classes)
    (hcompute : ComputesPins kind compute nodes.classes)
    (hacyclic : ∀ n, ¬ TransGen (Leads nodes.classes) n n)
    (hm : ReflTransGen (Updates kind compute) (init nodes entryPoints) m) :
    ∃ m', Updates kind compute m m' := by
  have hrun : FlowRun nodes.classes m := by
    induction hm with
    | refl =>
        refine ⟨rfl, fun t ht => ?_⟩
        obtain ⟨n, -, rfl⟩ := List.mem_map.mp ht
        exact fun pin hpin => by cases hpin
    | tail _ hupdate ih => exact ih.updates hg hcompute hupdate
  obtain ⟨rank, hrank⟩ := WorkStack.exists_rank hacyclic
  have hstep : ∀ (w : FlowWorld ν) t, w.nodes.classes = nodes.classes → FromFlow nodes.classes t →
      ∃ w' new, Advances kind compute w t w' new ∧ w'.nodes.classes = nodes.classes ∧
        ∀ l, new = some l → ∀ u ∈ l, FromFlow nodes.classes u ∧ u.rank rank < t.rank rank := by
    intro w t hw ht
    obtain ⟨w', new, hstep⟩ := exists_advances hg hcompute hw ht
    refine ⟨w', new, hstep, (classes_advances hcompute.pins hstep).trans hw, ?_⟩
    rintro l rfl u hu
    obtain ⟨n, hn, hfrom, hnext⟩ := followsFrom_of_advances hg hcompute.pins hw hstep u hu
    exact ⟨hfrom, ActiveNodeInfo.rank_lt hn fun p hp => hrank n p (hnext p hp)⟩
  exact exists_updates (WorkStack.exists_drains hstep m.active hrun.active hrun.classes)

end

/-! ## A machine -/

def flowPin {k : ℕ} (connections : List (NodeConnect (Option (Fin k)))) :
    NodePin (Option (Fin k)) DataType where
  connections := connections
  pData := .leaf .flow FlowState.notAvailable.toInt64

/-- A sequence prints a text. A reset is started behind both of its outputs. -/
def sampleFlow : RunningNodes (Fin 5) :=
  ![{ type := .executable, inputs := [], outputs := [flowPin [⟨some 1, 0⟩]], status := 1 },
    { type := .executable, inputs := [flowPin [⟨some 0, 0⟩]],
      outputs := [flowPin [⟨some 2, 0⟩], flowPin [⟨some 3, 1⟩]], status := 1 },
    { type := .executable,
      inputs := [flowPin [⟨some 1, 0⟩], { pData := .leaf (.value .string) [] },
        { pData := .leaf (.enum none) (0 : Int64) }],
      outputs := [flowPin [⟨some 3, 0⟩]], status := 1 },
    { type := .executable, inputs := [flowPin [⟨some 2, 0⟩], flowPin [⟨some 1, 1⟩]],
      outputs := [flowPin [⟨some 4, 0⟩]], status := 1 },
    { type := .startReset, inputs := [flowPin [⟨some 3, 0⟩]], outputs := [flowPin []],
      status := 1 }]

def sampleFlowKind : Fin 5 → FlowKind :=
  ![.start, .sequence, .debugPrint, .synchronize, .startReset]

theorem flowTyped_sampleFlow : FlowTyped sampleFlowKind sampleFlow.classes where
  pins n := by
    fin_cases n <;> simp [sampleFlowKind, sampleFlow, RunningNodes.classes,
      RunningNode.nodeClass, FlowKind.HasPins, NodePin.pinClass, NodePin.dataClass, flowPin,
      DataType.getClass, LeafType.getClass, ValueType.getClass]
  linked n := by
    fin_cases n <;> simp [sampleFlow, RunningNodes.classes, RunningNode.nodeClass,
      NodePin.pinClass, NodePin.dataClass, flowPin, firstLink, DataType.getClass,
      LeafType.getClass]

theorem leads_sampleFlow {a b : Fin 5} (h : Leads sampleFlow.classes a b) : a < b := by
  obtain ⟨out, hout, -, hnext⟩ := h
  fin_cases a <;>
    simp [sampleFlow, RunningNodes.classes, RunningNode.nodeClass, NodePin.pinClass, flowPin]
      at hout
  case «1» => rcases hout with rfl | rfl <;> cases hnext <;> decide
  all_goals
    subst hout
    cases hnext
  all_goals decide

theorem FlowMachine.exists_next_update_sampleFlow :
    (∀ n, ¬ TransGen (Leads sampleFlow.classes) n n) ∧
      ∃ m', Updates sampleFlowKind (fun s _ => some s) (init sampleFlow [0]) m' := by
  have hacyclic : ∀ n, ¬ TransGen (Leads sampleFlow.classes) n n := by
    intro n h
    have hle : Leads sampleFlow.classes ≤ (· < ·) := fun a b => leads_sampleFlow
    exact lt_irrefl n (Relation.transGen_minimal hle n n h)
  refine ⟨hacyclic, FlowMachine.exists_next_update flowTyped_sampleFlow ⟨?_, ?_⟩ hacyclic .refl⟩
  · exact fun s n _ _ => ⟨s, rfl⟩
  · rintro s n s' h
    cases h
    rfl

end SRCommon
