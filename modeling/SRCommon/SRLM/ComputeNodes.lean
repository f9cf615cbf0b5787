import SRCommon.SRLM.ProcessReset

/-!
# Compute nodes

A compute node takes its inputs from the outputs of other nodes, or from the
literals in its own pins, when it is executed. Constructor nodes keep what they
have computed until they are marked dirty. The recursions run on fuel.

The value of a pin is what the literals say, whatever the nodes have computed
so far.
-/

namespace SRCommon

namespace LogicalNodeStatus

def incomplete : UInt64 := (1 : UInt64) <<< 3

def inputNullPtr : UInt64 := (1 : UInt64) <<< 4

def inputRangeError : UInt64 := (1 : UInt64) <<< 5

def inputTypeError : UInt64 := (1 : UInt64) <<< 6

def outputRangeError : UInt64 := (1 : UInt64) <<< 7

def executionError : UInt64 := (1 : UInt64) <<< 8

def computeError : UInt64 := (1 : UInt64) <<< 9

def notExecuted : UInt64 := (1 : UInt64) <<< 10

def errorStatus : UInt64 :=
  incomplete ||| inputNullPtr ||| inputNullPtr ||| inputRangeError ||| inputTypeError |||
    outputRangeError ||| executionError ||| computeError ||| notExecuted

end LogicalNodeStatus

/-- Which class the node is of. -/
inductive ComputeKind where
  | constructor
  | createStruct
  | breakStruct
  deriving DecidableEq

structure DataPin (ν : Type) where
  connections : List (NodeConnect (Option ν)) := []
  pData : DataType
  hashName : UInt64

/-- `GetFirstNode` and `GetFirstNodePin`. -/
def firstLink {ν : Type} (connections : List (NodeConnect (Option ν))) : Option (ν × ℕ) :=
  connections.head?.bind fun connection =>
    connection.pNode.map fun pNode => (pNode, connection.pinIndex)

structure ComputeNode (ν : Type) where
  kind : ComputeKind
  inputs : List (DataPin ν)
  outputs : List (DataPin ν)
  dirty : Bool := true
  status : UInt64 := LogicalNodeStatus.none

namespace ComputeNode

variable {ν : Type} (this : ComputeNode ν)

def addStatus (status : UInt64) : ComputeNode ν := { this with status := this.status ||| status }

def hasErrors : Bool := this.status &&& LogicalNodeStatus.errorStatus ≠ 0

def setInputData (index : ℕ) (pData : DataType) : ComputeNode ν :=
  { this with inputs := this.inputs.modify index fun pin => { pin with pData } }

def setOutputData (index : ℕ) (pData : DataType) : ComputeNode ν :=
  { this with outputs := this.outputs.modify index fun pin => { pin with pData } }

/-- A type that differs is reported, and so are a null pointer and an input out of range. -/
def setInput (pInput : Option DataType) (index : ℕ) : Option (ComputeNode ν) :=
  match pInput with
  | none => some (this.addStatus LogicalNodeStatus.inputNullPtr)
  | some pInput =>
      match this.inputs[index]? with
      | none => some (this.addStatus LogicalNodeStatus.inputRangeError)
      | some pSelfInput =>
          if pSelfInput.pData.getMeta ≠ pInput.getMeta then
            some (this.addStatus LogicalNodeStatus.inputTypeError)
          else (pInput.copyTo pSelfInput.pData).map (this.setInputData index)

end ComputeNode

/-- The nodes by their addresses. -/
abbrev ComputeNodes (ν : Type) := ν → ComputeNode ν

namespace ComputeNodes

variable {ν : Type} [DecidableEq ν]

def modify (s : ComputeNodes ν) (n : ν) (f : ComputeNode ν → ComputeNode ν) : ComputeNodes ν :=
  Function.update s n (f (s n))

section

/-! ## Execution

A null pointer that is followed, and an element out of range, have no result. -/

variable (calcInput : ComputeNodes ν → ν → ℕ → Option (ComputeNodes ν × Option DataType))

def executeConstructor (s : ComputeNodes ν) (n : ν) : Option (ComputeNodes ν) := do
  let r ← calcInput s n 0
  let pInput ← r.2
  let pOutput ← (r.1 n).outputs[0]?
  let pData ← pInput.copyTo pOutput.pData
  some (r.1.modify n fun node =>
    { node.setOutputData 0 pData with dirty := false }.addStatus LogicalNodeStatus.success)

/-- What is copied into the variables of the output from one input. -/
def assignInput (pin : DataPin ν) (pInput : Option DataType) (vars : List (UInt64 × DataType)) :
    Option (List (UInt64 × DataType)) :=
  match vars.lookup pin.hashName with
  | none => some vars
  | some old => pInput.bind fun pInput =>
      if old.getClass ≠ pInput.getClass then some vars
      else (pInput.copyTo old).map fun new => assignVar pin.hashName new vars

def createInput (n : ν) (s : ComputeNodes ν) (i : ℕ) : Option (ComputeNodes ν) := do
  let r ← calcInput s n i
  let pin ← (r.1 n).inputs[i]?
  let pOutput ← (r.1 n).outputs[0]?
  match pOutput.pData with
  | .struct name vars =>
      let vars ← assignInput pin r.2 vars
      some (r.1.modify n fun node => node.setOutputData 0 (.struct name vars))
  | .leaf _ _ => some r.1

def executeCreateStruct (s : ComputeNodes ν) (n : ν) : Option (ComputeNodes ν) := do
  let pOutput ← (s n).outputs[0]?
  let s ← match pOutput.pData with
    | .struct _ _ => (List.range (s n).inputs.length).foldlM (createInput calcInput n) s
    | .leaf _ _ => some s
  some (s.modify n fun node => node.addStatus LogicalNodeStatus.success)

def takeVariable (vars : List (UInt64 × DataType)) (output : DataPin ν) : Option (DataPin ν) :=
  match vars.lookup output.hashName with
  | none => some output
  | some pVar =>
      if pVar.getClass ≠ output.pData.getClass then some output
      else (pVar.copyTo output.pData).map fun pData => { output with pData }

def executeBreakStruct (s : ComputeNodes ν) (n : ν) : Option (ComputeNodes ν) := do
  let r ← calcInput s n 0
  let outputs ← match r.2 with
    | some (.struct _ vars) => (r.1 n).outputs.mapM (takeVariable vars)
    | _ => some (r.1 n).outputs
  some (r.1.modify n fun node => { node with outputs }.addStatus LogicalNodeStatus.success)

def execute (s : ComputeNodes ν) (n : ν) : Option (ComputeNodes ν) :=
  match (s n).kind with
  | .constructor => executeConstructor calcInput s n
  | .createStruct => executeCreateStruct calcInput s n
  | .breakStruct => executeBreakStruct calcInput s n

end

/-- The pin that an input is linked to, once its node has been executed if need be. -/
def calcInput : ℕ → ComputeNodes ν → ν → ℕ → Option (ComputeNodes ν × Option DataType)
  | 0, _, _, _ => none
  | fuel + 1, s, n, index => do
      let pin ← (s n).inputs[index]?
      match firstLink pin.connections with
      | none => some (s, some pin.pData)
      | some link =>
          let s ← if (s link.1).dirty then execute (calcInput fuel) s link.1 else some s
          if (s link.1).hasErrors then
            some (s.modify n fun node => node.addStatus LogicalNodeStatus.computeError,
              some pin.pData)
          else
            match (s link.1).outputs[link.2]? with
            | none =>
                some (s.modify link.1 fun node => node.addStatus LogicalNodeStatus.outputRangeError,
                  none)
            | some output => some (s, some output.pData)

def markDirty : ℕ → ComputeNodes ν → ν → Option (ComputeNodes ν)
  | 0, _, _ => none
  | fuel + 1, s, n =>
      ((s n).outputs.flatMap DataPin.connections).foldlM
        (fun s connection => connection.pNode.elim (some s) (markDirty fuel s))
        (s.modify n fun node => { node with dirty := true })

inductive Call (ν : Type) where
  | setInput (n : ν) (pInput : DataType) (index : ℕ)
  | calcInput (n : ν) (index : ℕ)

/-- `SetInput` is followed by `MarkDirty`. The answer is what `CalcInput` returns. -/
def step (fuel : ℕ) (s : ComputeNodes ν) : Call ν → Option (ComputeNodes ν × Option DataType)
  | .setInput n pInput index => do
      let node ← (s n).setInput (some pInput) index
      let s ← markDirty fuel (Function.update s n node) n
      some (s, none)
  | .calcInput n index => calcInput fuel s n index

end ComputeNodes

/-! ## Graphs and their values -/

structure PinSig (ν : Type) where
  connections : List (NodeConnect (Option ν))
  shape : DataShape
  hashName : UInt64

structure NodeSig (ν : Type) where
  kind : ComputeKind
  inputs : List (PinSig ν)
  outputs : List (PinSig ν)

def DataPin.sig {ν : Type} (pin : DataPin ν) : PinSig ν where
  connections := pin.connections
  shape := pin.pData.shape
  hashName := pin.hashName

theorem DataPin.hashName_of_sig {ν : Type} {pin pin' : DataPin ν} (h : pin.sig = pin'.sig) :
    pin.hashName = pin'.hashName := congrArg PinSig.hashName h

theorem DataPin.shape_of_sig {ν : Type} {pin pin' : DataPin ν} (h : pin.sig = pin'.sig) :
    pin.pData.shape = pin'.pData.shape := congrArg PinSig.shape h

/-- What stays as it is while values change. -/
def ComputeNode.sig {ν : Type} (this : ComputeNode ν) : NodeSig ν where
  kind := this.kind
  inputs := this.inputs.map DataPin.sig
  outputs := this.outputs.map DataPin.sig

/-- The first link of an input is stored at its other end too, the types agree, and each node has
the pins of its kind. -/
structure TypeCorrect {ν : Type} (g : ν → NodeSig ν) : Prop where
  linked : ∀ n i pin p j, (g n).inputs[i]? = some pin → firstLink pin.connections = some (p, j) →
    ∃ out, (g p).outputs[j]? = some out ∧ out.shape = pin.shape ∧ ⟨some n, i⟩ ∈ out.connections
  unique : ∀ n, ∀ pin ∈ (g n).inputs, pin.shape.Unique
  constructor : ∀ n, (g n).kind = .constructor →
    ∃ a b, (g n).inputs = [a] ∧ (g n).outputs = [b] ∧ b.shape = a.shape
  createStruct : ∀ n, (g n).kind = .createStruct →
    ∃ out name, (g n).outputs = [out] ∧ ((g n).inputs.map PinSig.hashName).Nodup ∧
      out.shape = .struct name ((g n).inputs.map fun pin => (pin.hashName, pin.shape))
  breakStruct : ∀ n, (g n).kind = .breakStruct →
    ∃ a name, (g n).inputs = [a] ∧
      a.shape = .struct name ((g n).outputs.map fun pin => (pin.hashName, pin.shape))

/-- An output of the first node is linked to an input of the second. -/
def IsLinked {ν : Type} (g : ν → NodeSig ν) (p n : ν) : Prop :=
  ∃ out ∈ (g p).outputs, ∃ i, ⟨some n, i⟩ ∈ out.connections

namespace ComputeNodes

variable {ν : Type}

/-- The value of a pin, all nodes computed from the literals. -/
inductive PinValue (s : ComputeNodes ν) : PinSide → ν → ℕ → DataType → Prop where
  | literal {n : ν} {i : ℕ} {pin : DataPin ν} (hpin : (s n).inputs[i]? = some pin)
      (hlink : firstLink pin.connections = none) : PinValue s .input n i pin.pData
  | linked {n : ν} {i : ℕ} {pin : DataPin ν} {link : ν × ℕ} {v : DataType}
      (hpin : (s n).inputs[i]? = some pin) (hlink : firstLink pin.connections = some link)
      (h : PinValue s .output link.1 link.2 v) : PinValue s .input n i v
  | constructor {n : ν} {v : DataType} (hkind : (s n).kind = .constructor)
      (h : PinValue s .input n 0 v) : PinValue s .output n 0 v
  | createStruct {n : ν} {out : DataPin ν} {name : UInt64} {shapes : List (UInt64 × DataShape)}
      {vars : List (UInt64 × DataType)} (hkind : (s n).kind = .createStruct)
      (hout : (s n).outputs[0]? = some out) (hshape : out.pData.shape = .struct name shapes)
      (hvars : vars.map Prod.fst = (s n).inputs.map DataPin.hashName)
      (h : ∀ k var, vars[k]? = some var → PinValue s .input n k var.2) :
      PinValue s .output n 0 (.struct name vars)
  | breakStruct {n : ν} {j : ℕ} {out : DataPin ν} {name : UInt64}
      {vars : List (UInt64 × DataType)} {v : DataType} (hkind : (s n).kind = .breakStruct)
      (hout : (s n).outputs[j]? = some out) (h : PinValue s .input n 0 (.struct name vars))
      (hvar : vars.lookup out.hashName = some v) : PinValue s .output n j v

variable {s s' : ComputeNodes ν} {side : PinSide} {n p : ν} {i j : ℕ} {v v' : DataType}

theorem PinValue.unique (h : PinValue s side n i v) (h' : PinValue s side n i v') : v = v' := by
  induction h generalizing v' with
  | literal hpin hlink =>
      cases h' with
      | literal hpin' _ => rw [Option.some.inj (hpin.symm.trans hpin')]
      | linked hpin' hlink' _ =>
          obtain rfl := Option.some.inj (hpin.symm.trans hpin')
          rw [hlink] at hlink'
          cases hlink'
  | linked hpin hlink _ ih =>
      cases h' with
      | literal hpin' hlink' =>
          obtain rfl := Option.some.inj (hpin.symm.trans hpin')
          rw [hlink] at hlink'
          cases hlink'
      | linked hpin' hlink' h' =>
          obtain rfl := Option.some.inj (hpin.symm.trans hpin')
          obtain rfl := Option.some.inj (hlink.symm.trans hlink')
          exact ih h'
  | constructor hkind _ ih =>
      cases h' with
      | constructor _ h' => exact ih h'
      | createStruct hkind' => cases hkind.symm.trans hkind'
      | breakStruct hkind' => cases hkind.symm.trans hkind'
  | createStruct hkind hout hshape hvars _ ih =>
      cases h' with
      | constructor hkind' => cases hkind.symm.trans hkind'
      | createStruct hkind' hout' hshape' hvars' h' =>
          obtain rfl := Option.some.inj (hout.symm.trans hout')
          rw [hshape, DataShape.struct.injEq] at hshape'
          rw [hshape'.1, eq_of_keys (hvars.trans hvars'.symm) fun k var var' hvar hvar' =>
            ih k var hvar (h' k var' hvar')]
      | breakStruct hkind' => cases hkind.symm.trans hkind'
  | breakStruct hkind hout _ hvar ih =>
      cases h' with
      | constructor hkind' => cases hkind.symm.trans hkind'
      | createStruct hkind' => cases hkind.symm.trans hkind'
      | breakStruct hkind' hout' h' hvar' =>
          obtain rfl := Option.some.inj (hout.symm.trans hout')
          obtain ⟨-, rfl⟩ := DataType.struct.inj (ih h')
          exact Option.some.inj (hvar.symm.trans hvar')

/-- The two states have the same links, types and literals at a node. -/
def Agrees (s s' : ComputeNodes ν) (n : ν) : Prop :=
  (s' n).sig = (s n).sig ∧ (s' n).inputs = (s n).inputs

theorem Agrees.kind (h : Agrees s s' n) : (s' n).kind = (s n).kind := congrArg NodeSig.kind h.1

theorem Agrees.exists_output (h : Agrees s s' n) {out : DataPin ν}
    (hout : (s n).outputs[j]? = some out) :
    ∃ out', (s' n).outputs[j]? = some out' ∧ out'.sig = out.sig := by
  have houtputs := congrArg (fun sig => sig.outputs[j]?) h.1
  simp only [ComputeNode.sig, List.getElem?_map, hout, Option.map_some] at houtputs
  exact Option.map_eq_some_iff.mp houtputs

/-- Only what is linked to a pin, directly or not, has a say in its value. -/
theorem PinValue.transfer {P : ν → Prop} (hagrees : ∀ n, P n → Agrees s s' n)
    (hclosed : ∀ (n : ν) (i : ℕ) (pin : DataPin ν) (link : ν × ℕ), P n →
      (s n).inputs[i]? = some pin → firstLink pin.connections = some link → P link.1)
    (h : PinValue s side n i v) (hn : P n) : PinValue s' side n i v := by
  induction h with
  | literal hpin hlink => exact .literal ((hagrees _ hn).2 ▸ hpin) hlink
  | linked hpin hlink _ ih =>
      exact .linked ((hagrees _ hn).2 ▸ hpin) hlink (ih (hclosed _ _ _ _ hn hpin hlink))
  | constructor hkind _ ih => exact .constructor ((hagrees _ hn).kind.trans hkind) (ih hn)
  | createStruct hkind hout hshape hvars _ ih =>
      obtain ⟨out', hout', hsig⟩ := (hagrees _ hn).exists_output hout
      refine .createStruct ((hagrees _ hn).kind.trans hkind) hout'
        ((DataPin.shape_of_sig hsig).trans hshape) ((hagrees _ hn).2 ▸ hvars) fun k var hvar => ?_
      exact ih k var hvar hn
  | breakStruct hkind hout _ hvar ih =>
      obtain ⟨out', hout', hsig⟩ := (hagrees _ hn).exists_output hout
      rw [← DataPin.hashName_of_sig hsig] at hvar
      exact .breakStruct ((hagrees _ hn).kind.trans hkind) hout' (ih hn) hvar

theorem PinValue.of_agrees (hagrees : ∀ n, Agrees s s' n) (h : PinValue s side n i v) :
    PinValue s' side n i v :=
  h.transfer (P := fun _ => True) (fun n _ => hagrees n) (fun _ _ _ _ _ _ _ => trivial) trivial

theorem kind_of_sig {g : ν → NodeSig ν} (hsig : (s n).sig = g n) {kind : ComputeKind}
    (hkind : (s n).kind = kind) : (g n).kind = kind := by
  rw [← hsig]
  exact hkind

theorem getElem?_inputs {g : ν → NodeSig ν} (hsig : (s n).sig = g n) {pin : DataPin ν}
    (hpin : (s n).inputs[i]? = some pin) : (g n).inputs[i]? = some pin.sig := by
  rw [← hsig, ComputeNode.sig, List.getElem?_map, hpin, Option.map_some]

theorem getElem?_outputs {g : ν → NodeSig ν} (hsig : (s n).sig = g n) {pin : DataPin ν}
    (hpin : (s n).outputs[i]? = some pin) : (g n).outputs[i]? = some pin.sig := by
  rw [← hsig, ComputeNode.sig, List.getElem?_map, hpin, Option.map_some]

theorem exists_output {g : ν → NodeSig ν} (hsig : (s n).sig = g n) {out : PinSig ν}
    (hout : (g n).outputs[j]? = some out) :
    ∃ pin, (s n).outputs[j]? = some pin ∧ pin.sig = out := by
  rw [← hsig, ComputeNode.sig, List.getElem?_map] at hout
  exact Option.map_eq_some_iff.mp hout

theorem exists_input {g : ν → NodeSig ν} (hsig : (s n).sig = g n) {out : PinSig ν}
    (hout : (g n).inputs[j]? = some out) :
    ∃ pin, (s n).inputs[j]? = some pin ∧ pin.sig = out := by
  rw [← hsig, ComputeNode.sig, List.getElem?_map] at hout
  exact Option.map_eq_some_iff.mp hout

variable {g : ν → NodeSig ν}

/-- The variable of a struct that an output of a node takes. -/
theorem exists_variable (hg : TypeCorrect g) (hsig : (s n).sig = g n)
    (hkind : (s n).kind = .breakStruct) {pin out : DataPin ν} (hpin : (s n).inputs[0]? = some pin)
    (hout : (s n).outputs[j]? = some out) (hv : v.shape = pin.pData.shape) :
    ∃ name vars w, v = .struct name vars ∧ vars.lookup out.hashName = some w ∧
      w.shape = out.pData.shape ∧ w.shape.Unique := by
  obtain ⟨a, name, hinputs, hshape⟩ := hg.breakStruct n (kind_of_sig hsig hkind)
  have ha : a = pin.sig := by
    have hget := getElem?_inputs hsig hpin
    rw [hinputs] at hget
    exact Option.some.inj hget
  have hunique : a.shape.Unique := hg.unique n a (hinputs ▸ List.mem_singleton_self a)
  have hva : v.shape = a.shape := hv.trans (congrArg PinSig.shape ha).symm
  rw [hshape] at hva hunique
  cases v with
  | leaf type value => cases hva
  | struct name' vars =>
      obtain ⟨rfl, hvars⟩ := DataShape.struct.inj hva
      have hget := getElem?_outputs hsig hout
      have hat : (DataType.shapeVars vars)[j]? = some (out.hashName, out.pData.shape) := by
        rw [hvars, List.getElem?_map, hget]
        rfl
      rw [DataType.getElem?_shapeVars] at hat
      obtain ⟨⟨k, w⟩, hw, heq⟩ := Option.map_eq_some_iff.mp hat
      obtain ⟨rfl, hwshape⟩ := Prod.mk.inj heq
      rw [DataShape.Unique, ← hvars, DataType.map_fst_shapeVars] at hunique
      refine ⟨name', vars, w, rfl, lookup_of_getElem? hw hunique.1, hwshape, ?_⟩
      exact DataType.uniqueVars_iff.mp hunique.2 (out.hashName, w.shape)
        (List.mem_of_getElem? (i := j) (by rw [DataType.getElem?_shapeVars, hw]; rfl))

theorem shapeVars_eq {inputs : List (DataPin ν)} {vars : List (UInt64 × DataType)}
    (hvars : vars.map Prod.fst = inputs.map DataPin.hashName)
    (hvalues : ∀ (k : ℕ) (var : UInt64 × DataType) (pin : DataPin ν), vars[k]? = some var →
      inputs[k]? = some pin → var.2.shape = pin.pData.shape) :
    DataType.shapeVars vars =
      (inputs.map DataPin.sig).map fun pin => (pin.hashName, pin.shape) := by
  have hlength : vars.length = inputs.length := by simpa using congrArg List.length hvars
  refine List.ext_getElem? fun k => ?_
  rw [DataType.getElem?_shapeVars, List.getElem?_map, List.getElem?_map]
  rcases Nat.lt_or_ge k vars.length with hk | hk
  · have hk' : k < inputs.length := hlength ▸ hk
    have hkey := congrArg (fun keys => keys[k]?) hvars
    have hvar := List.getElem?_eq_getElem hk
    have hpin := List.getElem?_eq_getElem hk'
    have hshape := hvalues k _ _ hvar hpin
    simp only [List.getElem?_map, hvar, hpin, Option.map_some, Option.some.injEq] at hkey
    rw [hvar, hpin, Option.map_some, Option.map_some, Option.map_some, hkey, hshape]
    rfl
  · rw [List.getElem?_eq_none hk, List.getElem?_eq_none (hlength ▸ hk)]
    rfl

def pins (this : ComputeNode ν) : PinSide → List (DataPin ν)
  | .input => this.inputs
  | .output => this.outputs

/-- The value of a pin is of the type of the pin. -/
theorem PinValue.shape_eq (hg : TypeCorrect g) (hsig : ∀ n, (s n).sig = g n)
    (h : PinValue s side n i v) {pin : DataPin ν} (hpin : (pins (s n) side)[i]? = some pin) :
    v.shape = pin.pData.shape := by
  induction h generalizing pin with
  | literal hpin' _ => rw [Option.some.inj (hpin'.symm.trans hpin)]
  | @linked n i pin' link v hpin' hlink _ ih =>
      obtain rfl := Option.some.inj (hpin'.symm.trans hpin)
      obtain ⟨out, hout, hshape, -⟩ := hg.linked n i pin'.sig link.1 link.2
        (getElem?_inputs (hsig n) hpin') hlink
      obtain ⟨out', hout', rfl⟩ := exists_output (hsig link.1) hout
      exact (ih hout').trans hshape
  | @constructor n v hkind _ ih =>
      obtain ⟨a, b, hinputs, houtputs, hshape⟩ := hg.constructor n (kind_of_sig (hsig n) hkind)
      have ha : (g n).inputs[0]? = some a := by rw [hinputs]; rfl
      have hb : (g n).outputs[0]? = some b := by rw [houtputs]; rfl
      obtain ⟨a', ha', rfl⟩ := exists_input (hsig n) ha
      obtain rfl := Option.some.inj (hb.symm.trans (getElem?_outputs (hsig n) hpin))
      exact (ih ha').trans hshape.symm
  | @createStruct n out name shapes vars hkind hout hshape hvars _ ih =>
      obtain rfl := Option.some.inj (hout.symm.trans hpin)
      obtain ⟨o, name', houtputs, -, hstruct⟩ := hg.createStruct n (kind_of_sig (hsig n) hkind)
      have hget := getElem?_outputs (hsig n) hout
      rw [houtputs] at hget
      obtain rfl := Option.some.inj hget
      rw [hshape]
      obtain ⟨rfl, rfl⟩ := DataShape.struct.inj (hshape.symm.trans hstruct)
      rw [DataType.shape, ← hsig n]
      exact congrArg (DataShape.struct name) (shapeVars_eq hvars fun k var pin hvar hpin =>
        ih k var hvar hpin)
  | @breakStruct n j out name vars v hkind hout _ hvar ih =>
      obtain rfl := Option.some.inj (hout.symm.trans hpin)
      obtain ⟨a, _, hinputs, -⟩ := hg.breakStruct n (kind_of_sig (hsig n) hkind)
      have ha : (g n).inputs[0]? = some a := by rw [hinputs]; rfl
      obtain ⟨a', ha', rfl⟩ := exists_input (hsig n) ha
      obtain ⟨_, vars', w, hstruct, hw, hshape, -⟩ :=
        exists_variable hg (hsig n) hkind ha' hout (ih ha')
      obtain ⟨-, rfl⟩ := DataType.struct.inj hstruct
      rw [Option.some.inj (hvar.symm.trans hw)]
      exact hshape

end ComputeNodes

end SRCommon
