import Mathlib.Data.Set.Card
import Mathlib.Logic.Relation
import SRCommon.Lib.PartialRun
import SRCommon.SRLM.ComputeNodes

/-!
# Lazy and full evaluation

A constructor node that is not dirty has kept the value of its output, and the
nodes of the other kinds are computed each time. A literal that is set marks
all that depends on it, so what has been kept is the value still.
-/

namespace SRCommon

namespace ComputeNodes

/-! ## Ranks -/

section

variable {α : Type} {r : α → α → Prop}

theorem exists_rank [Finite α] (h : ∀ a, ¬Relation.TransGen r a a) :
    ∃ rank : α → ℕ, (∀ a, rank a ≤ Nat.card α) ∧ ∀ a b, r a b → rank a < rank b := by
  refine ⟨fun b => {a | Relation.TransGen r a b}.ncard, fun b => ?_, fun a b hab => ?_⟩
  · exact Set.ncard_le_card _
  · apply Set.ncard_lt_ncard _ (Set.toFinite _)
    refine ⟨fun c hc => hc.tail hab, fun hsub => h a (hsub ?_)⟩
    exact .single hab

theorem not_transGen_self {rank : α → ℕ} (hrank : ∀ a b, r a b → rank a < rank b) (a : α) :
    ¬Relation.TransGen r a a := by
  intro h
  have hlt : ∀ b, Relation.TransGen r a b → rank a < rank b := by
    intro b hb
    induction hb with
    | single h => exact hrank _ _ h
    | tail _ h ih => exact ih.trans (hrank _ _ h)
  exact Nat.lt_irrefl _ (hlt a h)

end

variable {ν : Type} {g : ν → NodeSig ν} {s s' s'' : ComputeNodes ν} {side : PinSide} {n : ν}
  {i j : ℕ} {v : DataType}

/-! ## Consistent states -/

theorem hasErrors_addSuccess (this : ComputeNode ν) (h : this.hasErrors = false) :
    (this.addStatus LogicalNodeStatus.success).hasErrors = false := by
  have hzero : LogicalNodeStatus.success &&& LogicalNodeStatus.errorStatus = 0 := by decide
  have hstatus : this.status &&& LogicalNodeStatus.errorStatus = 0 := by
    by_contra hne
    exact absurd (decide_eq_true hne) (Bool.not_eq_true _ ▸ h)
  have hor : (this.status ||| LogicalNodeStatus.success) &&& LogicalNodeStatus.errorStatus =
      this.status &&& LogicalNodeStatus.errorStatus |||
        LogicalNodeStatus.success &&& LogicalNodeStatus.errorStatus :=
    UInt64.toBitVec_inj.mp BitVec.and_or_distrib_right
  rw [hstatus, hzero] at hor
  exact decide_eq_false (not_not.mpr hor)

/-- There is no error, and what is not dirty keeps the value of its pin. -/
structure Consistent (g : ν → NodeSig ν) (s : ComputeNodes ν) : Prop where
  sig : ∀ n, (s n).sig = g n
  noErrors : ∀ n, (s n).hasErrors = false
  clean : ∀ n, (s n).dirty = false → (s n).kind = .constructor ∧
    ∀ out, (s n).outputs[0]? = some out → PinValue s .output n 0 out.pData

/-- Nodes as they are made: nothing has been computed. -/
structure Fresh (g : ν → NodeSig ν) (s : ComputeNodes ν) : Prop where
  sig : ∀ n, (s n).sig = g n
  dirty : ∀ n, (s n).dirty = true
  status : ∀ n, (s n).status = LogicalNodeStatus.none

theorem Fresh.consistent (h : Fresh g s) : Consistent g s where
  sig := h.sig
  noErrors n := by
    rw [ComputeNode.hasErrors, h.status n]
    decide
  clean n hdirty := absurd ((h.dirty n).symm.trans hdirty) Bool.noConfusion

theorem forall_modify [DecidableEq ν] {P : ν → ComputeNode ν → Prop}
    {f : ComputeNode ν → ComputeNode ν} (hn : P n (f (s n))) (h : ∀ m, m ≠ n → P m (s m)) (m : ν) :
    P m (s.modify n f m) :=
  (Function.forall_update_iff s P).mpr ⟨hn, h⟩ m

@[simp] theorem modify_self [DecidableEq ν] (s : ComputeNodes ν) (n : ν)
    (f : ComputeNode ν → ComputeNode ν) : s.modify n f n = f (s n) := Function.update_self _ _ _

theorem modify_of_ne [DecidableEq ν] (s : ComputeNodes ν) {n m : ν} (h : m ≠ n)
    (f : ComputeNode ν → ComputeNode ν) : s.modify n f m = s m := Function.update_of_ne h _ _

theorem agrees_modify [DecidableEq ν] {f : ComputeNode ν → ComputeNode ν}
    (hsig : (f (s n)).sig = (s n).sig) (hinputs : (f (s n)).inputs = (s n).inputs) (m : ν) :
    Agrees s (s.modify n f) m := by
  apply forall_modify (P := fun m node => node.sig = (s m).sig ∧ node.inputs = (s m).inputs)
  · exact ⟨hsig, hinputs⟩
  · exact fun m _ => ⟨rfl, rfl⟩

/-- A node is given new values in its outputs. -/
theorem Consistent.modify [DecidableEq ν] (h : Consistent g s) {f : ComputeNode ν → ComputeNode ν}
    (hsig : (f (s n)).sig = (s n).sig) (hinputs : (f (s n)).inputs = (s n).inputs)
    (herrors : (f (s n)).hasErrors = false)
    (hclean : (f (s n)).dirty = false → (s n).kind = .constructor ∧
      ∀ out, (f (s n)).outputs[0]? = some out → PinValue s .output n 0 out.pData) :
    Consistent g (s.modify n f) := by
  have hagrees := agrees_modify (n := n) hsig hinputs
  refine ⟨fun m => (hagrees m).1.trans (h.sig m), ?_, fun m hdirty => ?_⟩
  · exact forall_modify (P := fun _ node => node.hasErrors = false) herrors fun m _ => h.noErrors m
  · rw [(hagrees m).kind]
    have hvalue : (s.modify n f m).dirty = false → (s m).kind = .constructor ∧
        ∀ out, (s.modify n f m).outputs[0]? = some out → PinValue s .output m 0 out.pData :=
      forall_modify (P := fun m node => node.dirty = false → (s m).kind = .constructor ∧
        ∀ out, node.outputs[0]? = some out → PinValue s .output m 0 out.pData) hclean
        (fun m _ => h.clean m) m
    obtain ⟨hkind, hvalue⟩ := hvalue hdirty
    exact ⟨hkind, fun out hout => (hvalue out hout).of_agrees hagrees⟩

/-! ## Changes -/

/-- Nodes of the set, and no others, may have been given new values in their outputs. -/
structure Changed (g : ν → NodeSig ν) (s s' : ComputeNodes ν) (C : ν → Prop) : Prop where
  consistent : Consistent g s'
  inputs : ∀ m, (s' m).inputs = (s m).inputs
  frame : ∀ m, ¬C m → s' m = s m

section

variable {C D : ν → Prop}

theorem Changed.refl (hs : Consistent g s) : Changed g s s C :=
  ⟨hs, fun _ => rfl, fun _ _ => rfl⟩

theorem Changed.mono (h : Changed g s s' C) (hCD : ∀ m, C m → D m) : Changed g s s' D :=
  ⟨h.consistent, h.inputs, fun m hm => h.frame m fun hC => hm (hCD m hC)⟩

theorem Changed.trans (h : Changed g s s' C) (h' : Changed g s' s'' C) : Changed g s s'' C where
  consistent := h'.consistent
  inputs m := (h'.inputs m).trans (h.inputs m)
  frame m hm := (h'.frame m hm).trans (h.frame m hm)

theorem Changed.agrees (h : Changed g s s' C) (hs : Consistent g s) (m : ν) : Agrees s s' m :=
  ⟨(h.consistent.sig m).trans (hs.sig m).symm, h.inputs m⟩

theorem Changed.value (h : Changed g s s' C) (hs : Consistent g s)
    (hv : PinValue s' side n i v) : PinValue s side n i v :=
  hv.of_agrees fun m => ⟨(h.agrees hs m).1.symm, (h.agrees hs m).2.symm⟩

theorem Changed.modify [DecidableEq ν] (h : Changed g s s' C) (hn : C n)
    {f : ComputeNode ν → ComputeNode ν} (hsig : (f (s' n)).sig = (s' n).sig)
    (hinputs : (f (s' n)).inputs = (s' n).inputs) (herrors : (f (s' n)).hasErrors = false)
    (hclean : (f (s' n)).dirty = false → (s' n).kind = .constructor ∧
      ∀ out, (f (s' n)).outputs[0]? = some out → PinValue s' .output n 0 out.pData) :
    Changed g s (s'.modify n f) C := by
  apply h.trans
  refine ⟨h.consistent.modify hsig hinputs herrors hclean, ?_, fun m hm => ?_⟩
  · exact fun m => (agrees_modify hsig hinputs m).2
  · apply modify_of_ne
    rintro rfl
    exact hm hn

end

/-- What an execution leaves: the outputs of the node have their values. -/
structure Executed (g : ν → NodeSig ν) (s s' : ComputeNodes ν) (n : ν) : Prop extends
    Changed g s s' (Relation.ReflTransGen (IsLinked g) · n) where
  values : ∀ j out, (s' n).outputs[j]? = some out → PinValue s .output n j out.pData

/-- The node takes what has been computed for it. -/
theorem Changed.executed [DecidableEq ν]
    (h : Changed g s s' (Relation.ReflTransGen (IsLinked g) · n)) (hs : Consistent g s)
    {f : ComputeNode ν → ComputeNode ν} (hsig : (f (s' n)).sig = (s' n).sig)
    (hinputs : (f (s' n)).inputs = (s' n).inputs) (herrors : (f (s' n)).hasErrors = false)
    (hdirty : (f (s' n)).dirty = false → (s' n).kind = .constructor)
    (hvalues : ∀ j out, (f (s' n)).outputs[j]? = some out → PinValue s .output n j out.pData) :
    Executed g s (s'.modify n f) n where
  toChanged := h.modify .refl hsig hinputs herrors fun hclean =>
    ⟨hdirty hclean, fun out hout => (hvalues 0 out hout).of_agrees (h.agrees hs)⟩
  values := by
    rw [modify_self]
    exact hvalues

/-- Inputs of the node are computed as they should. Only what is linked to the node changes. -/
def Computes (g : ν → NodeSig ν)
    (calcInput : ComputeNodes ν → ν → ℕ → Option (ComputeNodes ν × Option DataType)) (n : ν) :
    Prop :=
  ∀ s i pin, Consistent g s → (s n).inputs[i]? = some pin →
    ∃ s' v, calcInput s n i = some (s', some v) ∧
      Changed g s s' (Relation.TransGen (IsLinked g) · n) ∧ PinValue s .input n i v

/-! ## Pins -/

theorem map_sig_modify {pins : List (DataPin ν)} {pin : DataPin ν} (hpin : pins[i]? = some pin)
    (hshape : v.shape = pin.pData.shape) :
    (pins.modify i fun pin => { pin with pData := v }).map DataPin.sig = pins.map DataPin.sig := by
  refine List.ext_getElem? fun k => ?_
  rw [List.getElem?_map, List.getElem?_map, List.getElem?_modify]
  by_cases hk : i = k
  · subst hk
    rw [hpin, Option.map_eq_map, Option.map_some, Option.map_some, if_pos rfl, Option.map_some]
    exact congrArg (fun shape => some (PinSig.mk pin.connections shape pin.hashName)) hshape
  · simp [hk]

theorem sig_setOutputData (this : ComputeNode ν) {out : DataPin ν}
    (hout : this.outputs[i]? = some out) (hshape : v.shape = out.pData.shape) :
    (this.setOutputData i v).sig = this.sig :=
  congrArg (NodeSig.mk this.kind (this.inputs.map DataPin.sig)) (map_sig_modify hout hshape)

theorem sig_setInputData (this : ComputeNode ν) {pin : DataPin ν}
    (hpin : this.inputs[i]? = some pin) (hshape : v.shape = pin.pData.shape) :
    (this.setInputData i v).sig = this.sig :=
  congrArg (NodeSig.mk this.kind · (this.outputs.map DataPin.sig)) (map_sig_modify hpin hshape)

theorem getElem?_setOutputData {this : ComputeNode ν} {out : DataPin ν}
    (h : (this.setOutputData i v).outputs[j]? = some out) :
    (i = j ∧ out.pData = v) ∨ (i ≠ j ∧ this.outputs[j]? = some out) := by
  rw [ComputeNode.setOutputData, List.getElem?_modify] at h
  obtain ⟨out', hout', rfl⟩ := Option.map_eq_some_iff.mp h
  by_cases hij : i = j
  · exact .inl ⟨hij, by rw [if_pos hij]⟩
  · rw [if_neg hij]
    exact .inr ⟨hij, hout'⟩

theorem eq_zero_of_single {out : PinSig ν} {pin : DataPin ν} (hsig : (s n).sig = g n)
    (houtputs : (g n).outputs = [out]) (hpin : (s n).outputs[j]? = some pin) : j = 0 := by
  have hget := getElem?_outputs hsig hpin
  by_contra hj
  rw [houtputs, List.getElem?_cons, if_neg hj] at hget
  cases hget

theorem unique_of_input (hg : TypeCorrect g) (hsig : (s n).sig = g n) {pin : DataPin ν}
    (hpin : (s n).inputs[i]? = some pin) (hshape : v.shape = pin.pData.shape) :
    v.shape.Unique := by
  rw [hshape]
  exact hg.unique n pin.sig (List.mem_of_getElem? (getElem?_inputs hsig hpin))

theorem setInput_spec (hg : TypeCorrect g) (hsig : (s n).sig = g n) {pin : PinSig ν}
    (hpin : (g n).inputs[i]? = some pin) (hshape : v.shape = pin.shape) :
    (s n).setInput (some v) i = some ((s n).setInputData i v) ∧
      ((s n).setInputData i v).sig = (s n).sig := by
  obtain ⟨pSelfInput, hself, rfl⟩ := exists_input hsig hpin
  have hunique := unique_of_input hg hsig hself hshape
  refine ⟨?_, sig_setInputData (s n) hself hshape⟩
  rw [ComputeNode.setInput]
  simp only [hself]
  rw [if_neg (not_not.mpr (DataType.getMeta_of_shape hshape).symm),
    DataType.copyTo_of_shape hshape hunique, Option.map_some]

theorem exists_takeVariables {vars : List (UInt64 × DataType)} {outputs : List (DataPin ν)}
    (h : ∀ out ∈ outputs, ∃ w, vars.lookup out.hashName = some w ∧ w.shape = out.pData.shape ∧
      w.shape.Unique) :
    ∃ outputs', outputs.mapM (takeVariable vars) = some outputs' ∧
      outputs'.map DataPin.sig = outputs.map DataPin.sig ∧
      ∀ out ∈ outputs', vars.lookup out.hashName = some out.pData := by
  induction outputs with
  | nil => exact ⟨[], rfl, rfl, by simp⟩
  | cons out outputs ih =>
      rw [List.forall_mem_cons] at h
      obtain ⟨⟨w, hw, hshape, hunique⟩, hrest⟩ := h
      obtain ⟨outputs', hmap, hsigs, hvalues⟩ := ih hrest
      have htake : takeVariable vars out = some { out with pData := w } := by
        rw [takeVariable, hw]
        dsimp only
        rw [if_neg (not_not.mpr (DataType.getClass_of_shape hshape)),
          DataType.copyTo_of_shape hshape hunique, Option.map_some]
      have hsig : DataPin.sig { out with pData := w } = out.sig :=
        congrArg (fun shape => PinSig.mk out.connections shape out.hashName) hshape
      refine ⟨{ out with pData := w } :: outputs', ?_, ?_, List.forall_mem_cons.mpr ⟨hw, hvalues⟩⟩
      · rw [List.mapM_cons, htake, hmap]
        rfl
      · rw [List.map_cons, List.map_cons, hsig, hsigs]

/-- The output of a node that creates a struct has a variable for each input. -/
theorem exists_struct (hg : TypeCorrect g) (hsig : (s n).sig = g n)
    (hkind : (s n).kind = .createStruct) :
    ∃ out name vars, (s n).outputs[0]? = some out ∧ out.pData = .struct name vars ∧
      (vars.map Prod.fst).Nodup ∧
      DataType.shapeVars vars = (s n).inputs.map fun pin => (pin.hashName, pin.pData.shape) := by
  obtain ⟨o, name, houtputs, hnodup, hstruct⟩ := hg.createStruct n (kind_of_sig hsig hkind)
  obtain ⟨out, hout, rfl⟩ := exists_output (j := 0) hsig (by rw [houtputs]; rfl)
  cases hdata : out.pData with
  | leaf type value =>
      rw [DataPin.sig, hdata] at hstruct
      cases hstruct
  | struct name' vars =>
      rw [DataPin.sig, hdata] at hstruct
      obtain ⟨-, hvars⟩ := DataShape.struct.inj hstruct
      refine ⟨out, name', vars, hout, hdata, ?_, ?_⟩
      · rw [← DataType.map_fst_shapeVars, hvars, List.map_map]
        exact hnodup
      · rw [hvars, ← hsig, ComputeNode.sig, List.map_map]
        rfl

section

variable {vars : List (UInt64 × DataType)} {k : ℕ}

theorem shapeVars_set {hashName : UInt64} {old new : DataType}
    (hold : vars[k]? = some (hashName, old)) (hshape : new.shape = old.shape) :
    DataType.shapeVars (vars.set k (hashName, new)) = DataType.shapeVars vars := by
  refine List.ext_getElem? fun j => ?_
  rw [DataType.getElem?_shapeVars, DataType.getElem?_shapeVars, List.getElem?_set]
  by_cases hj : k = j
  · subst hj
    have hlt : k < vars.length := (List.getElem?_eq_some_iff.mp hold).1
    rw [if_pos rfl, if_pos hlt, hold, Option.map_some, Option.map_some, hshape]
  · rw [if_neg hj]

/-- An input goes to its own variable. -/
theorem assignInput_eq {inputs : List (DataPin ν)} {pin : DataPin ν}
    (hnodup : (vars.map Prod.fst).Nodup)
    (hvars : DataType.shapeVars vars = inputs.map fun pin => (pin.hashName, pin.pData.shape))
    (hpin : inputs[k]? = some pin) (hshape : v.shape = pin.pData.shape)
    (hunique : v.shape.Unique) :
    k < vars.length ∧ assignInput pin (some v) vars = some (vars.set k (pin.hashName, v)) ∧
      DataType.shapeVars (vars.set k (pin.hashName, v)) = DataType.shapeVars vars := by
  have hat : (DataType.shapeVars vars)[k]? = some (pin.hashName, pin.pData.shape) := by
    rw [hvars, List.getElem?_map, hpin, Option.map_some]
  rw [DataType.getElem?_shapeVars] at hat
  obtain ⟨⟨hashName, old⟩, hold, heq⟩ := Option.map_eq_some_iff.mp hat
  obtain ⟨rfl, holdshape⟩ := Prod.mk.inj heq
  have hsame : v.shape = old.shape := hshape.trans holdshape.symm
  refine ⟨(List.getElem?_eq_some_iff.mp hold).1, ?_, shapeVars_set hold hsame⟩
  rw [assignInput, lookup_of_getElem? hold hnodup]
  dsimp only
  rw [Option.bind_some, if_neg (not_not.mpr (DataType.getClass_of_shape hsame.symm)),
    DataType.copyTo_of_shape hsame hunique, Option.map_some, assignVar_of_getElem? hold hnodup]

end

/-- The variables up to an input have their values. -/
structure Filled (g : ν → NodeSig ν) (s s' : ComputeNodes ν) (n : ν) (k : ℕ) : Prop extends
    Changed g s s' (Relation.ReflTransGen (IsLinked g) · n) where
  values : ∀ out name vars, (s' n).outputs[0]? = some out → out.pData = .struct name vars →
    ∀ j < k, ∀ var, vars[j]? = some var → PinValue s .input n j var.2

/-- A struct all of whose variables have their values is the value of the output. -/
theorem Filled.value_output (hg : TypeCorrect g) (hs : Consistent g s)
    (hkind : (s n).kind = .createStruct) (h : Filled g s s' n (s n).inputs.length)
    {out : DataPin ν} (hout : (s' n).outputs[j]? = some out) :
    PinValue s .output n j out.pData := by
  have hkind' : (s' n).kind = .createStruct := (h.agrees hs n).kind.trans hkind
  obtain ⟨o, -, houtputs, -⟩ := hg.createStruct n (kind_of_sig (hs.sig n) hkind)
  obtain rfl := eq_zero_of_single (h.consistent.sig n) houtputs hout
  obtain ⟨out', name, vars, hout', hdata, -, hvars⟩ := exists_struct hg (h.consistent.sig n) hkind'
  obtain rfl := Option.some.inj (hout'.symm.trans hout)
  obtain ⟨out₀, hout₀, hsig⟩ := exists_output (hs.sig n) (getElem?_outputs (h.consistent.sig n) hout)
  have hnames : vars.map Prod.fst = (s n).inputs.map DataPin.hashName := by
    rw [← DataType.map_fst_shapeVars, hvars, h.inputs n, List.map_map]
    rfl
  have hlength : vars.length = (s n).inputs.length := by simpa using congrArg List.length hnames
  rw [hdata]
  refine .createStruct hkind hout₀ ((DataPin.shape_of_sig hsig).trans (congrArg _ hdata)) hnames ?_
  intro k var hvar
  have hk : k < (s n).inputs.length := hlength ▸ (List.getElem?_eq_some_iff.mp hvar).1
  exact h.values out' name vars hout' hdata k hk var hvar

/-! ## Marks -/

theorem isLinked_iff (hsig : (s n).sig = g n) {m : ν} :
    IsLinked g n m ↔ ∃ connection ∈ (s n).outputs.flatMap DataPin.connections,
      connection.pNode = some m := by
  rw [IsLinked, ← hsig]
  constructor
  · rintro ⟨out, hout, i, hmem⟩
    obtain ⟨pin, hpin, rfl⟩ := List.mem_map.mp hout
    exact ⟨_, List.mem_flatMap.mpr ⟨pin, hpin, hmem⟩, rfl⟩
  · rintro ⟨⟨pNode, i⟩, hmem, rfl⟩
    obtain ⟨pin, hpin, hmem⟩ := List.mem_flatMap.mp hmem
    exact ⟨pin.sig, List.mem_map_of_mem hpin, i, hmem⟩

/-- Some nodes have been marked, among them those of the set. -/
def Marked (s s' : ComputeNodes ν) (S : ν → Prop) : Prop :=
  ∀ m, (s' m = s m ∧ ¬S m) ∨ s' m = { s m with dirty := true }

section

variable {S T : ν → Prop}

theorem Marked.trans (h : Marked s s' S) (h' : Marked s' s'' T) :
    Marked s s'' fun m => S m ∨ T m := by
  intro m
  rcases h m with ⟨hm, hS⟩ | hm <;> rcases h' m with ⟨hm', hT⟩ | hm'
  · exact .inl ⟨hm'.trans hm, not_or.mpr ⟨hS, hT⟩⟩
  · exact .inr (by rw [hm', hm])
  · exact .inr (hm'.trans hm)
  · exact .inr (by rw [hm', hm])

theorem Marked.mono (h : Marked s s' S) (hST : ∀ m, T m → S m) : Marked s s' T := by
  intro m
  rcases h m with ⟨hm, hS⟩ | hm
  · exact .inl ⟨hm, fun hT => hS (hST m hT)⟩
  · exact .inr hm

theorem Marked.sig (h : Marked s s' S) (hs : ∀ m, (s m).sig = g m) (m : ν) : (s' m).sig = g m := by
  rcases h m with ⟨hm, -⟩ | hm
  · rw [hm, hs m]
  · rw [hm]
    exact hs m

theorem Marked.inputs (h : Marked s s' S) (m : ν) : (s' m).inputs = (s m).inputs := by
  rcases h m with ⟨hm, -⟩ | hm <;> rw [hm]

theorem Marked.hasErrors (h : Marked s s' S) (m : ν) : (s' m).hasErrors = (s m).hasErrors := by
  rcases h m with ⟨hm, -⟩ | hm
  · rw [hm]
  · rw [hm]
    rfl

end

/-- A node is written and what is behind it is marked. What is not marked has nothing to do with
the node. -/
theorem Consistent.marked (hg : TypeCorrect g) (h : Consistent g s)
    (hsig : ∀ m, (s' m).sig = g m) (herrors : ∀ m, (s' m).hasErrors = false)
    (hsame : ∀ m, m ≠ n → s' m = s m)
    (hmarked : Marked s' s'' (Relation.ReflTransGen (IsLinked g) n)) : Consistent g s'' := by
  have hkept (m : ν) (hm : ¬Relation.ReflTransGen (IsLinked g) n m) : s' m = s m := by
    apply hsame
    rintro rfl
    exact hm .refl
  refine ⟨hmarked.sig hsig, fun m => (hmarked.hasErrors m).trans (herrors m), fun m hdirty => ?_⟩
  rcases hmarked m with ⟨hm, hnot⟩ | hm
  · rw [hm, hkept m hnot] at hdirty ⊢
    obtain ⟨hkind, hvalue⟩ := h.clean m hdirty
    refine ⟨hkind, fun out hout => (hvalue out hout).transfer
      (P := fun k => ¬Relation.ReflTransGen (IsLinked g) n k) (fun k hk => ?_) ?_ hnot⟩
    · refine ⟨(hmarked.sig hsig k).trans (h.sig k).symm, ?_⟩
      rw [hmarked.inputs k, hkept k hk]
    · intro k i pin link hk hpin hlink hreach
      obtain ⟨out, hout, -, hmem⟩ := hg.linked k i pin.sig link.1 link.2
        (getElem?_inputs (h.sig k) hpin) hlink
      exact hk (hreach.tail ⟨out, List.mem_of_getElem? hout, i, hmem⟩)
  · rw [hm] at hdirty
    cases hdirty

/-- The nodes of the links and all that is behind them. -/
def BehindLinks (g : ν → NodeSig ν) (connections : List (NodeConnect (Option ν))) (k : ν) : Prop :=
  ∃ connection ∈ connections, ∃ m, connection.pNode = some m ∧
    Relation.ReflTransGen (IsLinked g) m k

theorem foldlM_mark {mark : ComputeNodes ν → ν → Option (ComputeNodes ν)}
    {connections : List (NodeConnect (Option ν))}
    (hmark : ∀ connection ∈ connections, ∀ m, connection.pNode = some m → ∀ s : ComputeNodes ν,
      (∀ m, (s m).sig = g m) →
        ∃ s', mark s m = some s' ∧ Marked s s' (Relation.ReflTransGen (IsLinked g) m))
    (hs : ∀ m, (s m).sig = g m) :
    ∃ s', connections.foldlM (fun s connection => connection.pNode.elim (some s) (mark s)) s =
      some s' ∧ Marked s s' (BehindLinks g connections) := by
  induction connections generalizing s with
  | nil =>
      refine ⟨s, rfl, fun m => .inl ⟨rfl, ?_⟩⟩
      rintro ⟨connection, hmem, -⟩
      cases hmem
  | cons connection connections ih =>
      rw [List.forall_mem_cons] at hmark
      have hstep : ∃ s', connection.pNode.elim (some s) (mark s) = some s' ∧
          Marked s s' (BehindLinks g [connection]) := by
        cases hnode : connection.pNode with
        | none =>
            refine ⟨s, rfl, fun m => .inl ⟨rfl, ?_⟩⟩
            rintro ⟨c, hc, m', heq, -⟩
            rw [List.mem_singleton.mp hc, hnode] at heq
            cases heq
        | some m =>
            obtain ⟨s', hs', hmarked⟩ := hmark.1 m hnode s hs
            refine ⟨s', hs', hmarked.mono ?_⟩
            rintro k ⟨c, hc, m', heq, hk⟩
            rw [List.mem_singleton.mp hc, hnode] at heq
            rwa [Option.some.inj heq]
      obtain ⟨s₁, hs₁, hmarked₁⟩ := hstep
      obtain ⟨s₂, hs₂, hmarked₂⟩ := ih hmark.2 (hmarked₁.sig hs)
      refine ⟨s₂, ?_, (hmarked₁.trans hmarked₂).mono ?_⟩
      · rw [List.foldlM_cons, hs₁, Option.bind_eq_bind, Option.bind_some, hs₂]
      · rintro k ⟨c, hc, hk⟩
        rcases List.mem_cons.mp hc with rfl | hc
        · exact .inl ⟨c, List.mem_singleton_self c, hk⟩
        · exact .inr ⟨c, hc, hk⟩

variable [DecidableEq ν]

/-! ## Execution -/

section

variable {calcInput : ComputeNodes ν → ν → ℕ → Option (ComputeNodes ν × Option DataType)}

theorem executeConstructor_spec (hg : TypeCorrect g)
    (hacyclic : ∀ n, ¬Relation.TransGen (IsLinked g) n n) (hcalc : Computes g calcInput n)
    (hs : Consistent g s) (hkind : (s n).kind = .constructor) :
    ∃ s', executeConstructor calcInput s n = some s' ∧ Executed g s s' n := by
  obtain ⟨a, b, hinputs, houtputs, hshape⟩ := hg.constructor n (kind_of_sig (hs.sig n) hkind)
  obtain ⟨pin, hpin, rfl⟩ := exists_input (j := 0) (hs.sig n) (by rw [hinputs]; rfl)
  obtain ⟨s₁, v, hcalc', hchanged, hvalue⟩ := hcalc s 0 pin hs hpin
  have hsame : s₁ n = s n := hchanged.frame n (hacyclic n)
  obtain ⟨out, hout, rfl⟩ := exists_output (j := 0) (hs.sig n) (by rw [houtputs]; rfl)
  have hvshape : v.shape = pin.pData.shape := hvalue.shape_eq hg hs.sig hpin
  have houtshape : v.shape = out.pData.shape := hvshape.trans hshape.symm
  have hunique := unique_of_input hg (hs.sig n) hpin hvshape
  have hcopy : v.copyTo out.pData = some v := DataType.copyTo_of_shape houtshape hunique
  have hout₁ : (s₁ n).outputs[0]? = some out := by rwa [hsame]
  rw [executeConstructor, hcalc']
  simp only [Option.bind_eq_bind, Option.bind_some, hout₁, hcopy]
  refine ⟨_, rfl, (hchanged.mono fun m hm => hm.to_reflTransGen).executed hs ?_ rfl ?_ ?_ ?_⟩
  · exact sig_setOutputData (s₁ n) hout₁ houtshape
  · exact hasErrors_addSuccess _ (hchanged.consistent.noErrors n)
  · exact fun _ => (hchanged.agrees hs n).kind.trans hkind
  · intro j out' hout'
    rcases getElem?_setOutputData hout' with ⟨rfl, hdata⟩ | ⟨hj, hother⟩
    · rw [hdata]
      exact .constructor hkind hvalue
    · exact absurd (eq_zero_of_single (hchanged.consistent.sig n) houtputs hother).symm hj

theorem executeBreakStruct_spec (hg : TypeCorrect g)
    (hacyclic : ∀ n, ¬Relation.TransGen (IsLinked g) n n) (hcalc : Computes g calcInput n)
    (hs : Consistent g s) (hkind : (s n).kind = .breakStruct) :
    ∃ s', executeBreakStruct calcInput s n = some s' ∧ Executed g s s' n := by
  obtain ⟨a, name, hinputs, hstruct⟩ := hg.breakStruct n (kind_of_sig (hs.sig n) hkind)
  obtain ⟨pin, hpin, rfl⟩ := exists_input (j := 0) (hs.sig n) (by rw [hinputs]; rfl)
  obtain ⟨s₁, v, hcalc', hchanged, hvalue⟩ := hcalc s 0 pin hs hpin
  have hsame : s₁ n = s n := hchanged.frame n (hacyclic n)
  have hvshape : v.shape = pin.pData.shape := hvalue.shape_eq hg hs.sig hpin
  cases v with
  | leaf type value => cases hvshape.trans hstruct
  | struct name' vars =>
      have hvariables : ∀ out ∈ (s₁ n).outputs, ∃ w, vars.lookup out.hashName = some w ∧
          w.shape = out.pData.shape ∧ w.shape.Unique := by
        intro out hout
        rw [hsame] at hout
        obtain ⟨j, hj⟩ := List.getElem?_of_mem hout
        obtain ⟨_, _, w, hvar, hw⟩ := exists_variable hg (hs.sig n) hkind hpin hj hvshape
        obtain ⟨-, rfl⟩ := DataType.struct.inj hvar
        exact ⟨w, hw⟩
      obtain ⟨outputs', hmap, hsigs, hvalues⟩ := exists_takeVariables hvariables
      rw [executeBreakStruct, hcalc']
      simp only [Option.bind_eq_bind, Option.bind_some, hmap]
      refine ⟨_, rfl, (hchanged.mono fun m hm => hm.to_reflTransGen).executed hs ?_ rfl ?_ ?_ ?_⟩
      · exact congrArg (NodeSig.mk (s₁ n).kind ((s₁ n).inputs.map DataPin.sig)) hsigs
      · exact hasErrors_addSuccess _ (hchanged.consistent.noErrors n)
      · exact fun hdirty => (hchanged.consistent.clean n hdirty).1
      · intro j out' hout'
        change outputs'[j]? = some out' at hout'
        have hlookup := hvalues out' (List.mem_of_getElem? hout')
        have hget : (outputs'.map DataPin.sig)[j]? = some out'.sig := by
          rw [List.getElem?_map, hout', Option.map_some]
        rw [hsigs, hsame, List.getElem?_map] at hget
        obtain ⟨out, hout, hsig⟩ := Option.map_eq_some_iff.mp hget
        rw [← DataPin.hashName_of_sig hsig] at hlookup
        exact .breakStruct hkind hout hvalue hlookup

theorem createInput_spec (hg : TypeCorrect g) (hacyclic : ∀ n, ¬Relation.TransGen (IsLinked g) n n)
    (hcalc : Computes g calcInput n) (hs : Consistent g s) (hkind : (s n).kind = .createStruct)
    {k : ℕ} (hk : k < (s n).inputs.length) (h : Filled g s s' n k) :
    ∃ s'', createInput calcInput n s' k = some s'' ∧ Filled g s s'' n (k + 1) := by
  have hpin : (s' n).inputs[k]? = some (s n).inputs[k] := by
    rw [h.inputs n]
    exact List.getElem?_eq_getElem hk
  generalize (s n).inputs[k] = pin at hpin
  obtain ⟨s₁, v, hcalc', hchanged, hvalue⟩ := hcalc s' k pin h.consistent hpin
  have hsame : s₁ n = s' n := hchanged.frame n (hacyclic n)
  have hvshape : v.shape = pin.pData.shape := hvalue.shape_eq hg h.consistent.sig hpin
  have hunique := unique_of_input hg (h.consistent.sig n) hpin hvshape
  have hkind' : (s' n).kind = .createStruct := (h.agrees hs n).kind.trans hkind
  obtain ⟨out, name, vars, hout, hdata, hnodup, hvars⟩ :=
    exists_struct hg (h.consistent.sig n) hkind'
  obtain ⟨hlt, hassign, hshapes⟩ := assignInput_eq hnodup hvars hpin hvshape hunique
  have hout₁ : (s₁ n).outputs[0]? = some out := by rwa [hsame]
  have hpin₁ : (s₁ n).inputs[k]? = some pin := by rwa [hsame]
  have hnew : (DataType.struct name (vars.set k (pin.hashName, v))).shape = out.pData.shape := by
    rw [hdata]
    exact congrArg (DataShape.struct name) hshapes
  rw [createInput, hcalc']
  simp only [Option.bind_eq_bind, Option.bind_some, hout₁, hpin₁, hdata, hassign]
  refine ⟨_, rfl, ?_, ?_⟩
  · apply (h.trans (hchanged.mono fun m hm => hm.to_reflTransGen)).modify .refl
      (sig_setOutputData (s₁ n) hout₁ hnew) rfl (hchanged.consistent.noErrors n)
    intro hdirty
    have hclean := (hchanged.consistent.clean n hdirty).1
    rw [hsame, hkind'] at hclean
    cases hclean
  · intro out' name' vars' hout' hdata' j hj var hvar
    rw [modify_self] at hout'
    rcases getElem?_setOutputData hout' with ⟨-, hdata''⟩ | ⟨hne, -⟩
    · obtain ⟨-, rfl⟩ := DataType.struct.inj (hdata'.symm.trans hdata'')
      by_cases hjk : j = k
      · subst hjk
        rw [List.getElem?_set_self hlt] at hvar
        cases hvar
        exact h.value hs hvalue
      · rw [List.getElem?_set_ne (Ne.symm hjk)] at hvar
        exact h.values out name vars hout hdata j (by omega) var hvar
    · exact absurd rfl hne

theorem foldlM_createInput (hg : TypeCorrect g)
    (hacyclic : ∀ n, ¬Relation.TransGen (IsLinked g) n n) (hcalc : Computes g calcInput n)
    (hs : Consistent g s) (hkind : (s n).kind = .createStruct) {k : ℕ}
    (hk : k ≤ (s n).inputs.length) :
    ∃ s', (List.range k).foldlM (createInput calcInput n) s = some s' ∧ Filled g s s' n k := by
  induction k with
  | zero => exact ⟨s, rfl, .refl hs, fun _ _ _ _ _ j hj => absurd hj (Nat.not_lt_zero j)⟩
  | succ k ih =>
      obtain ⟨s₁, hs₁, hfilled⟩ := ih (Nat.le_of_succ_le hk)
      obtain ⟨s₂, hs₂, hfilled'⟩ := createInput_spec hg hacyclic hcalc hs hkind hk hfilled
      refine ⟨s₂, ?_, hfilled'⟩
      rw [List.range_succ, List.foldlM_append, hs₁, Option.bind_eq_bind, Option.bind_some,
        List.foldlM_cons, hs₂]
      rfl

theorem executeCreateStruct_spec (hg : TypeCorrect g)
    (hacyclic : ∀ n, ¬Relation.TransGen (IsLinked g) n n) (hcalc : Computes g calcInput n)
    (hs : Consistent g s) (hkind : (s n).kind = .createStruct) :
    ∃ s', executeCreateStruct calcInput s n = some s' ∧ Executed g s s' n := by
  obtain ⟨out, name, vars, hout, hdata, -, -⟩ := exists_struct hg (hs.sig n) hkind
  obtain ⟨s₁, hs₁, hfilled⟩ := foldlM_createInput hg hacyclic hcalc hs hkind le_rfl
  rw [executeCreateStruct, hout]
  simp only [Option.bind_eq_bind, Option.bind_some, hdata, hs₁]
  refine ⟨_, rfl, hfilled.executed hs rfl rfl ?_ ?_ ?_⟩
  · exact hasErrors_addSuccess (s₁ n) (hfilled.consistent.noErrors n)
  · exact fun hdirty => (hfilled.consistent.clean n hdirty).1
  · exact fun j out' hout' => hfilled.value_output hg hs hkind hout'

theorem execute_spec (hg : TypeCorrect g) (hacyclic : ∀ n, ¬Relation.TransGen (IsLinked g) n n)
    (hcalc : Computes g calcInput n) (hs : Consistent g s) :
    ∃ s', execute calcInput s n = some s' ∧ Executed g s s' n := by
  rw [execute]
  cases hkind : (s n).kind with
  | constructor => exact executeConstructor_spec hg hacyclic hcalc hs hkind
  | createStruct => exact executeCreateStruct_spec hg hacyclic hcalc hs hkind
  | breakStruct => exact executeBreakStruct_spec hg hacyclic hcalc hs hkind

/-- The node that an input is linked to has its value once it has been executed if need be. -/
theorem executed_of_dirty (hg : TypeCorrect g) (hacyclic : ∀ n, ¬Relation.TransGen (IsLinked g) n n)
    (hcalc : Computes g calcInput n) (hs : Consistent g s) :
    ∃ s', (if (s n).dirty then execute calcInput s n else some s) = some s' ∧
      Executed g s s' n := by
  by_cases hdirty : (s n).dirty
  · rw [if_pos hdirty]
    exact execute_spec hg hacyclic hcalc hs
  · rw [if_neg hdirty]
    obtain ⟨hkind, hvalue⟩ := hs.clean n (Bool.not_eq_true _ ▸ hdirty)
    obtain ⟨-, b, -, houtputs, -⟩ := hg.constructor n (kind_of_sig (hs.sig n) hkind)
    refine ⟨s, rfl, .refl hs, fun j out hout => ?_⟩
    obtain rfl := eq_zero_of_single (hs.sig n) houtputs hout
    exact hvalue out hout

end

/-! ## Inputs -/

theorem calcInput_linked {fuel : ℕ} {pin out : DataPin ν} {link : ν × ℕ}
    (hpin : (s n).inputs[i]? = some pin) (hlink : firstLink pin.connections = some link)
    (hnode : (if (s link.1).dirty then execute (calcInput fuel) s link.1 else some s) = some s')
    (herrors : (s' link.1).hasErrors = false) (hout : (s' link.1).outputs[link.2]? = some out) :
    calcInput (fuel + 1) s n i = some (s', some out.pData) := by
  rw [calcInput, hpin]
  simp only [Option.bind_eq_bind, Option.bind_some, hlink]
  by_cases hdirty : (s link.1).dirty
  · rw [if_pos hdirty] at hnode ⊢
    rw [hnode, Option.bind_some, herrors, hout]
    rfl
  · rw [if_neg hdirty] at hnode ⊢
    obtain rfl := Option.some.inj hnode
    rw [herrors, hout]
    rfl

/-- A call returns the value of the input, with fuel for the nodes that are linked to it. -/
theorem computes_calcInput (hg : TypeCorrect g) {rank : ν → ℕ}
    (hrank : ∀ p n, IsLinked g p n → rank p < rank n) {fuel : ℕ} (hfuel : rank n < fuel) :
    Computes g (calcInput fuel) n := by
  have hacyclic := not_transGen_self hrank
  induction fuel generalizing n with
  | zero => exact absurd hfuel (Nat.not_lt_zero _)
  | succ fuel ih =>
      intro s i pin hs hpin
      cases hlink : firstLink pin.connections with
      | none =>
          refine ⟨s, pin.pData, ?_, .refl hs, .literal hpin hlink⟩
          rw [calcInput, hpin]
          simp only [Option.bind_eq_bind, Option.bind_some, hlink]
      | some link =>
          obtain ⟨out, hout, -, hmem⟩ := hg.linked n i pin.sig link.1 link.2
            (getElem?_inputs (hs.sig n) hpin) hlink
          have hlinked : IsLinked g link.1 n := ⟨out, List.mem_of_getElem? hout, i, hmem⟩
          have hcalc := ih (Nat.lt_of_lt_of_le (hrank _ _ hlinked) (Nat.le_of_lt_succ hfuel))
          obtain ⟨s', hs', hexec⟩ := executed_of_dirty hg hacyclic hcalc hs
          obtain ⟨out', hout', -⟩ := exists_output (hexec.consistent.sig link.1) hout
          refine ⟨s', out'.pData, ?_, ?_, .linked hpin hlink (hexec.values _ out' hout')⟩
          · exact calcInput_linked hpin hlink hs' (hexec.consistent.noErrors link.1) hout'
          · exact hexec.toChanged.mono fun m hm => .tail' hm hlinked

/-- A mark goes to all nodes behind the node. -/
theorem markDirty_spec {rank : ν → ℕ} (hrank : ∀ p n, IsLinked g p n → rank n < rank p)
    {fuel : ℕ} (hfuel : rank n < fuel) (hs : ∀ m, (s m).sig = g m) :
    ∃ s', markDirty fuel s n = some s' ∧ Marked s s' (Relation.ReflTransGen (IsLinked g) n) := by
  induction fuel generalizing n s with
  | zero => exact absurd hfuel (Nat.not_lt_zero _)
  | succ fuel ih =>
      have hfirst : Marked s (s.modify n fun node => { node with dirty := true }) (· = n) := by
        apply forall_modify (P := fun m node => (node = s m ∧ ¬m = n) ∨
          node = { s m with dirty := true })
        · exact .inr rfl
        · exact fun m hm => .inl ⟨rfl, hm⟩
      have hmark : ∀ connection ∈ (s n).outputs.flatMap DataPin.connections, ∀ m,
          connection.pNode = some m → ∀ s : ComputeNodes ν, (∀ m, (s m).sig = g m) →
            ∃ s', markDirty fuel s m = some s' ∧
              Marked s s' (Relation.ReflTransGen (IsLinked g) m) := by
        intro connection hmem m hnode s₁ hs₁
        have hlt := hrank n m ((isLinked_iff (hs n)).mpr ⟨connection, hmem, hnode⟩)
        exact ih (by omega) hs₁
      obtain ⟨s', hs', hrest⟩ := foldlM_mark hmark (hfirst.sig hs)
      refine ⟨s', hs', (hfirst.trans hrest).mono fun m hm => ?_⟩
      rcases hm.cases_head with rfl | ⟨k, hk, hkm⟩
      · exact .inl rfl
      · obtain ⟨connection, hmem, hnode⟩ := (isLinked_iff (hs n)).mp hk
        exact .inr ⟨connection, hmem, k, hnode, hkm⟩

/-! ## Runs -/

/-- A value of the type of the pin is set, inputs that there are are asked for. -/
def Call.Valid (g : ν → NodeSig ν) : Call ν → Prop
  | .setInput n pInput index => ∃ pin, (g n).inputs[index]? = some pin ∧ pInput.shape = pin.shape
  | .calcInput n index => index < (g n).inputs.length

/-- The nodes with the values that are set put in, and nothing computed. -/
def setLiteral (s : ComputeNodes ν) : Call ν → ComputeNodes ν
  | .setInput n pInput index => s.modify n fun node => node.setInputData index pInput
  | .calcInput _ _ => s

theorem inputs_setLiteral (h : ∀ m, (s m).inputs = (s' m).inputs) (call : Call ν) (m : ν) :
    (setLiteral s call m).inputs = (setLiteral s' call m).inputs := by
  cases call with
  | setInput n pInput index =>
      by_cases hm : m = n
      · subst hm
        rw [setLiteral, setLiteral, modify_self, modify_self]
        exact congrArg (fun inputs : List (DataPin ν) =>
          inputs.modify index fun pin => { pin with pData := pInput }) (h m)
      · rw [setLiteral, setLiteral, modify_of_ne s hm, modify_of_ne s' hm]
        exact h m
  | calcInput n index => exact h m

theorem sig_setLiteral (hg : TypeCorrect g) (hsig : ∀ m, (s m).sig = g m) {call : Call ν}
    (hcall : call.Valid g) (m : ν) : (setLiteral s call m).sig = g m := by
  cases call with
  | setInput n pInput index =>
      obtain ⟨pin, hpin, hshape⟩ := hcall
      obtain ⟨-, hsame⟩ := setInput_spec hg (hsig n) hpin hshape
      apply forall_modify (P := fun m node => node.sig = g m)
      · exact hsame.trans (hsig n)
      · exact fun m _ => hsig m
  | calcInput n index => exact hsig m

/-- A value that is set makes no node wrong, since all that can be are marked. -/
theorem step_setInput (hg : TypeCorrect g) {rank : ν → ℕ}
    (hrank : ∀ p n, IsLinked g p n → rank n < rank p) {fuel : ℕ} (hfuel : rank n < fuel)
    (hs : Consistent g s) {pin : PinSig ν} (hpin : (g n).inputs[i]? = some pin)
    (hshape : v.shape = pin.shape) :
    ∃ s', step fuel s (.setInput n v i) = some (s', none) ∧ Consistent g s' ∧
      ∀ m, (s' m).inputs = (setLiteral s (.setInput n v i) m).inputs := by
  obtain ⟨hset, -⟩ := setInput_spec hg (hs.sig n) hpin hshape
  have hvalid : Call.Valid g (.setInput n v i) := ⟨pin, hpin, hshape⟩
  have hsigs := sig_setLiteral hg hs.sig hvalid
  have herrors (m : ν) : (setLiteral s (.setInput n v i) m).hasErrors = false :=
    forall_modify (P := fun _ node => node.hasErrors = false) (hs.noErrors n)
      (fun m _ => hs.noErrors m) m
  obtain ⟨s', hs', hmarked⟩ := markDirty_spec hrank hfuel hsigs
  refine ⟨s', ?_, ?_, hmarked.inputs⟩
  · have hmodify : Function.update s n ((s n).setInputData i v) =
        setLiteral s (.setInput n v i) := rfl
    rw [step, hset]
    simp only [Option.bind_eq_bind, Option.bind_some]
    rw [hmodify, hs']
    rfl
  · apply hs.marked hg hsigs herrors _ hmarked
    intro m hm
    rw [setLiteral, modify_of_ne s hm]

section

variable {up down : ν → ℕ} {fuel : ℕ}

theorem step_spec (hg : TypeCorrect g) (hup : ∀ p n, IsLinked g p n → up p < up n)
    (hdown : ∀ p n, IsLinked g p n → down n < down p) (hfuel : ∀ n, up n < fuel ∧ down n < fuel)
    (hs : Consistent g s) {call : Call ν} (hcall : call.Valid g) :
    ∃ r, step fuel s call = some r ∧ Consistent g r.1 ∧
      ∀ m, (r.1 m).inputs = (setLiteral s call m).inputs := by
  cases call with
  | setInput n pInput index =>
      obtain ⟨pin, hpin, hshape⟩ := hcall
      obtain ⟨s', hs', hspec⟩ := step_setInput hg hdown (hfuel n).2 hs hpin hshape
      exact ⟨_, hs', hspec⟩
  | calcInput n index =>
      obtain ⟨pin, hpin, -⟩ := exists_input (hs.sig n) (List.getElem?_eq_getElem hcall)
      obtain ⟨s', v, hs', hchanged, -⟩ :=
        computes_calcInput hg hup (hfuel n).1 s index pin hs hpin
      exact ⟨_, hs', hchanged.consistent, hchanged.inputs⟩

theorem run_spec (hg : TypeCorrect g) (hup : ∀ p n, IsLinked g p n → up p < up n)
    (hdown : ∀ p n, IsLinked g p n → down n < down p) (hfuel : ∀ n, up n < fuel ∧ down n < fuel)
    {calls : List (Call ν)} (hcalls : ∀ call ∈ calls, call.Valid g) (hs : Consistent g s)
    (ht : ∀ m, (s' m).sig = g m) (hinputs : ∀ m, (s m).inputs = (s' m).inputs) :
    ∃ r, Steps.run (step fuel) s calls = some r ∧ Consistent g r.1 ∧
      (∀ m, (calls.foldl setLiteral s' m).sig = g m) ∧
      ∀ m, (r.1 m).inputs = (calls.foldl setLiteral s' m).inputs := by
  induction calls generalizing s s' with
  | nil => exact ⟨(s, []), rfl, hs, ht, hinputs⟩
  | cons call calls ih =>
      rw [List.forall_mem_cons] at hcalls
      obtain ⟨r, hr, hconsistent, hset⟩ := step_spec hg hup hdown hfuel hs hcalls.1
      have hinputs' (m : ν) : (r.1 m).inputs = (setLiteral s' call m).inputs :=
        (hset m).trans (inputs_setLiteral hinputs call m)
      obtain ⟨r', hr', hspec⟩ := ih hcalls.2 hconsistent (sig_setLiteral hg ht hcalls.1) hinputs'
      exact ⟨_, (Steps.run_cons hr calls).trans (congrArg _ hr'), hspec⟩

end

/-- With all that has been kept, an input has the value that the literals give it. -/
theorem calcInput_eq_full [Finite ν] (hg : TypeCorrect g)
    (hacyclic : ∀ n, ¬Relation.TransGen (IsLinked g) n n) (hs : Fresh g s)
    (calls : List (Call ν)) (hcalls : ∀ call ∈ calls, call.Valid g) {fuel : ℕ}
    (hfuel : Nat.card ν < fuel) :
    ∃ r, Steps.run (step fuel) s calls = some r ∧ (∀ n, (r.1 n).hasErrors = false) ∧
      ∀ n i, i < (g n).inputs.length →
        ∃ s' v, calcInput fuel r.1 n i = some (s', some v) ∧ (∀ m, (s' m).hasErrors = false) ∧
          ∀ w, PinValue (calls.foldl setLiteral s) .input n i w ↔ w = v := by
  obtain ⟨up, hupLe, hup⟩ := exists_rank hacyclic
  obtain ⟨down, hdownLe, hdown⟩ := exists_rank (r := fun n p => IsLinked g p n) fun n hn =>
    hacyclic n (Relation.transGen_swap.mp hn)
  have hranks (n : ν) : up n < fuel ∧ down n < fuel :=
    ⟨(hupLe n).trans_lt hfuel, (hdownLe n).trans_lt hfuel⟩
  obtain ⟨r, hr, hconsistent, hsig, hinputs⟩ := run_spec hg hup (fun p n h => hdown n p h) hranks
    hcalls hs.consistent hs.sig fun _ => rfl
  refine ⟨r, hr, hconsistent.noErrors, fun n i hi => ?_⟩
  obtain ⟨pin, hpin, -⟩ := exists_input (hconsistent.sig n) (List.getElem?_eq_getElem hi)
  obtain ⟨s', v, hs', hchanged, hvalue⟩ :=
    computes_calcInput hg hup (hranks n).1 r.1 i pin hconsistent hpin
  have hfull : PinValue (calls.foldl setLiteral s) .input n i v := hvalue.of_agrees fun m =>
    ⟨(hsig m).trans (hconsistent.sig m).symm, (hinputs m).symm⟩
  refine ⟨s', v, hs', hchanged.consistent.noErrors, fun w => ⟨fun hw => hw.unique hfull, ?_⟩⟩
  rintro rfl
  exact hfull

/-- A constructor node that is linked to another one. -/
def pairNodes : ComputeNodes Bool
  | false =>
      { kind := .constructor
        inputs := [{ pData := .leaf (.value .int32) (5 : Int32), hashName := 0 }]
        outputs := [{ connections := [⟨some true, 0⟩], pData := .leaf (.value .int32) (0 : Int32),
                      hashName := 0 }] }
  | true =>
      { kind := .constructor
        inputs := [{ connections := [⟨some false, 0⟩], pData := .leaf (.value .int32) (0 : Int32),
                     hashName := 0 }]
        outputs := [{ pData := .leaf (.value .int32) (0 : Int32), hashName := 0 }] }

theorem typeCorrect_pairNodes : TypeCorrect fun n => (pairNodes n).sig where
  linked n i pin p j hpin hlink := by
    cases n with
    | false =>
        cases i with
        | zero =>
            cases hpin
            cases hlink
        | succ i => cases hpin
    | true =>
        cases i with
        | zero =>
            cases hpin
            cases hlink
            exact ⟨_, rfl, rfl, List.mem_singleton_self _⟩
        | succ i => cases hpin
  unique n pin hpin := by
    cases n <;> rw [List.mem_singleton.mp hpin] <;> trivial
  constructor n _ := by
    cases n <;> exact ⟨_, _, rfl, rfl, rfl⟩
  createStruct n hkind := by
    cases n <;> cases hkind
  breakStruct n hkind := by
    cases n <;> cases hkind

theorem isLinked_pairNodes (p n : Bool) (h : IsLinked (fun n => (pairNodes n).sig) p n) :
    p.toNat < n.toNat := by
  obtain ⟨out, hout, i, hmem⟩ := h
  cases p with
  | false =>
      rw [List.mem_singleton.mp hout] at hmem
      cases List.mem_singleton.mp hmem
      decide
  | true =>
      rw [List.mem_singleton.mp hout] at hmem
      cases hmem

/-- The literal is changed once its value has been kept. -/
def pairCalls : List (Call Bool) :=
  [.calcInput true 0, .setInput false (.leaf (.value .int32) (7 : Int32)) 0]

theorem valid_pairCalls : ∀ call ∈ pairCalls, call.Valid fun n => (pairNodes n).sig := by
  intro call hcall
  rcases List.mem_cons.mp hcall with rfl | hcall
  · exact Nat.zero_lt_one
  · cases List.mem_singleton.mp hcall
    exact ⟨_, rfl, rfl⟩

theorem calcInput_eq_full_pair :
    ∃ r, Steps.run (step 3) pairNodes pairCalls = some r ∧ (∀ n, (r.1 n).hasErrors = false) ∧
      ∀ n i, i < (pairNodes n).sig.inputs.length →
        ∃ s' v, calcInput 3 r.1 n i = some (s', some v) ∧ (∀ m, (s' m).hasErrors = false) ∧
          ∀ w, PinValue (pairCalls.foldl setLiteral pairNodes) .input n i w ↔ w = v :=
  calcInput_eq_full typeCorrect_pairNodes (not_transGen_self isLinked_pairNodes)
    ⟨fun _ => rfl, fun n => by cases n <;> rfl, fun n => by cases n <;> rfl⟩ pairCalls
    valid_pairCalls (by rw [Nat.card_eq_fintype_card]; decide)

end ComputeNodes

end SRCommon
