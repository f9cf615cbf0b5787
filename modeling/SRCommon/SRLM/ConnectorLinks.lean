import SRCommon.SRLM.LinkSymmetry
import SRCommon.SRLM.LogicalNode

/-!
# The links around a connector

Each incoming link of a connector is joined with each outgoing one, and the
links to the connector are erased on the way. What comes out is counted for
each pair of pins.
-/

namespace SRCommon

/-!
## Connectors of a logical machine

`Optimize` takes the connectors out of a machine one after the other, in the
order of `m_nodes`. A node that is deleted is no longer in `m_nodes`, and there
is no result when it is used.
-/

structure LogicalMachine (ν δ : Type) where
  graph : LogicalGraph ν δ
  nodes : List ν

variable {ν δ : Type} [DecidableEq ν]

namespace LogicalMachine

variable (m : LogicalMachine ν δ)

/-- A use of a node that is not deleted. -/
def modifyNode (n : ν) (f : LogicalNode ν δ → Option (LogicalNode ν δ)) :
    Option (LogicalMachine ν δ) :=
  if n ∈ m.nodes then
    (f (m.graph n)).map fun node => { m with graph := Function.update m.graph n node }
  else none

/-- The links of all pins at one side. -/
def connections (side : PinSide) (n : ν) : List (NodeConnect ν) :=
  ((m.graph n).pins side).flatMap NodePin.connections

/-- What the innermost loop does for an incoming and an outgoing link of a connector. -/
def joinLinks (pNode : ν) (inputConnection : NodeConnect ν) (m : LogicalMachine ν δ)
    (outputConnection : NodeConnect ν) : Option (LogicalMachine ν δ) := do
  let m ← m.modifyNode outputConnection.pNode fun node =>
    node.removeInputConnection pNode outputConnection.pinIndex
  let m ← m.modifyNode outputConnection.pNode fun node =>
    some (node.addInputConnection inputConnection.pNode inputConnection.pinIndex
      outputConnection.pinIndex)
  m.modifyNode inputConnection.pNode fun node =>
    some (node.addOutputConnection outputConnection.pNode outputConnection.pinIndex
      inputConnection.pinIndex)

def bypassInput (pNode : ν) (outputs : List (NodeConnect ν)) (m : LogicalMachine ν δ)
    (inputConnection : NodeConnect ν) : Option (LogicalMachine ν δ) := do
  let m ← m.modifyNode inputConnection.pNode fun node =>
    node.removeOutputConnection pNode inputConnection.pinIndex
  outputs.foldlM (joinLinks pNode inputConnection) m

/-- The neighbours of a connector are joined, and it is deleted. The loops go over links of the
connector, which they leave alone unless it is linked to itself. -/
def bypass (pNode : ν) : Option (LogicalMachine ν δ) :=
  ((m.connections .input pNode).foldlM (bypassInput pNode (m.connections .output pNode)) m).map
    fun m => { m with nodes := m.nodes.erase pNode }

def optimizeNode (m : LogicalMachine ν δ) (pNode : ν) : Option (LogicalMachine ν δ) :=
  if (m.graph pNode).type = .connector then m.bypass pNode else some m

def optimize : Option (LogicalMachine ν δ) := m.nodes.foldlM optimizeNode m

end LogicalMachine

variable {ν δ : Type}

namespace LogicalGraph

variable {g : LogicalGraph ν δ} {side : PinSide} {x y : NodeConnect ν} {n : ν}

/-- The links at the pin of a node. -/
def pinLinks (g : LogicalGraph ν δ) (side : PinSide) (x : NodeConnect ν) : List (NodeConnect ν) :=
  (g x.pNode).links side x.pinIndex

theorem lt_length_of_mem_pinLinks (h : y ∈ g.pinLinks side x) :
    x.pinIndex < ((g x.pNode).pins side).length :=
  (g x.pNode).lt_length_of_mem_links h

variable {pNode : ν} {a b : NodeConnect ν}

/-- Pins that are there, of nodes other than the connector. -/
def Beside (g : LogicalGraph ν δ) (side : PinSide) (pNode : ν) (c : NodeConnect ν) : Prop :=
  c.pNode ≠ pNode ∧ c.pinIndex < ((g c.pNode).pins side).length

theorem Beside.of_length {g' : LogicalGraph ν δ}
    (hlength : ((g' a.pNode).pins side).length = ((g a.pNode).pins side).length)
    (h : g.Beside side pNode a) : g'.Beside side pNode a := ⟨h.1, by rw [hlength]; exact h.2⟩

theorem countP_eraseP (P : NodeConnect ν → Bool) (cs : List (NodeConnect ν)) :
    (cs.eraseP P).countP P = cs.countP P - 1 := by
  induction cs with
  | nil => rfl
  | cons c cs ih =>
      by_cases hc : P c = true
      · rw [List.eraseP_cons_of_pos hc, List.countP_cons_of_pos hc, Nat.add_sub_cancel]
      · rw [List.eraseP_cons_of_neg hc, List.countP_cons_of_neg hc, List.countP_cons_of_neg hc, ih]

theorem type_withPins (this : LogicalNode ν δ) (side : PinSide) (pins : List (NodePin ν δ)) :
    (this.withPins side pins).type = this.type := by
  cases side <;> rfl

variable [DecidableEq ν]

theorem count_eraseP {P : NodeConnect ν → Bool} (hy : ¬ P y = true) (cs : List (NodeConnect ν)) :
    (cs.eraseP P).count y = cs.count y := by
  induction cs with
  | nil => rfl
  | cons c cs ih =>
      by_cases hc : P c = true
      · have hne : c ≠ y := by
          rintro rfl
          exact hy hc
        rw [List.eraseP_cons_of_pos hc, List.count_cons_of_ne hne]
      · rw [List.eraseP_cons_of_neg hc, List.count_cons, List.count_cons, ih]

/-- How many links of a pin lead to a node. -/
def linksTo (g : LogicalGraph ν δ) (side : PinSide) (x : NodeConnect ν) (n : ν) : ℕ :=
  (g.pinLinks side x).countP fun c => c.pNode = n

theorem pinLinks_addEnd (a c : NodeConnect ν) (side' : PinSide)
    (ha : a.pinIndex < ((g a.pNode).pins side).length) :
    (g.addEnd side a.pNode a.pinIndex c).pinLinks side' x =
      if side' = side ∧ x = a then g.pinLinks side' x ++ [c] else g.pinLinks side' x := by
  unfold pinLinks
  rw [links_addEnd]
  refine if_congr ?_ rfl rfl
  rw [NodeConnect.ext_iff]
  exact ⟨fun h => ⟨h.2.1, h.1, h.2.2.1⟩, fun h => ⟨h.2.1, h.1, h.2.2, ha⟩⟩

theorem pinLinks_eraseEnd (a : NodeConnect ν) (pNode : ν) (side' : PinSide) :
    (g.eraseEnd side a.pNode a.pinIndex pNode).pinLinks side' x =
      if side' = side ∧ x = a then
        (g.pinLinks side' x).eraseP fun connect => connect.pNode = pNode
      else g.pinLinks side' x := by
  unfold pinLinks
  rw [links_eraseEnd]
  refine if_congr ?_ rfl rfl
  rw [NodeConnect.ext_iff]
  exact ⟨fun h => ⟨h.2.1, h.1, h.2.2⟩, fun h => ⟨h.2.1, h.1, h.2.2⟩⟩

/-- An incoming and an outgoing link of a connector are joined. -/
def join (pNode : ν) (a : NodeConnect ν) (g : LogicalGraph ν δ) (b : NodeConnect ν) :
    LogicalGraph ν δ :=
  ((g.eraseEnd .input b.pNode b.pinIndex pNode).addEnd .input b.pNode b.pinIndex a).addEnd .output
    a.pNode a.pinIndex b

/-- An incoming link is joined with all outgoing ones. -/
def bypassLink (pNode : ν) (outputs : List (NodeConnect ν)) (g : LogicalGraph ν δ)
    (a : NodeConnect ν) : LogicalGraph ν δ :=
  outputs.foldl (join pNode a) (g.eraseEnd .output a.pNode a.pinIndex pNode)

theorem type_update_withPins (a : ν) (side : PinSide) (pins : List (NodePin ν δ)) (n : ν) :
    ((Function.update g a ((g a).withPins side pins)) n).type = (g n).type := by
  by_cases hn : n = a
  · subst hn
    rw [Function.update_self, type_withPins]
  · rw [Function.update_of_ne hn]

theorem type_bypassLinks {pNode : ν} (outputs inputs : List (NodeConnect ν)) (n : ν) :
    ((inputs.foldl (bypassLink pNode outputs) g) n).type = (g n).type := by
  have hjoins : ∀ a (g : LogicalGraph ν δ),
      ((outputs.foldl (join pNode a) g) n).type = (g n).type := by
    intro a
    induction outputs with
    | nil => exact fun g => rfl
    | cons b outputs ih =>
        intro g
        rw [List.foldl_cons, ih]
        exact ((type_update_withPins ..).trans (type_update_withPins ..)).trans
          (type_update_withPins ..)
  induction inputs generalizing g with
  | nil => rfl
  | cons a inputs ih => exact ih.trans ((hjoins a _).trans (type_update_withPins ..))

theorem length_pins_join (pNode : ν) (a b : NodeConnect ν) (side : PinSide) (n : ν) :
    (((g.join pNode a b) n).pins side).length = ((g n).pins side).length := by
  unfold join
  rw [length_pins_addEnd, length_pins_addEnd, length_pins_eraseEnd]

variable {inputs outputs : List (NodeConnect ν)}

theorem length_pins_bypassLink (outputs : List (NodeConnect ν)) (a : NodeConnect ν) (n : ν)
    (side : PinSide) :
    (((g.bypassLink pNode outputs a) n).pins side).length = ((g n).pins side).length := by
  have hfold : ∀ g : LogicalGraph ν δ, (((outputs.foldl (join pNode a) g) n).pins side).length =
      ((g n).pins side).length := by
    induction outputs with
    | nil => exact fun g => rfl
    | cons b outputs ih => exact fun g => (ih _).trans (g.length_pins_join ..)
  exact (hfold _).trans (g.length_pins_eraseEnd ..)

theorem count_pinLinks_eraseEnd (hy : y.pNode ≠ pNode) (side' : PinSide) :
    ((g.eraseEnd side a.pNode a.pinIndex pNode).pinLinks side' x).count y =
      (g.pinLinks side' x).count y := by
  rw [pinLinks_eraseEnd]
  split
  · exact count_eraseP (by simpa using hy) _
  · rfl

theorem linksTo_eraseEnd (side' : PinSide) :
    (g.eraseEnd side a.pNode a.pinIndex pNode).linksTo side' x pNode =
      g.linksTo side' x pNode - if side' = side ∧ x = a then 1 else 0 := by
  unfold linksTo
  rw [pinLinks_eraseEnd]
  split
  · exact countP_eraseP _ _
  · rfl

theorem count_pinLinks_addEnd (ha : a.pinIndex < ((g a.pNode).pins side).length)
    (c : NodeConnect ν) (side' : PinSide) :
    ((g.addEnd side a.pNode a.pinIndex c).pinLinks side' x).count y =
      (g.pinLinks side' x).count y + if (side' = side ∧ x = a) ∧ c = y then 1 else 0 := by
  rw [pinLinks_addEnd _ _ _ ha, count_ite_append]

theorem linksTo_addEnd (ha : a.pinIndex < ((g a.pNode).pins side).length) {c : NodeConnect ν}
    (hc : c.pNode ≠ pNode) (side' : PinSide) :
    (g.addEnd side a.pNode a.pinIndex c).linksTo side' x pNode = g.linksTo side' x pNode := by
  unfold linksTo
  rw [pinLinks_addEnd _ _ _ ha]
  split
  · rw [List.countP_append, List.countP_singleton, if_neg (by simpa using hc), Nat.add_zero]
  · rfl

theorem join_counts (ha : g.Beside .output pNode a) (hb : g.Beside .input pNode b) :
    (∀ x y, y.pNode ≠ pNode → ((g.join pNode a b).pinLinks .output x).count y =
      (g.pinLinks .output x).count y + if x = a ∧ b = y then 1 else 0) ∧
    (∀ x y, x.pNode ≠ pNode → ((g.join pNode a b).pinLinks .input y).count x =
      (g.pinLinks .input y).count x + if x = a ∧ b = y then 1 else 0) ∧
    (∀ x, (g.join pNode a b).linksTo .output x pNode = g.linksTo .output x pNode) ∧
    ∀ y, (g.join pNode a b).linksTo .input y pNode =
      g.linksTo .input y pNode - if b = y then 1 else 0 := by
  have hb₁ : b.pinIndex <
      (((g.eraseEnd .input b.pNode b.pinIndex pNode) b.pNode).pins .input).length := by
    rw [length_pins_eraseEnd]
    exact hb.2
  have ha₁ : a.pinIndex < ((((g.eraseEnd .input b.pNode b.pinIndex pNode).addEnd .input b.pNode
      b.pinIndex a) a.pNode).pins .output).length := by
    rw [length_pins_addEnd, length_pins_eraseEnd]
    exact ha.2
  unfold join
  refine ⟨fun x y hy => ?_, fun x y hx => ?_, fun x => ?_, fun y => ?_⟩
  · rw [count_pinLinks_addEnd ha₁, count_pinLinks_addEnd hb₁, count_pinLinks_eraseEnd hy,
      if_neg (by simp), Nat.add_zero]
    simp only [true_and]
  · rw [count_pinLinks_addEnd ha₁, count_pinLinks_addEnd hb₁, count_pinLinks_eraseEnd hx,
      if_neg (c := (PinSide.input = PinSide.output ∧ y = a) ∧ b = x) (by simp), Nat.add_zero]
    refine congrArg _ (if_congr ?_ rfl rfl)
    simp only [true_and]
    exact ⟨fun h => ⟨h.2.symm, h.1.symm⟩, fun h => ⟨h.2.symm, h.1.symm⟩⟩
  · rw [linksTo_addEnd ha₁ hb.1, linksTo_addEnd hb₁ ha.1, linksTo_eraseEnd, if_neg (by simp),
      Nat.sub_zero]
  · rw [linksTo_addEnd ha₁ hb.1, linksTo_addEnd hb₁ ha.1, linksTo_eraseEnd]
    refine congrArg _ (if_congr ?_ rfl rfl)
    simp only [true_and]
    exact ⟨Eq.symm, Eq.symm⟩

/-- All outgoing links, joined with one incoming link. -/
theorem joins_counts (ha : g.Beside .output pNode a)
    (houtputs : ∀ b ∈ outputs, g.Beside .input pNode b) :
    (∀ x y, y.pNode ≠ pNode → ((outputs.foldl (join pNode a) g).pinLinks .output x).count y =
      (g.pinLinks .output x).count y + if x = a then outputs.count y else 0) ∧
    (∀ x y, x.pNode ≠ pNode → ((outputs.foldl (join pNode a) g).pinLinks .input y).count x =
      (g.pinLinks .input y).count x + if x = a then outputs.count y else 0) ∧
    (∀ x, (outputs.foldl (join pNode a) g).linksTo .output x pNode =
      g.linksTo .output x pNode) ∧
    ∀ y, (outputs.foldl (join pNode a) g).linksTo .input y pNode =
      g.linksTo .input y pNode - outputs.count y := by
  induction outputs generalizing g with
  | nil => simp
  | cons b outputs ih =>
      obtain ⟨hout, hin, htoOut, htoIn⟩ := join_counts ha (houtputs b (List.mem_cons_self ..))
      obtain ⟨hout', hin', htoOut', htoIn'⟩ := ih (g := g.join pNode a b)
        (ha.of_length (length_pins_join ..)) fun c hc =>
          (houtputs c (List.mem_cons_of_mem _ hc)).of_length (length_pins_join ..)
      refine ⟨fun x y hy => ?_, fun x y hx => ?_, fun x => ?_, fun y => ?_⟩
      · rw [List.foldl_cons, hout' x y hy, hout x y hy, List.count_cons]
        by_cases hx : x = a
        · simp only [hx, true_and, if_true, beq_iff_eq]
          omega
        · simp only [hx, false_and, if_false]
      · rw [List.foldl_cons, hin' x y hx, hin x y hx, List.count_cons]
        by_cases hx : x = a
        · simp only [hx, true_and, if_true, beq_iff_eq]
          omega
        · simp only [hx, false_and, if_false]
      · rw [List.foldl_cons, htoOut', htoOut]
      · rw [List.foldl_cons, htoIn', htoIn, List.count_cons, Nat.sub_sub, Nat.add_comm]
        simp only [beq_iff_eq]

theorem bypassLink_counts (ha : g.Beside .output pNode a)
    (houtputs : ∀ b ∈ outputs, g.Beside .input pNode b) :
    (∀ x y, y.pNode ≠ pNode → ((g.bypassLink pNode outputs a).pinLinks .output x).count y =
      (g.pinLinks .output x).count y + if x = a then outputs.count y else 0) ∧
    (∀ x y, x.pNode ≠ pNode → ((g.bypassLink pNode outputs a).pinLinks .input y).count x =
      (g.pinLinks .input y).count x + if x = a then outputs.count y else 0) ∧
    (∀ x, (g.bypassLink pNode outputs a).linksTo .output x pNode =
      g.linksTo .output x pNode - if x = a then 1 else 0) ∧
    ∀ y, (g.bypassLink pNode outputs a).linksTo .input y pNode =
      g.linksTo .input y pNode - outputs.count y := by
  have hlength := g.length_pins_eraseEnd .output a.pNode a.pinIndex pNode
  obtain ⟨hout, hin, htoOut, htoIn⟩ :=
    joins_counts (g := g.eraseEnd .output a.pNode a.pinIndex pNode)
      (ha.of_length (hlength ..)) fun b hb => (houtputs b hb).of_length (hlength ..)
  unfold bypassLink
  refine ⟨fun x y hy => ?_, fun x y hx => ?_, fun x => ?_, fun y => ?_⟩
  · rw [hout x y hy, count_pinLinks_eraseEnd hy]
  · rw [hin x y hx, count_pinLinks_eraseEnd hx]
  · rw [htoOut, linksTo_eraseEnd]
    simp only [true_and]
  · rw [htoIn, linksTo_eraseEnd, if_neg (by simp), Nat.sub_zero]

/-- Every incoming link is joined with every outgoing one. -/
theorem bypassLinks_counts (hinputs : ∀ a ∈ inputs, g.Beside .output pNode a)
    (houtputs : ∀ b ∈ outputs, g.Beside .input pNode b) :
    (∀ x y, y.pNode ≠ pNode →
      ((inputs.foldl (bypassLink pNode outputs) g).pinLinks .output x).count y =
        (g.pinLinks .output x).count y + inputs.count x * outputs.count y) ∧
    (∀ x y, x.pNode ≠ pNode →
      ((inputs.foldl (bypassLink pNode outputs) g).pinLinks .input y).count x =
        (g.pinLinks .input y).count x + inputs.count x * outputs.count y) ∧
    (∀ x, (inputs.foldl (bypassLink pNode outputs) g).linksTo .output x pNode =
      g.linksTo .output x pNode - inputs.count x) ∧
    ∀ y, (inputs.foldl (bypassLink pNode outputs) g).linksTo .input y pNode =
      g.linksTo .input y pNode - inputs.length * outputs.count y := by
  induction inputs generalizing g with
  | nil => simp
  | cons a inputs ih =>
      obtain ⟨hout, hin, htoOut, htoIn⟩ :=
        bypassLink_counts (hinputs a (List.mem_cons_self ..)) houtputs
      obtain ⟨hout', hin', htoOut', htoIn'⟩ := ih (g := g.bypassLink pNode outputs a)
        (fun c hc => (hinputs c (List.mem_cons_of_mem _ hc)).of_length (length_pins_bypassLink ..))
        fun c hc => (houtputs c hc).of_length (length_pins_bypassLink ..)
      have hcount : ∀ x y,
          (if x = a then outputs.count y else 0) + inputs.count x * outputs.count y =
            (a :: inputs).count x * outputs.count y := by
        intro x y
        rw [List.count_cons, Nat.add_mul, Nat.add_comm]
        by_cases hx : x = a
        · simp [hx]
        · simp [hx, Ne.symm hx]
      refine ⟨fun x y hy => ?_, fun x y hx => ?_, fun x => ?_, fun y => ?_⟩
      · rw [List.foldl_cons, hout' x y hy, hout x y hy, Nat.add_assoc, hcount]
      · rw [List.foldl_cons, hin' x y hx, hin x y hx, Nat.add_assoc, hcount]
      · rw [List.foldl_cons, htoOut', htoOut, List.count_cons, Nat.sub_sub, Nat.add_comm]
        by_cases hx : x = a
        · simp [hx]
        · simp [hx, Ne.symm hx]
      · rw [List.foldl_cons, htoIn', htoIn, List.length_cons, Nat.sub_sub, Nat.add_mul, Nat.one_mul,
          Nat.add_comm]

end LogicalGraph

/-! ## The loops of the machine -/

namespace LogicalMachine

open LogicalGraph

variable {m : LogicalMachine ν δ} {pNode : ν} {a b : NodeConnect ν}
  {inputs outputs : List (NodeConnect ν)} {side : PinSide} {graph : LogicalGraph ν δ}

/-- Nodes that are not deleted, with pins in range. -/
def Live (m : LogicalMachine ν δ) (side : PinSide) (c : NodeConnect ν) : Prop :=
  c.pNode ∈ m.nodes ∧ c.pinIndex < ((m.graph c.pNode).pins side).length

def withGraph (m : LogicalMachine ν δ) (graph : LogicalGraph ν δ) : LogicalMachine ν δ :=
  { m with graph }

theorem Live.withGraph (hlength : ((graph a.pNode).pins side).length =
    ((m.graph a.pNode).pins side).length) (h : m.Live side a) : (m.withGraph graph).Live side a :=
  ⟨h.1, hlength ▸ h.2⟩

variable [DecidableEq ν]

theorem modifyNode_remove (ha : m.Live side a) :
    (m.modifyNode a.pNode fun node => node.removeConnection side pNode a.pinIndex) =
      some (m.withGraph (m.graph.eraseEnd side a.pNode a.pinIndex pNode)) := by
  rw [modifyNode, if_pos ha.1, LogicalNode.removeConnection, if_pos ha.2]
  rfl

theorem modifyNode_add (ha : a.pNode ∈ m.nodes) (c : NodeConnect ν) :
    (m.modifyNode a.pNode fun node =>
      some (node.addConnection side c.pNode c.pinIndex a.pinIndex)) =
      some (m.withGraph (m.graph.addEnd side a.pNode a.pinIndex c)) := by
  rw [modifyNode, if_pos ha]
  rfl

theorem joinLinks_eq (ha : a.pNode ∈ m.nodes) (hb : m.Live .input b) :
    m.joinLinks pNode a b = some (m.withGraph (m.graph.join pNode a b)) := by
  unfold joinLinks LogicalNode.removeInputConnection LogicalNode.addInputConnection
    LogicalNode.addOutputConnection
  rw [modifyNode_remove hb, Option.bind_eq_bind, Option.bind_some, modifyNode_add (by exact hb.1),
    Option.bind_some, modifyNode_add (by exact ha)]
  rfl

theorem foldlM_joinLinks (ha : a.pNode ∈ m.nodes) (houtputs : ∀ b ∈ outputs, m.Live .input b) :
    outputs.foldlM (joinLinks pNode a) m =
      some (m.withGraph (outputs.foldl (LogicalGraph.join pNode a) m.graph)) := by
  induction outputs generalizing m with
  | nil => rfl
  | cons b outputs ih =>
      rw [List.foldlM_cons, joinLinks_eq ha (houtputs b (List.mem_cons_self ..))]
      exact ih (m := m.withGraph (m.graph.join pNode a b)) ha fun c hc =>
        (houtputs c (List.mem_cons_of_mem _ hc)).withGraph (length_pins_join ..)

theorem bypassInput_eq (ha : m.Live .output a) (houtputs : ∀ b ∈ outputs, m.Live .input b) :
    m.bypassInput pNode outputs a = some (m.withGraph (m.graph.bypassLink pNode outputs a)) := by
  unfold bypassInput LogicalNode.removeOutputConnection
  rw [modifyNode_remove ha, Option.bind_eq_bind, Option.bind_some]
  exact foldlM_joinLinks (m := m.withGraph _) ha.1 fun b hb =>
    (houtputs b hb).withGraph (m.graph.length_pins_eraseEnd ..)

theorem foldlM_bypassInput (hinputs : ∀ a ∈ inputs, m.Live .output a)
    (houtputs : ∀ b ∈ outputs, m.Live .input b) :
    inputs.foldlM (bypassInput pNode outputs) m =
      some (m.withGraph (inputs.foldl (bypassLink pNode outputs) m.graph)) := by
  induction inputs generalizing m with
  | nil => rfl
  | cons a inputs ih =>
      rw [List.foldlM_cons, bypassInput_eq (hinputs a (List.mem_cons_self ..)) houtputs]
      exact ih (m := m.withGraph (m.graph.bypassLink pNode outputs a))
        (fun c hc => (hinputs c (List.mem_cons_of_mem _ hc)).withGraph (length_pins_bypassLink ..))
        fun c hc => (houtputs c hc).withGraph (length_pins_bypassLink ..)

theorem bypass_eq (hinputs : ∀ a ∈ m.connections .input pNode, m.Live .output a)
    (houtputs : ∀ b ∈ m.connections .output pNode, m.Live .input b) :
    m.bypass pNode = some
      { graph := (m.connections .input pNode).foldl
          (bypassLink pNode (m.connections .output pNode)) m.graph
        nodes := m.nodes.erase pNode } := by
  rw [bypass, foldlM_bypassInput hinputs houtputs]
  rfl

end LogicalMachine

end SRCommon
