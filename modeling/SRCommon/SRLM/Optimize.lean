import Mathlib.Data.List.Induction
import Mathlib.Data.Nat.Find
import SRCommon.Lib.Contraction
import SRCommon.Lib.PartialRun
import SRCommon.SRLM.ConnectorContraction

/-!
# Machines without connectors

`Optimize` keeps the paths through connectors as links, unless a connector
without incoming links still has an outgoing one when its turn comes: nothing
erases this link at the far end.
-/

namespace SRCommon

variable {ν δ : Type}

namespace LogicalMachine

open LogicalGraph Contraction

variable (m : LogicalMachine ν δ)

/-- An output pin reaches an input pin by links, with the inner nodes in a set. -/
def Via (S : ν → Prop) : NodeConnect ν → NodeConnect ν → Prop :=
  Through (fun x y => y ∈ m.graph.pinLinks .output x) fun y x => y.pNode = x.pNode ∧ S y.pNode

def IsConnector (n : ν) : Prop := (m.graph n).type = .connector

def ConnectorIn (nodes : List ν) (n : ν) : Prop := n ∈ nodes ∧ m.IsConnector n

/-- No cycle is made of connectors only. -/
def ConnectorsAcyclic : Prop :=
  ∀ n ∈ m.nodes, m.IsConnector n → ∀ i j, ¬ m.Via m.IsConnector ⟨n, i⟩ ⟨n, j⟩

/-- A connector that nothing leads to leads nowhere once the connectors before it are deleted. -/
def Freed (pre : List ν) (n : ν) : Prop :=
  m.IsConnector n → m.connections .input n = [] →
    ∀ i y, m.Via (m.ConnectorIn pre) ⟨n, i⟩ y → m.ConnectorIn pre y.pNode

def Clears : Prop := ∀ pre n suf, m.nodes = pre ++ n :: suf → m.Freed pre n

variable {m} {m' m₁ : LogicalMachine ν δ} {S : ν → Prop} {x y : NodeConnect ν} {n : ν}
  {pre : List ν}

theorem connectorIn_append :
    m.ConnectorIn (pre ++ [n]) = fun k => m.ConnectorIn pre k ∨ k = n ∧ m.IsConnector n := by
  funext k
  simp only [ConnectorIn, List.mem_append, List.mem_singleton, or_and_right]
  refine propext (or_congr Iff.rfl ⟨?_, ?_⟩)
  · rintro ⟨rfl, h⟩
    exact ⟨rfl, h⟩
  · rintro ⟨rfl, h⟩
    exact ⟨rfl, h⟩

theorem via_nil_iff : m.Via (m.ConnectorIn []) x y ↔ y ∈ m.graph.pinLinks .output x := by
  apply through_of_forall_not
  rintro y x ⟨-, hin, -⟩
  exact List.not_mem_nil hin

/-- A path through one more connector passes it at most once. -/
theorem via_append_iff (hn : m.IsConnector n) :
    m.Via (m.ConnectorIn (pre ++ [n])) x y ↔ m.Via (m.ConnectorIn pre) x y ∨
      (∃ i, m.Via (m.ConnectorIn pre) x ⟨n, i⟩) ∧ ∃ i, m.Via (m.ConnectorIn pre) ⟨n, i⟩ y := by
  have hpass : (fun y x : NodeConnect ν => y.pNode = x.pNode ∧ m.ConnectorIn (pre ++ [n]) y.pNode) =
      fun y x => (y.pNode = x.pNode ∧ m.ConnectorIn pre y.pNode) ∨ y.pNode = n ∧ x.pNode = n := by
    funext y x
    rw [connectorIn_append]
    refine propext ⟨?_, ?_⟩
    · rintro ⟨heq, hin | ⟨hy, -⟩⟩
      · exact Or.inl ⟨heq, hin⟩
      · exact Or.inr ⟨hy, heq ▸ hy⟩
    · rintro (⟨heq, hin⟩ | ⟨hy, hx⟩)
      · exact ⟨heq, Or.inl hin⟩
      · exact ⟨hy.trans hx.symm, Or.inr ⟨hy, hn⟩⟩
  unfold Via
  rw [hpass, through_or_iff]
  refine or_congr Iff.rfl ⟨?_, ?_⟩
  · rintro ⟨⟨_, i⟩, ⟨_, j⟩, hto, rfl, rfl, hfrom⟩
    exact ⟨⟨i, hto⟩, j, hfrom⟩
  · rintro ⟨⟨i, hto⟩, j, hfrom⟩
    exact ⟨⟨n, i⟩, ⟨n, j⟩, hto, rfl, rfl, hfrom⟩

/-- The first connector that leads somewhere when its turn comes. -/
theorem exists_first_of_not_clears (h : ¬ m.Clears) :
    ∃ pre n suf, m.nodes = pre ++ n :: suf ∧ ¬ m.Freed pre n ∧
      ∀ pre' k suf', pre = pre' ++ k :: suf' → m.Freed pre' k := by
  classical
  have hex : ∃ l, ∃ pre n suf, pre.length = l ∧ m.nodes = pre ++ n :: suf ∧ ¬ m.Freed pre n := by
    unfold Clears at h
    push Not at h
    obtain ⟨pre, n, suf, heq, hfreed⟩ := h
    exact ⟨_, pre, n, suf, rfl, heq, hfreed⟩
  obtain ⟨pre, n, suf, hlength, heq, hfreed⟩ := Nat.find_spec hex
  refine ⟨pre, n, suf, heq, hfreed, fun pre' k suf' hpre => ?_⟩
  by_contra hk
  refine Nat.find_min hex (m := pre'.length) ?_ ⟨pre', k, suf' ++ n :: suf, rfl, ?_, hk⟩
  · rw [← hlength, hpre, List.length_append, List.length_cons]
    omega
  · rw [heq, hpre, List.append_assoc, List.cons_append]

/-- The nodes stay, and so does an incoming link from a node. -/
def Keeps (c y : NodeConnect ν) (m m' : LogicalMachine ν δ) : Prop :=
  m'.nodes = m.nodes ∧ (c ∈ m.graph.pinLinks .input y → c ∈ m'.graph.pinLinks .input y)

theorem Keeps.trans {c : NodeConnect ν} (h : Keeps c y m m') (h' : Keeps c y m' m₁) :
    Keeps c y m m₁ :=
  ⟨h'.1.trans h.1, fun hc => h'.2 (h.2 hc)⟩

variable [DecidableEq ν]

/-- What the deletion of the connectors is for. -/
structure Optimized (m m' : LogicalMachine ν δ) : Prop where
  noConnector : ∀ n ∈ m'.nodes, ¬ m'.IsConnector n
  mem_nodes : ∀ n, n ∈ m'.nodes ↔ n ∈ m.nodes ∧ ¬ m.IsConnector n
  sound : m'.Sound
  links : ∀ x y, x.pNode ∈ m'.nodes → y.pNode ∈ m'.nodes →
    (y ∈ m'.graph.pinLinks .output x ↔ m.Via m.IsConnector x y)

/-- Links lead to nodes of the machine, so that a path stays there. -/
theorem Sound.via_connectorIn (h : m.Sound) (hx : x.pNode ∈ m.nodes)
    (hvia : m.Via m.IsConnector x y) : m.Via (m.ConnectorIn m.nodes) x y := by
  induction hvia with
  | edge hE => exact .edge hE
  | pass hE hpass _ ih =>
      have hmem := h.closed .output _ _ hx hE
      exact .pass hE ⟨hpass.1, hmem, hpass.2⟩ (ih (hpass.1 ▸ hmem))

theorem Sound.last_of_via (h : m.Sound) (hx : x.pNode ∈ m.nodes) (hvia : m.Via S x y) :
    ∃ x', x'.pNode ∈ m.nodes ∧ y ∈ m.graph.pinLinks .output x' := by
  induction hvia with
  | edge hE => exact ⟨_, hx, hE⟩
  | pass hE hpass _ ih => exact ih (hpass.1 ▸ h.closed .output _ _ hx hE)

/-- Every link of a node is one of its incoming ones at the far end. -/
theorem Sound.mem_connections_input (h : m.Sound) (hn : n ∈ m.nodes) :
    x ∈ m.connections .input n ↔ x.pNode ∈ m.nodes ∧ ∃ i, ⟨n, i⟩ ∈ m.graph.pinLinks .output x := by
  rw [mem_connections]
  constructor
  · rintro ⟨i, hi⟩
    have hx := h.closed .input ⟨n, i⟩ x hn hi
    exact ⟨hx, i, (h.mem_iff (x := ⟨n, i⟩) hn hx).mp hi⟩
  · rintro ⟨hx, i, hi⟩
    exact ⟨i, (h.mem_iff (y := ⟨n, i⟩) hx hn).mp hi⟩

/-- The connectors of a list are deleted, and the paths through them are links. -/
structure Contracted (m : LogicalMachine ν δ) (pre : List ν) (m' : LogicalMachine ν δ) : Prop where
  mem_nodes : ∀ n, n ∈ m'.nodes ↔ n ∈ m.nodes ∧ ¬ m.ConnectorIn pre n
  nodup : m'.nodes.Nodup
  type_eq : ∀ n, (m'.graph n).type = (m.graph n).type
  sound : m'.Sound
  links : ∀ x y, x.pNode ∈ m'.nodes → y.pNode ∈ m'.nodes →
    (y ∈ m'.graph.pinLinks .output x ↔ m.Via (m.ConnectorIn pre) x y)
  fed : ∀ n ∈ m'.nodes, m'.connections .input n = [] → m.connections .input n = []

theorem contracted_nil (hnodup : m.nodes.Nodup) (hsound : m.Sound) : m.Contracted [] m where
  mem_nodes n := by simp [ConnectorIn]
  nodup := hnodup
  type_eq _ := rfl
  sound := hsound
  links x y _ _ := via_nil_iff.symm
  fed _ _ h := h

namespace Contracted

variable (h : m.Contracted pre m')

include h

theorem loopless (hacyclic : m.ConnectorsAcyclic) (hn : n ∈ m'.nodes)
    (hconnector : m.IsConnector n) : m'.Loopless n := by
  intro i j hlink
  refine hacyclic n ((h.mem_nodes n).mp hn).1 hconnector i j ?_
  refine ((h.links ⟨n, i⟩ ⟨n, j⟩ hn hn).mp hlink).mono ?_
  exact fun _ _ hpass => ⟨hpass.1, hpass.2.2⟩

/-- What the list says of the links of a connector when its turn comes. -/
theorem connections_output_eq_nil (hn : n ∈ m'.nodes) :
    m'.connections .output n = [] ↔
      ∀ i y, m.Via (m.ConnectorIn pre) ⟨n, i⟩ y → y.pNode ∉ m'.nodes := by
  rw [List.eq_nil_iff_forall_not_mem]
  constructor
  · intro hnil i y hvia hy
    exact hnil y (mem_connections.mpr ⟨i, (h.links ⟨n, i⟩ y hn hy).mpr hvia⟩)
  · intro hnone y hmem
    obtain ⟨i, hi⟩ := mem_connections.mp hmem
    have hy := h.sound.closed .output ⟨n, i⟩ y hn hi
    exact hnone i y ((h.links ⟨n, i⟩ y hn hy).mp hi) hy

/-- One more connector is deleted. -/
theorem step (hacyclic : m.ConnectorsAcyclic) (hn : n ∈ m'.nodes) (hfreed : m.Freed pre n) :
    ∃ m'', m'.optimizeNode n = some m'' ∧ m.Contracted (pre ++ [n]) m'' := by
  unfold optimizeNode
  rw [h.type_eq]
  by_cases hconnector : (m.graph n).type = .connector
  · rw [if_pos hconnector]
    have hloop := h.loopless hacyclic hn hconnector
    have hfed : m'.connections .input n = [] → m'.connections .output n = [] := by
      intro hnil
      rw [h.connections_output_eq_nil hn]
      intro i y hvia hy
      exact ((h.mem_nodes _).mp hy).2 (hfreed hconnector (h.fed n hn hnil) i y hvia)
    obtain ⟨m'', hbypass, hnodes, htype, hsound, hlinks⟩ :=
      h.sound.bypass hn h.nodup hloop hfed
    have hmem : ∀ k, k ∈ m''.nodes ↔ k ≠ n ∧ k ∈ m'.nodes := fun k => by
      rw [hnodes, h.nodup.mem_erase_iff]
    refine ⟨m'', hbypass, ?_, ?_, ?_, hsound, ?_, ?_⟩
    · intro k
      rw [hmem, h.mem_nodes, connectorIn_append]
      constructor
      · rintro ⟨hne, hk, hnot⟩
        exact ⟨hk, fun hor => hor.elim hnot fun heq => hne heq.1⟩
      · rintro ⟨hk, hnot⟩
        exact ⟨fun heq => hnot (Or.inr ⟨heq, heq ▸ hconnector⟩), hk, fun hin => hnot (Or.inl hin)⟩
    · rw [hnodes]
      exact h.nodup.erase n
    · exact fun k => (htype k).trans (h.type_eq k)
    · intro x y hx hy
      rw [hlinks x y hx hy, via_append_iff hconnector]
      have hx' := ((hmem _).mp hx).2
      have hy' := ((hmem _).mp hy).2
      rw [h.links x y hx' hy', h.sound.mem_connections_input hn, mem_connections]
      refine or_congr Iff.rfl (and_congr ?_ ?_)
      · constructor
        · rintro ⟨-, i, hi⟩
          exact ⟨i, (h.links x ⟨n, i⟩ hx' hn).mp hi⟩
        · rintro ⟨i, hvia⟩
          exact ⟨hx', i, (h.links x ⟨n, i⟩ hx' hn).mpr hvia⟩
      · exact exists_congr fun i => h.links ⟨n, i⟩ y hn hy'
    · intro k hk hnil
      obtain ⟨hkn, hk'⟩ := (hmem k).mp hk
      refine h.fed k hk' (List.eq_nil_iff_forall_not_mem.mpr fun x hx => ?_)
      obtain ⟨hxnode, i, hi⟩ := (h.sound.mem_connections_input hk').mp hx
      -- a link that came from the connector now comes from one of its inputs
      have hnew : ∃ a, a.pNode ∈ m''.nodes ∧ ⟨k, i⟩ ∈ m''.graph.pinLinks .output a := by
        by_cases hxn : x.pNode = n
        · have hout : (⟨k, i⟩ : NodeConnect ν) ∈ m'.connections .output n := by
            obtain ⟨a, j⟩ := x
            change a = n at hxn
            subst hxn
            exact mem_connections.mpr ⟨j, hi⟩
          obtain ⟨a, ha⟩ := List.exists_mem_of_ne_nil _ fun hin => by
            rw [hfed hin] at hout
            exact List.not_mem_nil hout
          have hanode := ((h.sound.mem_connections_input hn).mp ha).1
          have hane := h.sound.ne_of_mem_connections hn hloop ha
          have ha'' := (hmem _).mpr ⟨hane, hanode⟩
          exact ⟨a, ha'', (hlinks a ⟨k, i⟩ ha'' hk).mpr (Or.inr ⟨ha, hout⟩)⟩
        · have hx'' := (hmem _).mpr ⟨hxn, hxnode⟩
          exact ⟨x, hx'', (hlinks x ⟨k, i⟩ hx'' hk).mpr (Or.inl hi)⟩
      obtain ⟨a, ha, hlink⟩ := hnew
      have hin := (hsound.mem_connections_input hk).mpr ⟨ha, i, hlink⟩
      rw [hnil] at hin
      exact List.not_mem_nil hin
  · rw [if_neg hconnector]
    have heq : m.ConnectorIn (pre ++ [n]) = m.ConnectorIn pre := by
      rw [connectorIn_append]
      funext k
      refine propext (or_iff_left ?_)
      rintro ⟨rfl, hk⟩
      exact hconnector hk
    exact ⟨m', rfl, heq ▸ h.mem_nodes, h.nodup, h.type_eq, h.sound, heq ▸ h.links, h.fed⟩

end Contracted

/-- As long as the condition holds, the deletion goes on. -/
theorem contracted_of_freed (hnodup : m.nodes.Nodup) (hsound : m.Sound)
    (hacyclic : m.ConnectorsAcyclic) (pre : List ν) :
    ∀ suf, m.nodes = pre ++ suf → (∀ pre' n suf', pre = pre' ++ n :: suf' → m.Freed pre' n) →
      ∃ m', pre.foldlM optimizeNode m = some m' ∧ m.Contracted pre m' := by
  induction pre using List.reverseRecOn with
  | nil => exact fun _ _ _ => ⟨m, rfl, contracted_nil hnodup hsound⟩
  | append_singleton pre n ih =>
      intro suf heq hfreed
      rw [List.append_assoc] at heq
      obtain ⟨m', hfold, hm'⟩ := ih ([n] ++ suf) heq fun pre' k suf' hpre =>
        hfreed pre' k (suf' ++ [n]) (by rw [hpre, List.append_assoc, List.cons_append])
      have hnot : n ∉ pre := by
        rw [heq] at hnodup
        exact fun hin => (List.disjoint_of_nodup_append hnodup) hin (List.mem_cons_self ..)
      have hn : n ∈ m'.nodes := (hm'.mem_nodes n).mpr ⟨by simp [heq], fun hin => hnot hin.1⟩
      obtain ⟨m'', hstep, hm''⟩ := hm'.step hacyclic hn (hfreed pre n [] rfl)
      refine ⟨m'', ?_, hm''⟩
      rw [List.foldlM_append, hfold, Option.bind_eq_bind, Option.bind_some, List.foldlM_cons, hstep]
      rfl

theorem Contracted.optimized (hsound : m.Sound) (h : m.Contracted m.nodes m') :
    m.Optimized m' where
  mem_nodes n := by
    rw [h.mem_nodes]
    exact and_congr_right fun hn => not_congr ⟨fun hin => hin.2, fun hin => ⟨hn, hin⟩⟩
  noConnector n hn hconnector := by
    obtain ⟨hmem, hnot⟩ := (h.mem_nodes n).mp hn
    exact hnot ⟨hmem, (h.type_eq n).symm.trans hconnector⟩
  sound := h.sound
  links x y hx hy := by
    rw [h.links x y hx hy]
    exact ⟨fun hvia => hvia.mono fun _ _ hpass => ⟨hpass.1, hpass.2.2⟩,
      hsound.via_connectorIn ((h.mem_nodes _).mp hx).1⟩

/-! ## Links that nothing erases -/

variable {c : NodeConnect ν} {pNode : ν}

theorem mem_of_modifyNode {f : LogicalNode ν δ → Option (LogicalNode ν δ)}
    (h : m.modifyNode n f = some m') : n ∈ m.nodes := by
  by_contra hn
  rw [modifyNode, if_neg hn] at h
  cases h

theorem keeps_modifyNode {f : LogicalNode ν δ → Option (LogicalNode ν δ)}
    (hf : ∀ node, f (m.graph n) = some node →
      ∀ p, c ∈ (m.graph n).links .input p → c ∈ node.links .input p)
    (h : m.modifyNode n f = some m') : Keeps c y m m' := by
  rw [modifyNode, if_pos (mem_of_modifyNode h)] at h
  obtain ⟨node, hnode, rfl⟩ := Option.map_eq_some_iff.mp h
  refine ⟨rfl, fun hc => ?_⟩
  change c ∈ ((Function.update m.graph n node) y.pNode).links .input y.pinIndex
  by_cases hy : y.pNode = n
  · subst hy
    rw [Function.update_self]
    exact hf node hnode _ hc
  · rw [Function.update_of_ne hy]
    exact hc

theorem keeps_remove {side : PinSide} {i : ℕ} (hne : c.pNode ≠ pNode)
    (h : (m.modifyNode n fun node => node.removeConnection side pNode i) = some m') :
    Keeps c y m m' := by
  apply keeps_modifyNode _ h
  intro node hnode p hc
  unfold LogicalNode.removeConnection at hnode
  split at hnode
  · obtain rfl := Option.some.inj hnode
    rw [LogicalNode.links_modify]
    split
    · exact (List.mem_eraseP_of_neg (by simpa using hne)).mpr hc
    · exact hc
  · cases hnode

theorem keeps_add {side : PinSide} {a : ν} {i j : ℕ}
    (h : (m.modifyNode n fun node => some (node.addConnection side a i j)) = some m') :
    Keeps c y m m' := by
  apply keeps_modifyNode _ h
  intro node hnode p hc
  obtain rfl := Option.some.inj hnode
  rw [LogicalNode.links_addConnection]
  split
  · exact List.mem_append_left _ hc
  · exact hc

theorem keeps_joinLinks {a b : NodeConnect ν} (hne : c.pNode ≠ pNode)
    (h : joinLinks pNode a m b = some m') : Keeps c y m m' := by
  obtain ⟨m₁, hremove, h⟩ := Option.bind_eq_some_iff.mp h
  obtain ⟨m₂, hinput, houtput⟩ := Option.bind_eq_some_iff.mp h
  exact ((keeps_remove hne hremove).trans (keeps_add hinput)).trans (keeps_add houtput)

theorem keeps_bypassInput {outputs : List (NodeConnect ν)} {a : NodeConnect ν}
    (hne : c.pNode ≠ pNode) (h : bypassInput pNode outputs m a = some m') : Keeps c y m m' := by
  obtain ⟨m₁, hremove, hjoins⟩ := Option.bind_eq_some_iff.mp h
  exact Steps.foldlM_invariant (I := fun _ t => Keeps c y m t)
    (fun _ _ _ _ ht hstep => ht.trans (keeps_joinLinks hne hstep)) (keeps_remove hne hremove) hjoins

/-- The bypass of another connector keeps a link, and needs the nodes that lead to it. -/
theorem keeps_bypass (hne : c.pNode ≠ n) (h : m.bypass n = some m') :
    m'.nodes = m.nodes.erase n ∧
      (c ∈ m.graph.pinLinks .input y → c ∈ m'.graph.pinLinks .input y ∧
        (y.pNode = n → c.pNode ∈ m.nodes)) := by
  obtain ⟨m₁, hfold, rfl⟩ := Option.map_eq_some_iff.mp h
  have hinv := Steps.foldlM_invariant
    (I := fun is t => Keeps c y m t ∧ (c ∈ m.connections .input n → c ∈ is ∨ c.pNode ∈ m.nodes))
    (fun a is t t' ht hstep => by
      refine ⟨ht.1.trans (keeps_bypassInput hne hstep), fun hc => ?_⟩
      rcases ht.2 hc with hmem | hlive
      · rcases List.mem_cons.mp hmem with rfl | hmem
        · obtain ⟨m₂, hremove, -⟩ := Option.bind_eq_some_iff.mp hstep
          exact Or.inr (ht.1.1 ▸ mem_of_modifyNode hremove)
        · exact Or.inl hmem
      · exact Or.inr hlive)
    ⟨⟨rfl, id⟩, Or.inl⟩ hfold
  refine ⟨congrArg (List.erase · n) hinv.1.1, fun hc => ⟨hinv.1.2 hc, ?_⟩⟩
  rintro rfl
  exact (hinv.2 (mem_connections.mpr ⟨y.pinIndex, hc⟩)).resolve_left List.not_mem_nil

/-- A link from a deleted node. -/
structure Stale (m : LogicalMachine ν δ) (c y : NodeConnect ν) : Prop where
  link : c ∈ m.graph.pinLinks .input y
  node : y.pNode ∈ m.nodes
  deleted : c.pNode ∉ m.nodes

theorem Stale.optimizeNode (h : m.Stale c y) (hne : c.pNode ≠ n)
    (hm' : m.optimizeNode n = some m') : m'.Stale c y := by
  unfold LogicalMachine.optimizeNode at hm'
  split at hm'
  · obtain ⟨hnodes, hkeeps⟩ := keeps_bypass (y := y) hne hm'
    obtain ⟨hlink, hlive⟩ := hkeeps h.link
    refine ⟨hlink, ?_, ?_⟩
    · rw [hnodes, List.mem_erase_of_ne fun heq => h.deleted (hlive heq)]
      exact h.node
    · rw [hnodes]
      exact fun hc => h.deleted (List.mem_of_mem_erase hc)
  · cases hm'
    exact h

theorem Stale.foldlM (h : m.Stale c y) {suf : List ν} (hc : c.pNode ∉ suf)
    (hm' : suf.foldlM LogicalMachine.optimizeNode m = some m') : m'.Stale c y :=
  (Steps.foldlM_invariant (I := fun is t => c.pNode ∉ is ∧ t.Stale c y)
    (fun _ _ _ _ ht hstep => ⟨List.not_mem_of_not_mem_cons ht.1,
      ht.2.optimizeNode (List.ne_of_not_mem_cons ht.1) hstep⟩) ⟨hc, h⟩ hm').2

/-- A connector without incoming links is deleted, and its outgoing links stay at their ends. -/
theorem Contracted.stale (h : m.Contracted pre m') (hsound : m.Sound)
    (hacyclic : m.ConnectorsAcyclic) (hn : n ∈ m'.nodes) (hfreed : ¬ m.Freed pre n)
    (hm' : m'.optimizeNode n = some m₁) : ∃ i y, m₁.Stale ⟨n, i⟩ y := by
  unfold Freed at hfreed
  push Not at hfreed
  obtain ⟨hconnector, hnil, i, y, hvia, hout⟩ := hfreed
  have htype : (m.graph n).type = .connector := hconnector
  have hn₀ := ((h.mem_nodes n).mp hn).1
  have hnil' : m'.connections .input n = [] := by
    refine List.eq_nil_iff_forall_not_mem.mpr fun x hx => ?_
    obtain ⟨hxnode, j, hj⟩ := (h.sound.mem_connections_input hn).mp hx
    obtain ⟨x', hx', hlink⟩ := hsound.last_of_via ((h.mem_nodes _).mp hxnode).1
      ((h.links x ⟨n, j⟩ hxnode hn).mp hj)
    have hin := (hsound.mem_connections_input hn₀).mpr ⟨hx', j, hlink⟩
    rw [hnil] at hin
    exact List.not_mem_nil hin
  have hy : y.pNode ∈ m'.nodes := by
    obtain ⟨x', hx', hlink⟩ := hsound.last_of_via (x := ⟨n, i⟩) hn₀ hvia
    exact (h.mem_nodes _).mpr ⟨hsound.closed .output x' y hx' hlink, hout⟩
  have hlink := (h.links ⟨n, i⟩ y hn hy).mpr hvia
  have hne : y.pNode ≠ n :=
    h.sound.ne_of_mem_connections hn (h.loopless hacyclic hn hconnector)
      (mem_connections.mpr ⟨i, hlink⟩)
  rw [LogicalMachine.optimizeNode, h.type_eq, if_pos htype, bypass, hnil'] at hm'
  obtain rfl := Option.some.inj hm'
  refine ⟨i, y, (h.sound.mem_iff (x := ⟨n, i⟩) hn hy).mp hlink, ?_, h.nodup.not_mem_erase⟩
  exact (List.mem_erase_of_ne hne).mpr hy

/-- `Optimize` keeps the meaning of the links exactly when no connector without incoming links
leads to a node that is still there. -/
theorem optimize_iff (hnodup : m.nodes.Nodup) (hsound : m.Sound)
    (hacyclic : m.ConnectorsAcyclic) :
    (∃ m', m.optimize = some m' ∧ m.Optimized m') ↔ m.Clears := by
  constructor
  · rintro ⟨m', hm', hoptimized⟩
    by_contra hclears
    obtain ⟨pre, n, suf, heq, hfreed, hbefore⟩ := exists_first_of_not_clears hclears
    obtain ⟨m₁, hpre, hm₁⟩ :=
      contracted_of_freed hnodup hsound hacyclic pre (n :: suf) heq hbefore
    rw [heq] at hnodup
    have hnpre : n ∉ pre := fun hin =>
      List.disjoint_of_nodup_append hnodup hin (List.mem_cons_self ..)
    have hnsuf : n ∉ suf := (List.nodup_cons.mp (List.nodup_append.mp hnodup).2.1).1
    have hn : n ∈ m₁.nodes := (hm₁.mem_nodes n).mpr ⟨by simp [heq], fun hin => hnpre hin.1⟩
    rw [optimize, heq, List.foldlM_append, hpre, Option.bind_eq_bind, Option.bind_some,
      List.foldlM_cons] at hm'
    obtain ⟨m₂, hm₂, hsuf⟩ := Option.bind_eq_some_iff.mp hm'
    obtain ⟨i, y, hstale⟩ := hm₁.stale hsound hacyclic hn hfreed hm₂
    have hlast := hstale.foldlM hnsuf hsuf
    exact hlast.deleted (hoptimized.sound.closed .input y _ hlast.node hlast.link)
  · intro hclears
    obtain ⟨m', hm', hcontracted⟩ := contracted_of_freed hnodup hsound hacyclic m.nodes []
      (List.append_nil _).symm fun pre' n suf' heq => hclears pre' n suf' heq
    exact ⟨m', hm', hcontracted.optimized hsound⟩

/-- A connector leads to a node, and nothing leads to it unless it is fed by this node. -/
def ring (fed : Bool) : LogicalMachine Bool Unit where
  nodes := [false, true]
  graph n :=
    { type := if n then .compute else .connector
      inputs := [{ connections := if n || fed then [⟨!n, 0⟩] else [], pData := () }]
      outputs := [{ connections := if !n || fed then [⟨!n, 0⟩] else [], pData := () }] }

theorem ring_sound (fed : Bool) : (ring fed).Sound where
  balanced := by
    rintro side ⟨a, i⟩ ⟨b, j⟩ - -
    cases i <;> cases j <;> cases side <;> cases a <;> cases b <;> cases fed <;> rfl
  closed := by
    have hall : ∀ b, b ∈ [false, true] := by decide
    exact fun _ _ y _ _ => hall y.pNode

theorem ring_connectorsAcyclic (fed : Bool) : (ring fed).ConnectorsAcyclic := by
  have hlink : ∀ i y, y ∈ (ring fed).graph.pinLinks .output ⟨false, i⟩ → y.pNode = true := by
    rintro (_ | i) y hy
    · rw [List.mem_singleton.mp hy]
      rfl
    · cases hy
  rintro n - hn i j hvia
  cases n with
  | true => cases hn
  | false =>
      cases hvia with
      | edge hE => cases hlink i _ hE
      | pass hE hpass _ =>
          have hconnector := hpass.2
          rw [hlink i _ hE] at hconnector
          cases hconnector

theorem optimize_leaves_link : ¬ ∀ m : LogicalMachine Bool Unit, m.nodes.Nodup → m.Sound →
    m.ConnectorsAcyclic → ∃ m', m.optimize = some m' ∧ m.Optimized m' := by
  intro h
  obtain ⟨m', hm', hoptimized⟩ :=
    h (ring false) (by decide) (ring_sound false) (ring_connectorsAcyclic false)
  have hrun : (ring false).optimize = some { nodes := [true], graph := (ring false).graph } := rfl
  obtain rfl := Option.some.inj (hrun.symm.trans hm')
  have hin := hoptimized.sound.closed .input ⟨true, 0⟩ ⟨false, 0⟩ (List.mem_singleton_self _)
    (List.mem_singleton_self _)
  cases List.mem_singleton.mp hin

theorem optimize_ring : ∃ m', (ring true).optimize = some m' ∧ (ring true).Optimized m' := by
  refine (optimize_iff (by decide) (ring_sound true) (ring_connectorsAcyclic true)).mpr ?_
  rintro pre n suf - hconnector hnil
  cases n with
  | true => cases hconnector
  | false => cases hnil

end LogicalMachine

end SRCommon
