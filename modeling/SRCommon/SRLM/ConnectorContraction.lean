import Mathlib.Algebra.GroupWithZero.Nat
import SRCommon.SRLM.ConnectorLinks

/-!
# A connector less

When a connector is bypassed, the nodes that it linked are linked directly,
and the links are stored at both ends as before.
-/

namespace SRCommon

variable {ν δ : Type}

namespace LogicalMachine

open LogicalGraph

theorem mem_connections {m : LogicalMachine ν δ} {side : PinSide} {x : NodeConnect ν} {n : ν} :
    x ∈ m.connections side n ↔ ∃ i, x ∈ m.graph.pinLinks side ⟨n, i⟩ := by
  unfold connections
  rw [List.mem_flatMap]
  constructor
  · rintro ⟨pin, hpin, hx⟩
    obtain ⟨i, hi, rfl⟩ := List.mem_iff_getElem.mp hpin
    refine ⟨i, ?_⟩
    rw [pinLinks, LogicalNode.links, List.getElem?_eq_getElem hi]
    exact hx
  · rintro ⟨i, hx⟩
    have hi := lt_length_of_mem_pinLinks hx
    rw [pinLinks, LogicalNode.links, List.getElem?_eq_getElem hi] at hx
    exact ⟨_, List.getElem_mem hi, hx⟩

end LogicalMachine

variable [DecidableEq ν]

theorem countP_pinIndex_succ (n : ν) (k : ℕ) (cs : List (NodeConnect ν)) :
    (cs.countP fun c => c.pNode = n ∧ c.pinIndex < k) + cs.count ⟨n, k⟩ =
      cs.countP fun c => c.pNode = n ∧ c.pinIndex < k + 1 := by
  induction cs with
  | nil => rfl
  | cons c cs ih =>
      rw [List.countP_cons, List.countP_cons, List.count_cons, ← ih]
      simp only [decide_eq_true_eq, beq_iff_eq, NodeConnect.ext_iff]
      by_cases hn : c.pNode = n
      · simp only [hn, true_and]
        split_ifs <;> omega
      · simp only [hn, false_and, if_false]
        omega

theorem sum_count_pinIndex (n : ν) (k : ℕ) (cs : List (NodeConnect ν)) :
    ((List.range k).map fun i => cs.count ⟨n, i⟩).sum =
      cs.countP fun c => c.pNode = n ∧ c.pinIndex < k := by
  induction k with
  | zero => simp
  | succ k ih =>
      rw [List.range_succ, List.map_append, List.sum_append, ih, ← countP_pinIndex_succ]
      simp

namespace LogicalMachine

open LogicalGraph

variable {m m' : LogicalMachine ν δ} {side : PinSide} {x y : NodeConnect ν} {n pNode : ν}

/-- Links between nodes that are not deleted are stored at both ends, and there are no others. -/
structure Sound (m : LogicalMachine ν δ) : Prop where
  balanced : ∀ side x y, x.pNode ∈ m.nodes → y.pNode ∈ m.nodes →
    (m.graph.pinLinks side x).count y = (m.graph.pinLinks side.other y).count x
  closed : ∀ side x y, x.pNode ∈ m.nodes → y ∈ m.graph.pinLinks side x → y.pNode ∈ m.nodes

theorem Sound.mem_iff (h : m.Sound) (hx : x.pNode ∈ m.nodes) (hy : y.pNode ∈ m.nodes) :
    y ∈ m.graph.pinLinks side x ↔ x ∈ m.graph.pinLinks side.other y := by
  rw [← List.count_pos_iff, ← List.count_pos_iff, h.balanced side x y hx hy]

theorem Sound.live (h : m.Sound) (hx : x.pNode ∈ m.nodes) (hy : y ∈ m.graph.pinLinks side x) :
    m.Live side.other y := by
  have hnode := h.closed side x y hx hy
  exact ⟨hnode, lt_length_of_mem_pinLinks ((h.mem_iff hx hnode).mp hy)⟩

theorem count_connections (side : PinSide) (n : ν) (x : NodeConnect ν) :
    (m.connections side n).count x =
      ((List.range ((m.graph n).pins side).length).map fun i =>
        (m.graph.pinLinks side ⟨n, i⟩).count x).sum := by
  rw [connections, List.count_flatMap]
  congr 1
  apply List.ext_getElem
  · simp
  · intro i hi hi'
    rw [List.length_map] at hi
    simp [pinLinks, LogicalNode.links, List.getElem?_eq_getElem hi]

/-- The links of a node are counted at their far ends. -/
theorem Sound.count_connections (h : m.Sound) (hn : n ∈ m.nodes) (hx : x.pNode ∈ m.nodes) :
    (m.connections side n).count x = m.graph.linksTo side.other x n := by
  have hsum : (fun i => (m.graph.pinLinks side ⟨n, i⟩).count x) =
      fun i => (m.graph.pinLinks side.other x).count ⟨n, i⟩ :=
    funext fun i => h.balanced side ⟨n, i⟩ x hn hx
  rw [LogicalMachine.count_connections, hsum, sum_count_pinIndex]
  apply List.countP_congr
  intro c hc
  have hlive := h.live hx hc
  rw [PinSide.other_other] at hlive
  simp only [decide_eq_true_eq]
  constructor
  · exact fun hand => hand.1
  · rintro rfl
    exact ⟨rfl, hlive.2⟩

/-- The pins of an incoming and of an outgoing link are not those of the connector. -/
def Loopless (m : LogicalMachine ν δ) (n : ν) : Prop :=
  ∀ i j, ⟨n, j⟩ ∉ m.graph.pinLinks .output ⟨n, i⟩

theorem Sound.ne_of_mem_connections (h : m.Sound) (hn : n ∈ m.nodes) (hloop : m.Loopless n)
    (hx : x ∈ m.connections side n) : x.pNode ≠ n := by
  obtain ⟨i, hi⟩ := mem_connections.mp hx
  intro heq
  obtain ⟨a, j⟩ := x
  change a = n at heq
  subst heq
  cases side with
  | output => exact hloop i j hi
  | input =>
      have hmirror := (h.mem_iff (x := ⟨a, i⟩) (y := ⟨a, j⟩) hn hn).mp hi
      exact hloop j i hmirror

/-- What is left when a connector is bypassed. -/
theorem Sound.bypass (h : m.Sound) (hn : n ∈ m.nodes) (hnodup : m.nodes.Nodup)
    (hloop : m.Loopless n)
    (hfed : m.connections .input n = [] → m.connections .output n = []) :
    ∃ m', m.bypass n = some m' ∧ m'.nodes = m.nodes.erase n ∧
      (∀ k, (m'.graph k).type = (m.graph k).type) ∧ m'.Sound ∧
      ∀ x y, x.pNode ∈ m'.nodes → y.pNode ∈ m'.nodes →
        (y ∈ m'.graph.pinLinks .output x ↔ y ∈ m.graph.pinLinks .output x ∨
          x ∈ m.connections .input n ∧ y ∈ m.connections .output n) := by
  have hinputs : ∀ a ∈ m.connections .input n, m.Live .output a := fun a ha => by
    obtain ⟨i, hi⟩ := mem_connections.mp ha
    have hlive := h.live (x := ⟨n, i⟩) hn hi
    exact hlive
  have houtputs : ∀ b ∈ m.connections .output n, m.Live .input b := fun b hb => by
    obtain ⟨i, hi⟩ := mem_connections.mp hb
    have hlive := h.live (x := ⟨n, i⟩) hn hi
    exact hlive
  obtain ⟨hout, hin, htoOut, htoIn⟩ := bypassLinks_counts (g := m.graph)
    (fun a ha => ⟨h.ne_of_mem_connections hn hloop ha, (hinputs a ha).2⟩)
    (fun b hb => ⟨h.ne_of_mem_connections hn hloop hb, (houtputs b hb).2⟩)
  have hnodes : ∀ a, a ∈ m.nodes.erase n ↔ a ≠ n ∧ a ∈ m.nodes := fun a => hnodup.mem_erase_iff
  have hgone : ∀ side x y, x.pNode ∈ m.nodes → y ∈ ((m.connections .input n).foldl
      (bypassLink n (m.connections .output n)) m.graph).pinLinks side x → y.pNode ≠ n := by
    intro side x y hx hy heq
    have hpos : 0 < ((m.connections .input n).foldl
        (bypassLink n (m.connections .output n)) m.graph).linksTo side x n :=
      List.countP_pos_iff.mpr ⟨y, hy, by simpa using heq⟩
    cases side with
    | output =>
        have hcount : (m.connections .input n).count x = m.graph.linksTo .output x n :=
          h.count_connections hn hx
        rw [htoOut] at hpos
        omega
    | input =>
        have hcount : (m.connections .output n).count x = m.graph.linksTo .input x n :=
          h.count_connections hn hx
        rw [htoIn, ← hcount] at hpos
        rcases Nat.eq_zero_or_pos (m.connections .input n).length with hlength | hlength
        · rw [hfed (List.length_eq_zero_iff.mp hlength), List.count_nil] at hpos
          omega
        · have hle := Nat.le_mul_of_pos_left ((m.connections .output n).count x) hlength
          omega
  refine ⟨_, bypass_eq hinputs houtputs, rfl, type_bypassLinks _ _, ⟨?_, ?_⟩, ?_⟩
  · intro side x y hx hy
    dsimp only at hx hy ⊢
    rw [hnodes] at hx hy
    cases side with
    | output =>
        change List.count y _ = List.count x (pinLinks _ .input y)
        rw [hout x y hy.1, hin x y hx.1, h.balanced .output x y hx.2 hy.2]
        rfl
    | input =>
        change List.count y _ = List.count x (pinLinks _ .output y)
        rw [hin y x hy.1, hout y x hx.1, h.balanced .input x y hx.2 hy.2]
        rfl
  · intro side x y hx hy
    dsimp only at hx hy ⊢
    rw [hnodes] at hx ⊢
    have hne := hgone side x y hx.2 hy
    refine ⟨hne, ?_⟩
    rw [← List.count_pos_iff] at hy
    cases side with
    | output =>
        rw [hout x y hne] at hy
        rcases Nat.add_pos_iff_pos_or_pos.mp hy with hold | hnew
        · exact h.closed .output x y hx.2 (List.count_pos_iff.mp hold)
        · have hmem := List.count_pos_iff.mp (Nat.pos_of_mul_pos_left hnew)
          exact (houtputs y hmem).1
    | input =>
        rw [hin y x hne] at hy
        rcases Nat.add_pos_iff_pos_or_pos.mp hy with hold | hnew
        · exact h.closed .input x y hx.2 (List.count_pos_iff.mp hold)
        · have hmem := List.count_pos_iff.mp (Nat.pos_of_mul_pos_right hnew)
          exact (hinputs y hmem).1
  · intro x y hx hy
    dsimp only at hx hy ⊢
    rw [hnodes] at hx hy
    rw [← List.count_pos_iff, hout x y hy.1, Nat.add_pos_iff_pos_or_pos, List.count_pos_iff]
    exact or_congr Iff.rfl
      ⟨fun hpos => ⟨List.count_pos_iff.mp (Nat.pos_of_mul_pos_right hpos),
        List.count_pos_iff.mp (Nat.pos_of_mul_pos_left hpos)⟩,
      fun hmem => Nat.mul_pos (List.count_pos_iff.mpr hmem.1) (List.count_pos_iff.mpr hmem.2)⟩

end LogicalMachine

end SRCommon
