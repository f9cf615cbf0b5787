import Mathlib.Data.List.Basic
import Mathlib.Data.List.Chain
import Mathlib.Data.List.Nodup
import Mathlib.Logic.Function.Basic
import SRCommon.Lib.RoseTree

/-!
# Which nodes get a number

The walk enters a child with the position of the child still in its counter,
so that it goes on among the children of the child from there. The nodes that
it lists are those whose positions do not decrease on the way from the root.
-/

namespace SRCommon

/-!
## Numbers of the nodes of a scene

The nodes of a scene lie in a memory and are known by their pointers.
-/

structure AiNode (ν : Type) where
  mParent : Option ν
  mChildren : List ν

/-- The nodes in a row, and their numbers. -/
structure NodeMap (ν : Type) where
  first : List ν := []
  second : ν → Option ℕ := fun _ => none

/-- What `BuildNodeMap` has at the label `retry`. -/
structure NodeWalk (ν : Type) where
  pCurrentNode : Option ν
  childId : ℕ
  stack : List ℕ
  index : ℕ
  nodeMap : NodeMap ν

section

variable {ν : Type} [DecidableEq ν]

def NodeMap.list (nodeMap : NodeMap ν) (pNode : ν) (index : ℕ) : NodeMap ν where
  first := nodeMap.first ++ [pNode]
  second := Function.update nodeMap.second pNode (some index)

namespace NodeWalk

variable (memory : ν → AiNode ν)

/-- One round, or nothing at the end. -/
def step (s : NodeWalk ν) : Option (NodeWalk ν) :=
  match s.pCurrentNode.bind fun pNode => (memory pNode).mChildren[s.childId]? with
  | some child =>
      some { s with
        pCurrentNode := child
        stack := s.childId :: s.stack
        index := s.index + 1
        nodeMap := s.nodeMap.list child (s.index + 1) }
  | none =>
      match s.stack with
      | top :: stack =>
          some { s with
            pCurrentNode := s.pCurrentNode.bind fun pNode => (memory pNode).mParent
            childId := top + 1
            stack := stack }
      | [] => none

/-- The map after at most so many rounds. -/
def run : ℕ → NodeWalk ν → Option (NodeMap ν)
  | 0, _ => none
  | fuel + 1, s =>
      match s.step memory with
      | some s' => run fuel s'
      | none => some s.nodeMap

end NodeWalk

def buildNodeMap (memory : ν → AiNode ν) (mRootNode : Option ν) (fuel : ℕ) : Option (NodeMap ν) :=
  match mRootNode with
  | none => some {}
  | some pRoot =>
      NodeWalk.run memory fuel
        { pCurrentNode := some pRoot
          childId := 0
          stack := []
          index := 0
          nodeMap := NodeMap.list {} pRoot 0 }

end

/-- A tree of nodes in a memory, with a place for every path of its shape. A path is the stack of
its positions. -/
structure NodeTree {ν : Type} (memory : ν → AiNode ν) (pRoot : ν) (shape : Rose Unit) where
  place : List ℕ → ν
  place_nil : place [] = pRoot
  children : ∀ path n, shape.at? path = some n →
    (memory (place path)).mChildren = (List.range n.children.length).map fun i => place (i :: path)
  parent : ∀ i path, (shape.at? (i :: path)).isSome →
    (memory (place (i :: path))).mParent = some (place path)
  injective : ∀ path path', (shape.at? path).isSome → (shape.at? path').isSome →
    place path = place path' → path = path'

theorem NodeTree.mChildren_getElem? {ν : Type} {memory : ν → AiNode ν} {pRoot : ν}
    {shape : Rose Unit} (tree : NodeTree memory pRoot shape) {path : List ℕ} {n : Rose Unit}
    (hn : shape.at? path = some n) (i : ℕ) :
    (memory (tree.place path)).mChildren[i]? =
      n.children[i]?.map fun _ => tree.place (i :: path) := by
  rw [tree.children path n hn, List.getElem?_map]
  by_cases hi : i < n.children.length
  · rw [List.getElem?_range hi, List.getElem?_eq_getElem hi]
    rfl
  · rw [List.getElem?_eq_none (by simpa using hi), List.getElem?_eq_none (by omega)]
    rfl

/-! ## The paths in the order of the walk -/

mutual

/-- The paths below a node that is entered with the counter at `a`, and its own. -/
def walked : Rose Unit → ℕ → List ℕ → List (List ℕ)
  | .node _ cs, a, path => path :: walkedAll cs 0 a path

def walkedAll : List (Rose Unit) → ℕ → ℕ → List ℕ → List (List ℕ)
  | [], _, _, _ => []
  | c :: cs, i, a, path =>
      (if a ≤ i then walked c i (i :: path) else []) ++ walkedAll cs (i + 1) a path

end

theorem walked_eq (n : Rose Unit) (a : ℕ) (path : List ℕ) :
    walked n a path = path :: walkedAll n.children 0 a path := by
  cases n
  rw [walked]
  rfl

theorem walkedAll_cons (c : Rose Unit) (cs : List (Rose Unit)) (i a : ℕ) (path : List ℕ) :
    walkedAll (c :: cs) i a path =
      (if a ≤ i then walked c i (i :: path) else []) ++ walkedAll cs (i + 1) a path := by
  rw [walkedAll]

theorem walkedAll_of_le {cs : List (Rose Unit)} {i a : ℕ} (h : a ≤ i) (path : List ℕ) :
    walkedAll cs i a path = walkedAll cs i i path := by
  induction cs generalizing i a with
  | nil => simp only [walkedAll]
  | cons c cs ih =>
      rw [walkedAll_cons, walkedAll_cons, if_pos h, if_pos (Nat.le_refl i),
        ih (Nat.le_succ_of_le h), ih (Nat.le_succ i)]

theorem walkedAll_of_length_le {cs : List (Rose Unit)} {i a : ℕ} (h : i + cs.length ≤ a)
    (path : List ℕ) : walkedAll cs i a path = [] := by
  induction cs generalizing i with
  | nil => rw [walkedAll]
  | cons c cs ih =>
      rw [List.length_cons] at h
      rw [walkedAll_cons, if_neg (by omega), ih (by omega), List.append_nil]

/-- The child under the counter comes first. -/
theorem walkedAll_eq_append {cs : List (Rose Unit)} {c : Rose Unit} {i j : ℕ}
    (h : cs[j]? = some c) (path : List ℕ) :
    walkedAll cs i (i + j) path =
      walked c (i + j) ((i + j) :: path) ++ walkedAll cs i (i + j + 1) path := by
  induction cs generalizing i j with
  | nil => cases h
  | cons d cs ih =>
      rw [walkedAll_cons, walkedAll_cons, if_neg (show ¬ i + j + 1 ≤ i by omega), List.nil_append]
      cases j with
      | zero =>
          obtain rfl := Option.some.inj h
          rw [Nat.add_zero, if_pos (Nat.le_refl i), walkedAll_of_le (Nat.le_succ i)]
      | succ j =>
          have hrest := ih (i := i + 1) (j := j) h
          rw [Nat.add_right_comm i 1 j, Nat.add_assoc i j 1] at hrest
          rw [if_neg (by omega), List.nil_append, hrest]

theorem mem_walkedAll {cs : List (Rose Unit)} {i a : ℕ} {path q : List ℕ} :
    q ∈ walkedAll cs i a path ↔
      ∃ j c, cs[j]? = some c ∧ a ≤ i + j ∧ q ∈ walked c (i + j) ((i + j) :: path) := by
  induction cs generalizing i with
  | nil =>
      rw [walkedAll]
      simp
  | cons d cs ih =>
      rw [walkedAll_cons, List.mem_append, ih]
      constructor
      · rintro (h | ⟨j, c, hc, ha, hq⟩)
        · split at h
          case isTrue ha => exact ⟨0, d, rfl, ha, h⟩
          case isFalse => cases h
        · rw [Nat.add_right_comm, Nat.add_assoc] at ha hq
          exact ⟨j + 1, c, hc, ha, hq⟩
      · rintro ⟨j, c, hc, ha, hq⟩
        cases j with
        | zero =>
            obtain rfl := Option.some.inj hc
            rw [Nat.add_zero] at ha hq
            exact Or.inl (by rwa [if_pos ha])
        | succ j =>
            refine Or.inr ⟨j, c, hc, ?_⟩
            rw [Nat.add_right_comm, Nat.add_assoc]
            exact ⟨ha, hq⟩

/-- The positions of the path never decrease, and start at `a` or behind it. -/
theorem mem_walked (n : Rose Unit) {a : ℕ} {path q : List ℕ} :
    q ∈ walked n a path ↔
      ∃ r, q = r ++ path ∧ (n.at? r).isSome ∧ (r ++ [a]).IsChain (· ≥ ·) := by
  induction n using Rose.induct generalizing a path q with
  | h label cs ih =>
      rw [walked_eq, List.mem_cons, mem_walkedAll]
      constructor
      · rintro (rfl | ⟨i, c, hc, ha, hq⟩)
        · exact ⟨[], rfl, rfl, List.isChain_singleton a⟩
        · rw [Nat.zero_add] at ha hq
          obtain ⟨r, rfl, hr, hchain⟩ := (ih c (List.mem_of_getElem? hc)).mp hq
          refine ⟨r ++ [i], by simp, ?_, ?_⟩
          · rw [Rose.at?_append_singleton, hc]
            exact hr
          · rw [List.append_assoc]
            exact List.isChain_split.mpr ⟨hchain, List.isChain_pair.mpr ha⟩
      · rintro ⟨r, rfl, hr, hchain⟩
        obtain rfl | ⟨r, i, rfl⟩ := r.eq_nil_or_concat'
        · exact Or.inl rfl
        · rw [Rose.at?_append_singleton, Option.isSome_bind, Option.any_eq_true] at hr
          obtain ⟨c, hc, hr⟩ := hr
          rw [List.append_assoc] at hchain
          obtain ⟨hchain, hpair⟩ := List.isChain_split.mp hchain
          refine Or.inr ⟨i, c, hc, by simpa using hpair, ?_⟩
          rw [Nat.zero_add, ih c (List.mem_of_getElem? hc)]
          exact ⟨r, by simp, hr, hchain⟩

theorem nodup_walked (n : Rose Unit) (a : ℕ) (path : List ℕ) : (walked n a path).Nodup := by
  induction n using Rose.induct generalizing a path with
  | h label cs ih =>
      have hall (ds : List (Rose Unit)) (hds : ∀ d ∈ ds, d ∈ cs) (i : ℕ) :
          (walkedAll ds i a path).Nodup := by
        induction ds generalizing i with
        | nil =>
            rw [walkedAll]
            exact List.nodup_nil
        | cons d ds ihds =>
            obtain ⟨hd, hds⟩ := List.forall_mem_cons.mp hds
            have hrest := ihds hds (i + 1)
            rw [walkedAll_cons]
            split
            · refine List.nodup_append.mpr ⟨ih d hd i (i :: path), hrest, ?_⟩
              rintro q hq _ hq' rfl
              obtain ⟨r, rfl, -, -⟩ := (mem_walked d).mp hq
              obtain ⟨j, c, -, -, hq'⟩ := mem_walkedAll.mp hq'
              obtain ⟨r', hr', -, -⟩ := (mem_walked c).mp hq'
              rw [List.append_cons, List.append_cons r', List.append_left_inj] at hr'
              have hlast := (List.append_inj' hr' rfl).2
              rw [List.cons.injEq] at hlast
              omega
            · exact hrest
      rw [walked_eq]
      refine List.nodup_cons.mpr ⟨fun hmem => ?_, hall cs (fun _ hd => hd) 0⟩
      obtain ⟨j, c, -, -, hq⟩ := mem_walkedAll.mp hmem
      obtain ⟨r, hr, -, -⟩ := (mem_walked c).mp hq
      have hlength := congrArg List.length hr
      rw [List.length_append, List.length_cons] at hlength
      omega

theorem isSome_at?_of_mem_walked {shape : Rose Unit} {path : List ℕ}
    (h : path ∈ walked shape 0 []) : (shape.at? path).isSome := by
  obtain ⟨r, rfl, hr, -⟩ := (mem_walked shape).mp h
  rwa [List.append_nil]

theorem NodeTree.nodup_map_walked {ν : Type} {memory : ν → AiNode ν} {pRoot : ν}
    {shape : Rose Unit} (tree : NodeTree memory pRoot shape) :
    ((walked shape 0 []).map tree.place).Nodup :=
  List.Nodup.map_on (fun _ hpath _ hpath' h => tree.injective _ _ (isSome_at?_of_mem_walked hpath)
    (isSome_at?_of_mem_walked hpath') h) (nodup_walked shape 0 [])

/-! ## The walk -/

section

variable {ν : Type} [DecidableEq ν] {memory : ν → AiNode ν} {pRoot : ν} {shape : Rose Unit}

namespace NodeMap

/-- The nodes are listed one after the other. -/
def append (m : NodeMap ν) (nodes : List ν) : NodeMap ν :=
  nodes.foldl (fun m pNode => m.list pNode m.first.length) m

/-- The two components are inverse to each other. -/
def Inverse (m : NodeMap ν) : Prop := ∀ pNode i, m.second pNode = some i ↔ m.first[i]? = some pNode

theorem append_append (m : NodeMap ν) (nodes nodes' : List ν) :
    m.append (nodes ++ nodes') = (m.append nodes).append nodes' := List.foldl_append

theorem first_append (m : NodeMap ν) (nodes : List ν) :
    (m.append nodes).first = m.first ++ nodes := by
  induction nodes generalizing m with
  | nil => exact (List.append_nil _).symm
  | cons pNode nodes ih =>
      change ((m.list pNode m.first.length).append nodes).first = _
      rw [ih, list, List.append_assoc]
      rfl

theorem Inverse.list {m : NodeMap ν} (h : m.Inverse) {pNode : ν} (hnew : pNode ∉ m.first) :
    (m.list pNode m.first.length).Inverse := by
  intro pOther i
  change Function.update m.second pNode (some m.first.length) pOther = some i ↔
    (m.first ++ [pNode])[i]? = some pOther
  by_cases hother : pOther = pNode
  · subst hother
    rw [Function.update_self, Option.some_inj]
    constructor
    · rintro rfl
      rw [List.getElem?_concat_length]
    · intro hget
      rcases Nat.lt_trichotomy i m.first.length with hlt | rfl | hlt
      · rw [List.getElem?_append_left hlt] at hget
        exact absurd (List.mem_of_getElem? hget) hnew
      · rfl
      · rw [List.getElem?_eq_none (by simp; omega)] at hget
        cases hget
  · rw [Function.update_of_ne hother, h]
    rcases Nat.lt_trichotomy i m.first.length with hlt | rfl | hlt
    · rw [List.getElem?_append_left hlt]
    · rw [List.getElem?_eq_none (Nat.le_refl _), List.getElem?_concat_length, Option.some_inj]
      exact iff_of_false (by simp) (Ne.symm hother)
    · rw [List.getElem?_eq_none (Nat.le_of_lt hlt), List.getElem?_eq_none (by simp; omega)]

theorem Inverse.append {m : NodeMap ν} (h : m.Inverse) {nodes : List ν}
    (hnodup : (m.first ++ nodes).Nodup) : (m.append nodes).Inverse := by
  induction nodes generalizing m with
  | nil => exact h
  | cons pNode nodes ih =>
      have hnew : pNode ∉ m.first := fun hmem =>
        (List.nodup_append.mp hnodup).2.2 pNode hmem pNode (List.mem_cons_self ..) rfl
      refine ih (h.list hnew) ?_
      change (m.first ++ [pNode] ++ nodes).Nodup
      rwa [List.append_assoc]

end NodeMap

namespace NodeWalk

/-- After some rounds the walk is at the other place. -/
def Reaches (memory : ν → AiNode ν) (s s' : NodeWalk ν) : Prop :=
  ∃ k, ∀ fuel, run memory (fuel + k) s = run memory fuel s'

theorem Reaches.refl (s : NodeWalk ν) : Reaches memory s s := ⟨0, fun _ => rfl⟩

theorem Reaches.trans {s s' s'' : NodeWalk ν} (h : Reaches memory s s')
    (h' : Reaches memory s' s'') : Reaches memory s s'' := by
  obtain ⟨k, hk⟩ := h
  obtain ⟨k', hk'⟩ := h'
  exact ⟨k' + k, fun fuel => by rw [← Nat.add_assoc, hk, hk']⟩

theorem reaches_of_step {s s' : NodeWalk ν} (h : s.step memory = some s') :
    Reaches memory s s' := ⟨1, fun fuel => by rw [run, h]⟩

end NodeWalk

namespace NodeTree

variable (tree : NodeTree memory pRoot shape) {path : List ℕ} {n : Rose Unit} {m : NodeMap ν}

/-- The walk at a node, with its counter and what it has listed. -/
def walkAt (path : List ℕ) (childId : ℕ) (m : NodeMap ν) : NodeWalk ν where
  pCurrentNode := some (tree.place path)
  childId := childId
  stack := path
  index := m.first.length - 1
  nodeMap := m

theorem step_down (hn : shape.at? path = some n) {i : ℕ} {c : Rose Unit}
    (hc : n.children[i]? = some c) (hm : m.first ≠ []) :
    (tree.walkAt path i m).step memory =
      some (tree.walkAt (i :: path) i (m.append [tree.place (i :: path)])) := by
  have hindex : m.first.length - 1 + 1 = m.first.length :=
    Nat.sub_add_cancel (List.length_pos_of_ne_nil hm)
  rw [NodeWalk.step, walkAt, Option.bind_some, tree.mChildren_getElem? hn, hc]
  simp only [Option.map_some, hindex, walkAt, NodeMap.first_append, List.length_append,
    List.length_singleton, Nat.add_sub_cancel]
  rfl

theorem step_up {i childId : ℕ} (hn : shape.at? (i :: path) = some n)
    (h : n.children.length ≤ childId) :
    (tree.walkAt (i :: path) childId m).step memory = some (tree.walkAt path (i + 1) m) := by
  have hparent := tree.parent i path (by rw [hn]; rfl)
  rw [NodeWalk.step, walkAt, Option.bind_some, tree.mChildren_getElem? hn,
    List.getElem?_eq_none h]
  simp only [Option.map_none, Option.bind_some, hparent, walkAt]

theorem step_end (hn : shape.at? [] = some n) {childId : ℕ} (h : n.children.length ≤ childId) :
    (tree.walkAt [] childId m).step memory = none := by
  rw [NodeWalk.step, walkAt, Option.bind_some, tree.mChildren_getElem? hn,
    List.getElem?_eq_none h]
  rfl

/-- All that is below a node from the counter on is listed, and the walk is back at the node. -/
theorem reaches_walkedAll (n : Rose Unit) (path : List ℕ) (hn : shape.at? path = some n) (a : ℕ)
    (m : NodeMap ν) (hm : m.first ≠ []) :
    ∃ b, n.children.length ≤ b ∧ NodeWalk.Reaches memory (tree.walkAt path a m)
      (tree.walkAt path b (m.append ((walkedAll n.children 0 a path).map tree.place))) := by
  induction n using Rose.induct generalizing path a m with
  | h label cs ih =>
      -- the children from the counter on, one after the other
      induction hk : cs.length - a generalizing a m with
      | zero =>
          refine ⟨a, by simpa [Nat.sub_eq_zero_iff_le] using hk, ?_⟩
          rw [Rose.children_node, walkedAll_of_length_le (by omega)]
          exact .refl _
      | succ k ihk =>
          have hlt : a < cs.length := by omega
          have hc : (Rose.node label cs).children[a]? = some cs[a] := List.getElem?_eq_getElem hlt
          have hchild : shape.at? (a :: path) = some cs[a] := by
            rw [Rose.at?_cons_of_some hn, hc]
          obtain ⟨b, hb, hbelow⟩ := ih cs[a] (List.getElem_mem hlt) (a :: path) hchild a
            (m.append [tree.place (a :: path)]) (by simp [NodeMap.first_append])
          obtain ⟨b', hb', hrest⟩ := ihk (a + 1)
            ((m.append [tree.place (a :: path)]).append
              ((walkedAll cs[a].children 0 a (a :: path)).map tree.place))
            (by simp [NodeMap.first_append]) (by omega)
          refine ⟨b', hb', ?_⟩
          have hlist := walkedAll_eq_append (i := 0) (j := a) hc path
          rw [Nat.zero_add, walked_eq] at hlist
          rw [hlist, List.map_append, List.map_cons, List.cons_append, ← List.singleton_append,
            NodeMap.append_append, NodeMap.append_append]
          exact ((NodeWalk.reaches_of_step (tree.step_down hn hc hm)).trans hbelow).trans
            ((NodeWalk.reaches_of_step (tree.step_up hchild hb)).trans hrest)

theorem exists_buildNodeMap :
    ∃ fuel, buildNodeMap memory (some pRoot) fuel =
      some (NodeMap.append {} ((walked shape 0 []).map tree.place)) := by
  have hroot : shape.at? [] = some shape := rfl
  obtain ⟨b, hb, k, hk⟩ := tree.reaches_walkedAll shape [] hroot 0 (NodeMap.list {} pRoot 0)
    (List.cons_ne_nil _ _)
  refine ⟨1 + k, ?_⟩
  have hstart : NodeWalk.run memory (1 + k) (tree.walkAt [] 0 (NodeMap.list {} pRoot 0)) =
      buildNodeMap memory (some pRoot) (1 + k) := by
    rw [walkAt, tree.place_nil]
    rfl
  rw [← hstart, hk, NodeWalk.run, tree.step_end hroot hb, walked_eq, List.map_cons,
    tree.place_nil]
  rfl

/-- Every node is listed exactly once, and nothing else is. -/
structure Numbered (m : NodeMap ν) : Prop where
  once : ∀ path, (shape.at? path).isSome → m.first.count (tree.place path) = 1
  only : ∀ pNode ∈ m.first, ∃ path, (shape.at? path).isSome ∧ tree.place path = pNode
  inverse : m.Inverse

/-- The map is built and complete. In every tree of the same shape, what is saved under the number
of a node is found again at the same place. -/
def NumbersAll : Prop :=
  ∃ fuel m, buildNodeMap memory (some pRoot) fuel = some m ∧ tree.Numbered m ∧
    ∀ (ν' : Type) [DecidableEq ν'] (memory' : ν' → AiNode ν') (pRoot' : ν')
      (tree' : NodeTree memory' pRoot' shape),
      ∃ fuel' m', buildNodeMap memory' (some pRoot') fuel' = some m' ∧
        ∀ path, (shape.at? path).isSome → ∃ i, m.second (tree.place path) = some i ∧
          m'.second (tree'.place path) = some i ∧ m'.first[i]? = some (tree'.place path)

/-- What `BuildNodeMap` returns in the end. -/
def numbers : NodeMap ν := NodeMap.append {} ((walked shape 0 []).map tree.place)

theorem first_numbers : tree.numbers.first = (walked shape 0 []).map tree.place :=
  NodeMap.first_append {} _

theorem inverse_numbers : tree.numbers.Inverse := by
  refine NodeMap.Inverse.append (fun pNode i => ?_) tree.nodup_map_walked
  exact iff_of_false (by simp) (by simp)

theorem second_numbers {path : List ℕ} {i : ℕ} (h : (walked shape 0 [])[i]? = some path) :
    tree.numbers.first[i]? = some (tree.place path) ∧
      tree.numbers.second (tree.place path) = some i := by
  have hfirst : tree.numbers.first[i]? = some (tree.place path) := by
    rw [first_numbers, List.getElem?_map, h]
    rfl
  exact ⟨hfirst, (tree.inverse_numbers _ _).mpr hfirst⟩

/-- The bound on the rounds does not matter for what is returned. -/
theorem run_mono {s : NodeWalk ν} {m : NodeMap ν} {fuel fuel' : ℕ} (hle : fuel ≤ fuel')
    (h : NodeWalk.run memory fuel s = some m) : NodeWalk.run memory fuel' s = some m := by
  induction fuel generalizing s fuel' with
  | zero => cases h
  | succ fuel ih =>
      obtain ⟨fuel', rfl⟩ := Nat.exists_eq_add_of_le' (Nat.lt_of_lt_of_le (Nat.succ_pos fuel) hle)
      rw [NodeWalk.run] at h ⊢
      split at h
      · exact ih (Nat.le_of_succ_le_succ hle) h
      · exact h

theorem eq_numbers {m : NodeMap ν} {fuel : ℕ}
    (h : buildNodeMap memory (some pRoot) fuel = some m) : m = tree.numbers := by
  obtain ⟨fuel', h'⟩ := tree.exists_buildNodeMap
  have hm := run_mono (Nat.le_max_left fuel fuel') h
  have hm' := run_mono (Nat.le_max_right fuel fuel') h'
  exact Option.some.inj (hm.symm.trans hm')

/-- The numbers are complete when the walk comes to every node. -/
theorem numbersAll_iff :
    tree.NumbersAll ↔ ∀ path, (shape.at? path).isSome → path ∈ walked shape 0 [] := by
  constructor
  · rintro ⟨fuel, m, hm, hnumbered, -⟩ path hpath
    obtain rfl := tree.eq_numbers hm
    have hmem : tree.place path ∈ tree.numbers.first :=
      List.count_pos_iff.mp (by rw [hnumbered.once path hpath]; exact Nat.one_pos)
    rw [first_numbers] at hmem
    obtain ⟨path', hpath', heq⟩ := List.mem_map.mp hmem
    rwa [← tree.injective path' path (isSome_at?_of_mem_walked hpath') hpath heq]
  · intro hall
    obtain ⟨fuel, hfuel⟩ := tree.exists_buildNodeMap
    refine ⟨fuel, tree.numbers, hfuel, ⟨fun path hpath => ?_, fun pNode hmem => ?_,
      tree.inverse_numbers⟩, fun ν' _ memory' pRoot' tree' => ?_⟩
    · rw [first_numbers]
      exact List.count_eq_one_of_mem tree.nodup_map_walked (List.mem_map_of_mem (hall path hpath))
    · rw [first_numbers] at hmem
      obtain ⟨path, hpath, rfl⟩ := List.mem_map.mp hmem
      exact ⟨path, isSome_at?_of_mem_walked hpath, rfl⟩
    · obtain ⟨fuel', hfuel'⟩ := tree'.exists_buildNodeMap
      refine ⟨fuel', tree'.numbers, hfuel', fun path hpath => ?_⟩
      obtain ⟨i, hi⟩ := List.mem_iff_getElem?.mp (hall path hpath)
      exact ⟨i, (tree.second_numbers hi).2, (tree'.second_numbers hi).2,
        (tree'.second_numbers hi).1⟩

end NodeTree

end

/-! ## The trees that are numbered -/

/-- Only first children have children. -/
def FirstChildrenOnly (shape : Rose Unit) : Prop :=
  ∀ i path n, shape.at? (i :: path) = some n → n.children ≠ [] → i = 0

theorem mem_walked_iff {shape : Rose Unit} {path : List ℕ} (h : (shape.at? path).isSome) :
    path ∈ walked shape 0 [] ↔ (path ++ [0]).IsChain (· ≥ ·) := by
  rw [mem_walked]
  constructor
  · rintro ⟨r, rfl, -, hchain⟩
    rwa [List.append_nil]
  · intro hchain
    exact ⟨path, (List.append_nil path).symm, h, hchain⟩

theorem forall_mem_walked_iff (shape : Rose Unit) :
    (∀ path, (shape.at? path).isSome → path ∈ walked shape 0 []) ↔ FirstChildrenOnly shape := by
  constructor
  · intro hall i path n hn hne
    have hchild : (shape.at? (0 :: i :: path)).isSome := by
      rw [Rose.at?_cons_of_some hn, List.getElem?_eq_getElem (List.length_pos_of_ne_nil hne)]
      rfl
    have hchain := (mem_walked_iff hchild).mp (hall _ hchild)
    exact Nat.le_zero.mp (List.isChain_cons_cons.mp hchain).1
  · intro hfirst path hpath
    rw [mem_walked_iff hpath]
    induction path with
    | nil => exact List.isChain_singleton 0
    | cons j path ih =>
        have hparent : (shape.at? path).isSome :=
          Rose.isSome_at?_of_suffix (List.suffix_cons j path) hpath
        have hchain := ih hparent
        cases path with
        | nil => exact List.isChain_pair.mpr (Nat.zero_le j)
        | cons i path =>
            obtain ⟨n, hn⟩ := Option.isSome_iff_exists.mp hparent
            have hne : n.children ≠ [] := by
              rintro hnil
              rw [Rose.at?_cons_of_some hn, hnil] at hpath
              cases hpath
            obtain rfl := hfirst i path n hn hne
            exact List.isChain_cons_cons.mpr ⟨Nat.zero_le j, hchain⟩

/-- The nodes of a scene are all numbered when only first children have children. -/
theorem numbersAll_iff_firstChildrenOnly {ν : Type} [DecidableEq ν] {memory : ν → AiNode ν}
    {pRoot : ν} {shape : Rose Unit} (tree : NodeTree memory pRoot shape) :
    tree.NumbersAll ↔ FirstChildrenOnly shape :=
  tree.numbersAll_iff.trans (forall_mem_walked_iff shape)

/-! ## A node without a number -/

/-- A root with two children, the second of which has one. -/
def bentShape : Rose Unit := .node () [.node () [], .node () [.node () []]]

/-- Nodes that lie at their paths. -/
def pathMemory (shape : Rose Unit) (path : List ℕ) : AiNode (List ℕ) where
  mParent := if path = [] then none else some path.tail
  mChildren := (shape.at? path).elim [] fun n => (List.range n.children.length).map (· :: path)

def pathTree (shape : Rose Unit) : NodeTree (pathMemory shape) [] shape where
  place := id
  place_nil := rfl
  children path n hn := by
    change (shape.at? path).elim [] _ = _
    rw [hn]
    rfl
  parent _ _ _ := rfl
  injective _ _ _ _ h := h

theorem not_numbersAll_bentShape : ¬ (pathTree bentShape).NumbersAll := by
  rw [NodeTree.numbersAll_iff]
  intro hall
  have hmem := hall [0, 1] rfl
  revert hmem
  decide

end SRCommon
