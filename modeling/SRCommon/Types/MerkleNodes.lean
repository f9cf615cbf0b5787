import SRCommon.Types.MerkleTree

/-!
# What the nodes stand for

A node is built over a list of leaves, the first of which may be conflated. The
insertion stack holds the nodes above the current root, each with a full left
child, and a new leaf goes to the right of all that is there.
-/

namespace SRCommon

open LeftComplete

namespace MerkleNode

variable {η : Type}

/-- The node over some leaves. The first `flushed` of them may be conflated, and the hash of a node
that is not dirty is their value. -/
inductive BuiltOver (hashFunction : η → η → η) : ℕ → List η → MerkleNode η → Prop
  | leaf (flushed : ℕ) (a : η) : BuiltOver hashFunction flushed [a] (.tip a 1 1 false)
  | conflated {flushed k : ℕ} {l : List η} {hash : η} (hk : l.length = 2 ^ k)
      (hflushed : l.length ≤ flushed) (hhash : fold hashFunction l = some hash) :
      BuiltOver hashFunction flushed l (.tip hash (2 * l.length - 1) (k + 1) false)
  | node {flushed k : ℕ} {l₁ l₂ : List η} {left right : MerkleNode η} {hash : η} {dirty : Bool}
      (hleft : BuiltOver hashFunction flushed l₁ left)
      (hright : BuiltOver hashFunction (flushed - l₁.length) l₂ right)
      (hk : l₁.length = 2 ^ k) (hpos : 0 < l₂.length) (hle : l₂.length ≤ 2 ^ k)
      (hclean : dirty = false → left.dirty = false ∧ right.dirty = false ∧
        hash = hashFunction left.hash right.hash) :
      BuiltOver hashFunction flushed (l₁ ++ l₂)
        (.branch left right hash (2 * (l₁.length + l₂.length) - 1) (k + 2) dirty)

variable {hashFunction : η → η → η} {flushed k : ℕ} {l l₁ l₂ : List η}
  {n left right : MerkleNode η}

namespace BuiltOver

theorem length_pos (h : BuiltOver hashFunction flushed l n) : 0 < l.length := by
  cases h with
  | leaf flushed a => simp
  | conflated hk hflushed hhash => exact hk ▸ Nat.two_pow_pos _
  | node hleft hright hk hpos hle hclean =>
      rw [List.length_append]
      omega

theorem ne_nil (h : BuiltOver hashFunction flushed l n) : l ≠ [] :=
  List.ne_nil_of_length_pos h.length_pos

theorem size_eq (h : BuiltOver hashFunction flushed l n) : n.size = 2 * l.length - 1 := by
  cases h with
  | leaf flushed a => rfl
  | conflated hk hflushed hhash => rfl
  | node hleft hright hk hpos hle hclean =>
      rw [List.length_append]
      rfl

theorem height_pos (h : BuiltOver hashFunction flushed l n) : 1 ≤ n.height := by
  cases h <;> simp [height]

theorem length_le (h : BuiltOver hashFunction flushed l n) : l.length ≤ 2 ^ (n.height - 1) := by
  cases h with
  | leaf flushed a => simp [height]
  | conflated hk hflushed hhash => exact hk.le
  | node hleft hright hk hpos hle hclean => exact length_append_le hk hle

theorem height_le (h : BuiltOver hashFunction flushed l n) (hl : l.length ≤ 2 ^ k) :
    n.height ≤ k + 1 := by
  cases h with
  | leaf flushed a => exact Nat.le_add_left 1 k
  | @conflated _ j _ _ hk hflushed hhash =>
      rw [hk] at hl
      exact Nat.succ_le_succ ((Nat.pow_le_pow_iff_right (Nat.lt_succ_self 1)).mp hl)
  | @node _ j _ _ _ _ _ _ hleft hright hk hpos hle hclean =>
      rw [List.length_append] at hl
      have hlt : 2 ^ j < 2 ^ k := by omega
      have hlt : j < k := (Nat.pow_lt_pow_iff_right (Nat.lt_succ_self 1)).mp hlt
      simp only [height]
      omega

theorem height_eq (h : BuiltOver hashFunction flushed l n) (hk : l.length = 2 ^ k) :
    n.height = k + 1 := by
  have hle := h.height_le hk.le
  have hlength := h.length_le
  rw [hk] at hlength
  have hge := (Nat.pow_le_pow_iff_right (Nat.lt_succ_self 1)).mp hlength
  have hpos := h.height_pos
  omega

theorem mono (h : BuiltOver hashFunction flushed l n) {flushed' : ℕ} (hle : flushed ≤ flushed') :
    BuiltOver hashFunction flushed' l n := by
  induction h generalizing flushed' with
  | leaf flushed a => exact .leaf _ a
  | conflated hk hflushed hhash => exact .conflated hk (hflushed.trans hle) hhash
  | node hleft hright hk hpos hcap hclean ihLeft ihRight =>
      exact .node (ihLeft hle) (ihRight (Nat.sub_le_sub_right hle _)) hk hpos hcap hclean

/-- A clean node has the value of its leaves. -/
theorem fold_eq (h : BuiltOver hashFunction flushed l n) (hclean : n.dirty = false) :
    fold hashFunction l = some n.hash := by
  induction h with
  | leaf flushed a => exact fold_singleton a
  | conflated hk hflushed hhash => exact hhash
  | node hleft hright hk hpos hle hdirty ihLeft ihRight =>
      obtain ⟨hl, hr, hhash⟩ := hdirty hclean
      simp only [MerkleNode.hash, hhash]
      exact fold_append hk hpos hle (ihLeft hl) (ihRight hr)

theorem hash_eq (h : BuiltOver hashFunction flushed l n) (hclean : n.dirty = false) {flushed' : ℕ}
    {m : MerkleNode η} (hm : BuiltOver hashFunction flushed' l m) (hclean' : m.dirty = false) :
    n.hash = m.hash :=
  Option.some.inj ((h.fold_eq hclean).symm.trans (hm.fold_eq hclean'))

theorem isFull_eq (h : BuiltOver hashFunction flushed l n) (hl : l.length ≤ 2 ^ 29) :
    n.isFull = some (decide (l.length = 2 ^ (n.height - 1))) := by
  have hheight : n.height < 31 := Nat.lt_succ_of_le (h.height_le hl)
  have hpos := h.length_pos
  have hpow : 2 ^ n.height = 2 * 2 ^ (n.height - 1) := by
    rw [← Nat.pow_succ', Nat.succ_eq_add_one, Nat.sub_add_cancel h.height_pos]
  rw [isFull, if_pos hheight, h.size_eq]
  congr 1
  apply decide_eq_decide.mpr
  omega

/-- What `update_sizes` makes of the sizes of two children. -/
theorem updateSizes_branch (hleft : BuiltOver hashFunction flushed l₁ left)
    (hright : BuiltOver hashFunction (flushed - l₁.length) l₂ right) (hk : l₁.length = 2 ^ k)
    (hle : l₂.length ≤ 2 ^ k) (hash : η) (size height : ℕ) (dirty : Bool) :
    (MerkleNode.branch left right hash size height dirty).updateSizes =
      .branch left right hash (2 * (l₁.length + l₂.length) - 1) (k + 2) dirty := by
  have hpos₁ := hleft.length_pos
  have hpos₂ := hright.length_pos
  have hsize : left.size + right.size + 1 = 2 * (l₁.length + l₂.length) - 1 := by
    rw [hleft.size_eq, hright.size_eq]
    omega
  have hheight : max left.height right.height + 1 = k + 2 := by
    rw [hleft.height_eq hk, Nat.max_eq_left (hright.height_le hle)]
  rw [updateSizes, hsize, hheight]

theorem parent (hleft : BuiltOver hashFunction flushed l₁ left)
    (hright : BuiltOver hashFunction (flushed - l₁.length) l₂ right) (hk : l₁.length = 2 ^ k)
    (hle : l₂.length ≤ 2 ^ k) (hash : η) (size height : ℕ) :
    BuiltOver hashFunction flushed (l₁ ++ l₂)
      (MerkleNode.branch left right hash size height true).updateSizes := by
  rw [updateSizes_branch hleft hright hk hle]
  apply BuiltOver.node hleft hright hk hright.length_pos hle
  intro h
  cases h

/-- The sizes are right where a leaf is not flushed. -/
theorem updateSizes_eq (h : BuiltOver hashFunction flushed l n) (hflushed : flushed < l.length) :
    n.updateSizes = n := by
  cases h with
  | leaf flushed a => rfl
  | conflated hk hle hhash => exact absurd hle (Nat.not_le.mpr hflushed)
  | node hleft hright hk hpos hle hclean => exact updateSizes_branch hleft hright hk hle _ _ _ _

theorem exists_cleaned (h : BuiltOver hashFunction flushed l n)
    (hcompute : n.dirty = true → ∃ n', n.computeHash hashFunction = some n' ∧
      BuiltOver hashFunction flushed l n' ∧ n'.dirty = false) :
    ∃ n', (if n.dirty then n.computeHash hashFunction else some n) = some n' ∧
      BuiltOver hashFunction flushed l n' ∧ n'.dirty = false := by
  cases hd : n.dirty with
  | true => simpa using hcompute hd
  | false => exact ⟨n, rfl, h, hd⟩

/-- All dirty nodes below a node get their hashes. -/
theorem computeHash (h : BuiltOver hashFunction flushed l n) (hdirty : n.dirty = true) :
    ∃ n', n.computeHash hashFunction = some n' ∧ BuiltOver hashFunction flushed l n' ∧
      n'.dirty = false := by
  induction h with
  | leaf flushed a => cases hdirty
  | conflated hk hflushed hhash => cases hdirty
  | @node _ k l₁ l₂ left right _ _ hleft hright hk hpos hle hclean ihLeft ihRight =>
      obtain ⟨left', hcomputed, hleft', hl⟩ := hleft.exists_cleaned ihLeft
      obtain ⟨right', hcomputed', hright', hr⟩ := hright.exists_cleaned ihRight
      refine ⟨_, ?_, .node hleft' hright' hk hpos hle fun _ => ⟨hl, hr, rfl⟩, rfl⟩
      rw [MerkleNode.computeHash, hcomputed, Option.bind_eq_bind, Option.bind_some, hcomputed']
      rfl

/-- What `compute_root` does with the root. -/
theorem cleaned (h : BuiltOver hashFunction flushed l n) :
    ∃ n', (if n.dirty then n.computeHash hashFunction else some n) = some n' ∧
      BuiltOver hashFunction flushed l n' ∧ n'.dirty = false :=
  h.exists_cleaned h.computeHash

end BuiltOver

end MerkleNode

namespace MerkleTree

open MerkleNode (BuiltOver)

variable {η : Type} {hashFunction : η → η → η} {flushed cap : ℕ} {l p q : List η}
  {n : MerkleNode η} {stack : List (InsertionStackElement η)}

/-! ## The insertion stack -/

/-- The nodes on the stack hold the leaves `q` in their left children. Below them is room for at
most `2 ^ cap` leaves. -/
inductive Spine (hashFunction : η → η → η) (flushed : ℕ) :
    ℕ → List (InsertionStackElement η) → List η → Prop
  | nil (cap : ℕ) : Spine hashFunction flushed cap [] []
  | cons {cap cap' : ℕ} {stack : List (InsertionStackElement η)} {q l : List η}
      {left right : MerkleNode η} {hash : η} {size height : ℕ}
      (hrest : Spine hashFunction flushed cap' stack q)
      (hleft : BuiltOver hashFunction (flushed - q.length) l left) (hcap : l.length = 2 ^ cap)
      (hlt : cap < cap') :
      Spine hashFunction flushed cap (⟨.branch left right hash size height true, false⟩ :: stack)
        (q ++ l)

/-- The stack and the current root under it hold the leaves. -/
def Unfinished (hashFunction : η → η → η) (flushed : ℕ) (stack : List (InsertionStackElement η))
    (n : MerkleNode η) (l : List η) : Prop :=
  ∃ cap q p, Spine hashFunction flushed cap stack q ∧
    BuiltOver hashFunction (flushed - q.length) p n ∧ p.length < 2 ^ cap ∧ l = q ++ p

theorem unfinished_nil_iff :
    Unfinished hashFunction flushed [] n l ↔ BuiltOver hashFunction flushed l n := by
  constructor
  · rintro ⟨cap, q, p, hspine, hbuilt, -, rfl⟩
    cases hspine
    simpa using hbuilt
  · intro h
    exact ⟨l.length, [], l, .nil _, by simpa using h, Nat.lt_two_pow_self, by simp⟩

/-- A node with a new right child. -/
theorem attach (left right : MerkleNode η) (hash : η) (size height : ℕ)
    (hleft : BuiltOver hashFunction (flushed - q.length) l left) (hcap : l.length = 2 ^ cap)
    (hn : BuiltOver hashFunction (flushed - (q ++ l).length) p n) (hle : p.length ≤ 2 ^ cap) :
    ∃ n', (MerkleNode.branch left right hash size height true).setChild true n = some n' ∧
      BuiltOver hashFunction (flushed - q.length) (l ++ p) (n'.setDirty true).updateSizes ∧
      (n'.setDirty true).updateSizes.height = cap + 2 := by
  rw [List.length_append, ← Nat.sub_sub] at hn
  refine ⟨_, rfl, hleft.parent hn hcap hle hash size height, ?_⟩
  simp only [if_true, MerkleNode.setDirty]
  rw [hleft.updateSizes_branch hn hcap hle]
  rfl

theorem processLoop_true (hspine : Spine hashFunction flushed cap stack q)
    (hn : BuiltOver hashFunction (flushed - q.length) p n) (hle : p.length ≤ 2 ^ cap) :
    ∃ n', processLoop true n stack = some (n', []) ∧
      BuiltOver hashFunction flushed (q ++ p) n' := by
  induction hspine generalizing n p with
  | nil cap => exact ⟨n, rfl, by simpa using hn⟩
  | @cons cap cap' stack q l left right hash size height hrest hleft hcap hlt ih =>
      obtain ⟨parent, hset, hbuilt, -⟩ := attach left right hash size height hleft hcap hn hle
      have hroom : (l ++ p).length ≤ 2 ^ cap' :=
        (length_append_le hcap hle).trans (Nat.pow_le_pow_right Nat.two_pos hlt)
      obtain ⟨n', hprocess, hn'⟩ := ih hbuilt hroom
      refine ⟨n', ?_, by rwa [List.append_assoc]⟩
      simpa [processLoop, hset] using hprocess

/-- Without completion the loop ends at a node with room. -/
theorem processLoop_false (hspine : Spine hashFunction flushed cap stack q)
    (hn : BuiltOver hashFunction (flushed - q.length) p n) (hle : p.length ≤ 2 ^ cap)
    (hfits : (q ++ p).length ≤ 2 ^ 29) :
    ∃ n' stack', processLoop false n stack = some (n', stack') ∧
      Unfinished hashFunction flushed stack' n' (q ++ p) := by
  induction hspine generalizing n p with
  | nil cap => exact ⟨n, [], rfl, unfinished_nil_iff.mpr (by simpa using hn)⟩
  | @cons cap cap' stack q l left right hash size height hrest hleft hcap hlt ih =>
      obtain ⟨parent, hset, hbuilt, hheight⟩ :=
        attach left right hash size height hleft hcap hn hle
      have hlength := length_append_le hcap hle
      have hroom : 2 ^ (cap + 1) ≤ 2 ^ cap' := Nat.pow_le_pow_right Nat.two_pos hlt
      rw [List.append_assoc] at hfits ⊢
      have hfull := hbuilt.isFull_eq (le_trans (by simp) hfits)
      rw [hheight, show cap + 2 - 1 = cap + 1 from rfl] at hfull
      rcases hlength.lt_or_eq with hnotFull | hwhole
      · rw [decide_eq_false hnotFull.ne] at hfull
        refine ⟨_, stack, ?_, cap', q, l ++ p, hrest, hbuilt, hnotFull.trans_le hroom, rfl⟩
        simp [processLoop, hset, hfull]
      · rw [decide_eq_true hwhole] at hfull
        obtain ⟨n', stack', hprocess, hn'⟩ := ih hbuilt (hlength.trans hroom) hfits
        refine ⟨n', stack', ?_, hn'⟩
        simpa [processLoop, hset, hfull] using hprocess

/-! ## A new leaf -/

section

variable [Inhabited η]

/-- A full node gets a parent, with the new leaf to its right. -/
theorem makeParent_full (hn : BuiltOver hashFunction flushed p n) {k : ℕ} (hk : p.length = 2 ^ k)
    (a : η) :
    BuiltOver hashFunction flushed (p ++ [a]) (.makeParent n (.make a)) ∧
      (MerkleNode.makeParent n (.make a)).updateSizes = .makeParent n (.make a) := by
  have hleaf : BuiltOver hashFunction (flushed - p.length) [a] (.make a) := .leaf _ a
  have hle : [a].length ≤ 2 ^ k := Nat.one_le_two_pow
  refine ⟨hn.parent hleaf hk hle _ _ _, ?_⟩
  rw [MerkleNode.makeParent, hn.updateSizes_branch hleaf hk hle,
    hn.updateSizes_branch hleaf hk hle]

/-- On top of the stack is a node over the last of the leaves, with room for it. -/
def Extended (hashFunction : η → η → η) (flushed : ℕ) (stack : List (InsertionStackElement η))
    (l : List η) : Prop :=
  ∃ top rest cap q p, stack = ⟨top, false⟩ :: rest ∧ Spine hashFunction flushed cap rest q ∧
    BuiltOver hashFunction (flushed - q.length) p top ∧ top.updateSizes = top ∧
    p.length ≤ 2 ^ cap ∧ l = q ++ p

theorem continueInsertionStack_full (newLeaf : MerkleNode η)
    (stack : List (InsertionStackElement η)) (hfull : n.isFull = some true) :
    continueInsertionStack newLeaf stack n = some (⟨.makeParent n newLeaf, false⟩ :: stack) := by
  cases n <;> simp [continueInsertionStack, hfull]

theorem extended_of_full (hn : BuiltOver hashFunction (flushed - q.length) p n)
    (hspine : Spine hashFunction flushed cap stack q) (hroom : p.length < 2 ^ cap)
    (hfits : (q ++ p).length < 2 ^ 29) (hwhole : p.length = 2 ^ (n.height - 1)) (a : η) :
    ∃ stack', continueInsertionStack (.make a) stack n = some stack' ∧
      Extended hashFunction flushed stack' (q ++ p ++ [a]) := by
  have hisFull := hn.isFull_eq (le_trans (by simp) hfits.le)
  rw [decide_eq_true hwhole] at hisFull
  obtain ⟨hparent, hsizes⟩ := makeParent_full hn hwhole a
  refine ⟨_, continueInsertionStack_full _ _ hisFull, _, stack, cap, q, p ++ [a], rfl, hspine,
    hparent, hsizes, ?_, by simp⟩
  rw [List.length_append]
  exact hroom

/-- The way down ends at a full node, which has room beside it. -/
theorem continueInsertionStack_eq (a : η) {f : ℕ} (hn : BuiltOver hashFunction f p n)
    (hf : f = flushed - q.length) (hspine : Spine hashFunction flushed cap stack q)
    (hroom : p.length < 2 ^ cap) (hfits : (q ++ p).length < 2 ^ 29) :
    ∃ stack', continueInsertionStack (.make a) stack n = some stack' ∧
      Extended hashFunction flushed stack' (q ++ p ++ [a]) := by
  induction hn generalizing stack cap q with
  | leaf f b => exact extended_of_full (.leaf _ b) hspine hroom hfits rfl a
  | conflated hk hflushed hhash =>
      have hn := BuiltOver.conflated hk hflushed hhash
      rw [hf] at hn
      exact extended_of_full hn hspine hroom hfits hk a
  | @node f k l₁ l₂ left right hash dirty hleft hright hk hpos hle hclean ihLeft ihRight =>
      have hn := BuiltOver.node hleft hright hk hpos hle hclean
      by_cases hwhole : (l₁ ++ l₂).length = 2 ^ (k + 1)
      · rw [hf] at hn
        exact extended_of_full hn hspine hroom hfits hwhole a
      · have hsmall : (l₁ ++ l₂).length ≤ 2 ^ 29 := le_trans (by simp) hfits.le
        have hisFull := (hn.isFull_eq hsmall).trans (congrArg some (decide_eq_false hwhole))
        have hleftFull := hleft.isFull_eq (le_trans (by simp) hsmall)
        rw [hleft.height_eq hk, Nat.add_sub_cancel, decide_eq_true hk] at hleftFull
        rw [List.length_append, pow_succ] at hwhole
        rw [List.length_append] at hroom
        have hlt : 2 ^ k < 2 ^ cap := by omega
        have hcap : k < cap := (Nat.pow_lt_pow_iff_right (Nat.lt_succ_self 1)).mp hlt
        have hf' : f - l₁.length = flushed - (q ++ l₁).length := by
          rw [List.length_append, hf, Nat.sub_sub]
        have hspine' : Spine hashFunction flushed k (⟨.branch left right hash
            (2 * (l₁.length + l₂.length) - 1) (k + 2) true, false⟩ :: stack) (q ++ l₁) :=
          hspine.cons (hf ▸ hleft) hk hcap
        rw [← List.append_assoc] at hfits ⊢
        obtain ⟨stack', hcontinue, hextended⟩ := ihRight hf' hspine' (by omega) hfits
        refine ⟨stack', ?_, hextended⟩
        rw [continueInsertionStack]
        simpa [hisFull, hleftFull, MerkleNode.setDirty] using hcontinue

end

/-! ## The leaves of a tree -/

/-- The leaves that have their nodes, the flushed ones too. -/
structure Inserted (hashFunction : η → η → η) (t : MerkleTree η) (l : List η) : Prop where
  empty : t.rootNode = none → l = [] ∧ t.insertionStack = []
  nodes : ∀ root, t.rootNode = some root →
    Unfinished hashFunction t.numFlushed t.insertionStack root l
  leafNodes : t.leafNodes = l.drop t.numFlushed
  flushed : t.numFlushed ≤ l.length - 1

/-- All leaves, in the order of their insertion. -/
def Represents (hashFunction : η → η → η) (t : MerkleTree η) (l : List η) : Prop :=
  ∃ inserted, t.Inserted hashFunction inserted ∧ l = inserted ++ t.uninsertedLeafNodes

/-- Nothing is left to do. -/
structure Settled (hashFunction : η → η → η) (t : MerkleTree η) (l : List η)
    (root : MerkleNode η) : Prop where
  rootNode : t.rootNode = some root
  built : BuiltOver hashFunction t.numFlushed l root
  clean : root.dirty = false
  insertionStack : t.insertionStack = []
  uninsertedLeafNodes : t.uninsertedLeafNodes = []
  leafNodes : t.leafNodes = l.drop t.numFlushed
  flushed : t.numFlushed < l.length

variable {t : MerkleTree η}

theorem represents_empty : ({} : MerkleTree η).Represents hashFunction [] :=
  ⟨[], ⟨fun _ => ⟨rfl, rfl⟩, fun _ h => (by cases h), rfl, Nat.le_refl _⟩, rfl⟩

theorem Inserted.of_root {root : MerkleNode η} (hroot : t.rootNode = some root)
    (hnodes : Unfinished hashFunction t.numFlushed t.insertionStack root l)
    (hleafNodes : t.leafNodes = l.drop t.numFlushed) (hflushed : t.numFlushed ≤ l.length - 1) :
    t.Inserted hashFunction l := by
  refine ⟨fun h => ?_, fun r hr => ?_, hleafNodes, hflushed⟩
  · cases hroot.symm.trans h
  · cases hroot.symm.trans hr
    exact hnodes

/-- The stack is worked off from the current root on. -/
theorem completeInsertion_eq (h : t.Inserted hashFunction l) :
    ∃ t', t.completeInsertion = some t' ∧ t'.Inserted hashFunction l ∧ t'.insertionStack = [] ∧
      t'.numFlushed = t.numFlushed ∧ t'.uninsertedLeafNodes = t.uninsertedLeafNodes := by
  cases hstack : t.insertionStack with
  | nil => exact ⟨t, by rw [completeInsertion, hstack], h, hstack, rfl, rfl⟩
  | cons top rest =>
      cases hroot : t.rootNode with
      | none =>
          have hempty := (h.empty hroot).2
          rw [hstack] at hempty
          cases hempty
      | some root =>
          have hunfinished := h.nodes root hroot
          rw [hstack] at hunfinished
          obtain ⟨cap, q, p, hspine, hbuilt, hroom, rfl⟩ := hunfinished
          cases hspine with
          | @cons _ cap' _ q l left right hash size height hrest hleft hcap hlt =>
              rw [List.length_append, ← Nat.sub_sub] at hbuilt
              have hparent := hleft.parent hbuilt hcap hroom.le hash size height
              have hroom' : (l ++ p).length ≤ 2 ^ cap' :=
                (length_append_le hcap hroom.le).trans (Nat.pow_le_pow_right Nat.two_pos hlt)
              obtain ⟨root', hprocess, hroot'⟩ := processLoop_true hrest hparent hroom'
              rw [← List.append_assoc] at hroot'
              refine ⟨{ t with rootNode := some root', insertionStack := [] }, ?_,
                .of_root rfl (unfinished_nil_iff.mpr hroot') h.leafNodes h.flushed, rfl, rfl, rfl⟩
              rw [completeInsertion]
              simp [hstack, hroot, MerkleNode.setChild, processInsertionStack, hprocess]

theorem numLeaves_eq (h : t.Represents hashFunction l) : t.numLeaves = l.length := by
  obtain ⟨inserted, hinserted, rfl⟩ := h
  have hle := hinserted.flushed
  rw [numLeaves, hinserted.leafNodes, List.length_drop, List.length_append]
  omega

theorem maxIndex_eq (h : t.Represents hashFunction l) : t.maxIndex = l.length - 1 := by
  rw [maxIndex, numLeaves_eq h]
  split <;> omega

theorem Settled.represents {root : MerkleNode η} (h : t.Settled hashFunction l root) :
    t.Represents hashFunction l := by
  refine ⟨l, .of_root h.rootNode ?_ h.leafNodes ?_, by rw [h.uninsertedLeafNodes, List.append_nil]⟩
  · rw [h.insertionStack]
    exact unfinished_nil_iff.mpr h.built
  · exact Nat.le_sub_one_of_lt h.flushed

variable [Inhabited η]

theorem insertLeaf_eq (h : t.Inserted hashFunction l) (hfits : l.length < 2 ^ 29) (a : η) :
    ∃ t', t.insertLeaf a = some t' ∧ t'.Inserted hashFunction (l ++ [a]) ∧
      t'.numFlushed = t.numFlushed ∧ t'.uninsertedLeafNodes = t.uninsertedLeafNodes := by
  have hle : t.numFlushed ≤ l.length := h.flushed.trans (Nat.sub_le _ _)
  have hflushed : t.numFlushed ≤ (l ++ [a]).length - 1 := by simpa using hle
  have hleafNodes : t.leafNodes ++ [a] = (l ++ [a]).drop t.numFlushed := by
    rw [h.leafNodes, List.drop_append_of_le_length hle]
  cases hroot : t.rootNode with
  | none =>
      obtain ⟨rfl, hstack⟩ := h.empty hroot
      refine ⟨{ t with leafNodes := t.leafNodes ++ [a], rootNode := some (.make a) }, ?_,
        .of_root rfl ?_ hleafNodes hflushed, rfl, rfl⟩
      · rw [insertLeaf]
        simp [hroot, hstack]
      · simp only [hstack]
        exact unfinished_nil_iff.mpr (.leaf _ a)
  | some root =>
      obtain ⟨cap, q, p, hspine, hbuilt, hroom, rfl⟩ := h.nodes root hroot
      obtain ⟨stack, hcontinue, top, rest, cap', q', p', rfl, hspine', htop, hsizes, hroom',
        heq⟩ := continueInsertionStack_eq a hbuilt rfl hspine hroom hfits
      have hfits' : (q' ++ p').length ≤ 2 ^ 29 := by
        rw [← heq, List.length_append]
        exact hfits
      obtain ⟨root', stack', hprocess, hunfinished⟩ :=
        processLoop_false hspine' htop hroom' hfits'
      refine ⟨{ t with
          leafNodes := t.leafNodes ++ [a]
          rootNode := some root'
          insertionStack := stack' }, ?_, .of_root rfl ?_ hleafNodes hflushed, rfl, rfl⟩
      · rw [insertLeaf]
        simp [hroot, hcontinue, processInsertionStack, hsizes, hprocess]
      · rwa [heq]

theorem insertLeaf_foldlM_eq (hashes : List η) (h : t.Inserted hashFunction l)
    (hfits : (l ++ hashes).length ≤ 2 ^ 29) :
    ∃ t', hashes.foldlM insertLeaf t = some t' ∧ t'.Inserted hashFunction (l ++ hashes) ∧
      t'.numFlushed = t.numFlushed ∧ t'.uninsertedLeafNodes = t.uninsertedLeafNodes := by
  induction hashes generalizing t l with
  | nil => exact ⟨t, rfl, by simpa using h, rfl, rfl⟩
  | cons a hashes ih =>
      rw [List.append_cons] at hfits
      have hlt : l.length < 2 ^ 29 := by
        rw [List.length_append, List.length_append, List.length_singleton] at hfits
        omega
      obtain ⟨t₁, hinsert, h₁, hflushed₁, hwaiting₁⟩ := insertLeaf_eq h hlt a
      obtain ⟨t', hrest, h', hflushed', hwaiting'⟩ := ih h₁ hfits
      refine ⟨t', ?_, by simpa using h', hflushed'.trans hflushed₁, hwaiting'.trans hwaiting₁⟩
      rw [List.foldlM_cons, hinsert]
      exact hrest

theorem insertLeaves_false_eq (h : t.Represents hashFunction l) (hfits : l.length ≤ 2 ^ 29) :
    ∃ t', insertLeaves false t = some t' ∧ t'.Inserted hashFunction l ∧
      t'.numFlushed = t.numFlushed ∧ t'.uninsertedLeafNodes = [] := by
  obtain ⟨inserted, hinserted, rfl⟩ := h
  have hinserted' : Inserted hashFunction { t with uninsertedLeafNodes := [] } inserted :=
    ⟨hinserted.empty, hinserted.nodes, hinserted.leafNodes, hinserted.flushed⟩
  obtain ⟨t', hfold, h', hflushed, hwaiting⟩ := insertLeaf_foldlM_eq _ hinserted' hfits
  refine ⟨t', ?_, h', hflushed, hwaiting⟩
  rw [insertLeaves, hfold]
  rfl

theorem insertLeaves_true_eq (h : t.Represents hashFunction l) (hfits : l.length ≤ 2 ^ 29) :
    ∃ t', insertLeaves true t = some t' ∧ t'.Inserted hashFunction l ∧ t'.insertionStack = [] ∧
      t'.numFlushed = t.numFlushed ∧ t'.uninsertedLeafNodes = [] := by
  obtain ⟨t₁, hinsert, h₁, hflushed₁, hwaiting₁⟩ := insertLeaves_false_eq h hfits
  obtain ⟨t', hcomplete, h', hstack, hflushed', hwaiting'⟩ := completeInsertion_eq h₁
  refine ⟨t', ?_, h', hstack, hflushed'.trans hflushed₁, hwaiting'.trans hwaiting₁⟩
  rw [insertLeaves] at hinsert ⊢
  obtain ⟨t₂, hfold, heq⟩ := Option.bind_eq_some_iff.mp hinsert
  obtain rfl : t₂ = t₁ := by simpa using heq
  rw [hfold]
  simpa using hcomplete

/-- The root of a tree with leaves is up to date afterwards, and has their value. -/
theorem computeRoot_eq (h : t.Represents hashFunction l) (hfits : l.length ≤ 2 ^ 29)
    (hl : l ≠ []) :
    ∃ t' root, t.computeRoot hashFunction = pure (t', root) ∧ t'.Settled hashFunction l root ∧
      t'.numFlushed = t.numFlushed := by
  obtain ⟨t₁, hinsert, h₁, hstack, hflushed, hwaiting⟩ := insertLeaves_true_eq h hfits
  have hpos := List.length_pos_iff.mpr hl
  have hnum : ¬ t₁.numLeaves = 0 := by
    rw [numLeaves_eq ⟨l, h₁, by rw [hwaiting, List.append_nil]⟩]
    omega
  cases hroot : t₁.rootNode with
  | none => exact absurd (h₁.empty hroot).1 hl
  | some root =>
      have hnodes := h₁.nodes root hroot
      rw [hstack] at hnodes
      obtain ⟨root', hcleaned, hbuilt, hclean⟩ := (unfinished_nil_iff.mp hnodes).cleaned
      refine ⟨{ t₁ with rootNode := some root' }, root', ?_, ?_, hflushed⟩
      · rw [computeRoot, hinsert]
        simp [hnum, hroot, hcleaned]
      · refine ⟨rfl, hbuilt, hclean, hstack, hwaiting, h₁.leafNodes, ?_⟩
        have hle := h₁.flushed
        change t₁.numFlushed < l.length
        omega

theorem computeRoot_empty (h : t.Represents hashFunction []) :
    t.computeRoot hashFunction =
      throw (.runtimeError (Text.lit "empty tree does not have a root")) := by
  obtain ⟨t₁, hinsert, h₁, hstack, hflushed, hwaiting⟩ :=
    insertLeaves_true_eq h (Nat.zero_le _)
  have hnum : t₁.numLeaves = ([] : List η).length :=
    numLeaves_eq ⟨[], h₁, by rw [hwaiting, List.append_nil]⟩
  rw [computeRoot, hinsert]
  simp [hnum]

end MerkleTree

end SRCommon
