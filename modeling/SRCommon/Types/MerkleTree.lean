import SRCommon.Lib.ByteText
import SRCommon.Lib.LeftComplete

/-!
# Merkle trees

`PathT` and `TreeT` over any hash function. New leaves wait until something is
asked of the tree, and hashes are computed when a root is asked for. What is not
allowed throws; a null pointer that is read, a node with one child and the
overflow of `1 << height` have no result.

A node on the insertion stack is shared with the tree: its child on the side
that the element names is what stands next on the stack, or the current root.
-/

namespace SRCommon

open LeftComplete (Sibling Side)

inductive MerkleError where
  | runtimeError (what : Text)
  /-- `std::out_of_range`, of `at`. -/
  | outOfRange
deriving DecidableEq

/-- What may throw, and may have no result at all. -/
abbrev Throwing := ExceptT MerkleError Option

namespace Throwing

variable {α β : Type}

@[simp] theorem lift_some (a : α) : (liftM (some a) : Throwing α) = pure a := rfl

@[simp] theorem throw_bind (e : MerkleError) (f : α → Throwing β) :
    (throw e : Throwing α) >>= f = throw e := rfl

end Throwing

/-- `Element::direction` is the side of a sibling, with its hash. -/
structure MerklePath (η : Type) where
  leaf : η
  leafIndex : ℕ
  maxIndex : ℕ
  elements : List (Sibling η)
deriving DecidableEq

namespace MerklePath

variable {η : Type} (hashFunction : η → η → η) (p : MerklePath η)

def root : η :=
  p.elements.foldl (fun result e =>
    if e.side = .left then hashFunction e.value result else hashFunction result e.value) p.leaf

def verify [DecidableEq η] (expectedRoot : η) : Bool := p.root hashFunction = expectedRoot

end MerklePath

/-- `TreeT::Node`: with both children or with none. -/
inductive MerkleNode (η : Type) where
  | tip (hash : η) (size height : ℕ) (dirty : Bool)
  | branch (left right : MerkleNode η) (hash : η) (size height : ℕ) (dirty : Bool)

namespace MerkleNode

variable {η : Type}

def hash : MerkleNode η → η
  | tip hash _ _ _ | branch _ _ hash _ _ _ => hash

def size : MerkleNode η → ℕ
  | tip _ size _ _ | branch _ _ _ size _ _ => size

def height : MerkleNode η → ℕ
  | tip _ _ height _ | branch _ _ _ _ height _ => height

def dirty : MerkleNode η → Bool
  | tip _ _ _ dirty | branch _ _ _ _ _ dirty => dirty

def setDirty (dirty : Bool) : MerkleNode η → MerkleNode η
  | tip hash size height _ => tip hash size height dirty
  | branch left right hash size height _ => branch left right hash size height dirty

def updateSizes : MerkleNode η → MerkleNode η
  | tip hash _ _ dirty => tip hash 1 1 dirty
  | branch left right hash _ _ dirty =>
      branch left right hash (left.size + right.size + 1) (max left.height right.height + 1) dirty

def make (hash : η) : MerkleNode η := tip hash 1 1 false

/-- `make` of two children. The hash of a new node is zero. -/
def makeParent [Inhabited η] (left right : MerkleNode η) : MerkleNode η :=
  (branch left right default 0 0 true).updateSizes

/-- `(1 << height) - 1` is an `int`. -/
def isFull (n : MerkleNode η) : Option Bool :=
  if n.height < 31 then some (n.size = 2 ^ n.height - 1) else none

/-- `TreeT::hash`, which keeps a stack of its own instead of a recursion. -/
def computeHash (hashFunction : η → η → η) : MerkleNode η → Option (MerkleNode η)
  | tip _ _ _ _ => none
  | branch left right _ size height _ => do
      let left ← (if left.dirty then computeHash hashFunction left else some left : Option _)
      let right ← (if right.dirty then computeHash hashFunction right else some right : Option _)
      some (branch left right (hashFunction left.hash right.hash) size height false)

/-- The child to go on with, and the one that is left beside the path. -/
def turn (goRight : Bool) : MerkleNode η → Option (MerkleNode η × MerkleNode η)
  | tip _ _ _ _ => none
  | branch left right _ _ _ _ => some (if goRight then (right, left) else (left, right))

/-- An assignment to `left` or `right`. -/
def setChild (n : MerkleNode η) (goRight : Bool) (child : MerkleNode η) : Option (MerkleNode η) :=
  match n with
  | tip _ _ _ _ => none
  | branch left right hash size height dirty =>
      some (if goRight then branch left child hash size height dirty
        else branch child right hash size height dirty)

end MerkleNode

structure InsertionStackElement (η : Type) where
  n : MerkleNode η
  left : Bool

/-- The last element of `insertion_stack` comes first. The nodes of `leaf_nodes` and of
`uninserted_leaf_nodes` are known by their hashes. -/
structure MerkleTree (η : Type) where
  leafNodes : List η := []
  uninsertedLeafNodes : List η := []
  /-- `_root`. -/
  rootNode : Option (MerkleNode η) := none
  numFlushed : ℕ := 0
  insertionStack : List (InsertionStackElement η) := []

namespace MerkleTree

variable {η : Type}

/-! ## Indices -/

section

variable (t : MerkleTree η)

def numLeaves : ℕ := t.numFlushed + t.leafNodes.length + t.uninsertedLeafNodes.length

def minIndex : ℕ := t.numFlushed

def maxIndex : ℕ := if t.numLeaves = 0 then 0 else t.numLeaves - 1

def isEmpty : Bool := t.numLeaves = 0

def vectorAt (hashes : List η) (index : ℕ) : Throwing η :=
  match hashes[index]? with
  | some hash => pure hash
  | none => throw .outOfRange

/-- The difference of two `size_t`. -/
def sub64 (a b : ℕ) : ℕ := (a + 2 ^ 64 - b) % 2 ^ 64

/-- `leaf_node`, and `leaf` with it. -/
def leaf (index : ℕ) : Throwing η :=
  if t.numLeaves ≤ index then throw (.runtimeError (Text.lit "leaf index out of bounds"))
  else if t.leafNodes.length ≤ sub64 index t.numFlushed then
    vectorAt t.uninsertedLeafNodes (sub64 (sub64 index t.numFlushed) t.leafNodes.length)
  else vectorAt t.leafNodes (sub64 index t.numFlushed)

end

/-! ## Insertion -/

def insert (t : MerkleTree η) (hash : η) : MerkleTree η :=
  { t with uninsertedLeafNodes := t.uninsertedLeafNodes ++ [hash] }

/-- The way down to the node that gets a new parent. -/
def continueInsertionStack [Inhabited η] (newLeaf : MerkleNode η) :
    List (InsertionStackElement η) → MerkleNode η → Option (List (InsertionStackElement η))
  | stack, .tip hash size height dirty => do
      let n : MerkleNode η := .tip hash size height dirty
      if ← n.isFull then some (⟨.makeParent n newLeaf, false⟩ :: stack) else none
  | stack, .branch left right hash size height dirty => do
      let n : MerkleNode η := .branch left right hash size height dirty
      if ← n.isFull then some (⟨.makeParent n newLeaf, false⟩ :: stack)
      else if ← left.isFull then
        continueInsertionStack newLeaf (⟨n.setDirty true, false⟩ :: stack) right
      else continueInsertionStack newLeaf (⟨n.setDirty true, true⟩ :: stack) left

/-- The loop of `process_insertion_stack`. -/
def processLoop (complete : Bool) (result : MerkleNode η) :
    List (InsertionStackElement η) →
      Option (MerkleNode η × List (InsertionStackElement η))
  | [] => some (result, [])
  | top :: stack => do
      let n ← top.n.setChild (!top.left) result
      let result := (n.setDirty true).updateSizes
      if complete then processLoop complete result stack
      else if ← result.isFull then processLoop complete result stack
      else some (result, stack)

def processInsertionStack (complete : Bool) :
    List (InsertionStackElement η) → Option (MerkleNode η × List (InsertionStackElement η))
  | [] => none
  | top :: stack => processLoop complete top.n.updateSizes stack

def insertLeaf [Inhabited η] (t : MerkleTree η) (hash : η) : Option (MerkleTree η) := do
  let t := { t with leafNodes := t.leafNodes ++ [hash] }
  match t.rootNode with
  | none =>
      if t.insertionStack.isEmpty then some { t with rootNode := some (.make hash) } else none
  | some root =>
      let stack ← continueInsertionStack (.make hash) t.insertionStack root
      let (root, stack) ← processInsertionStack false stack
      some { t with rootNode := some root, insertionStack := stack }

/-- The current root is the child of what stands on top of the stack. -/
def completeInsertion (t : MerkleTree η) : Option (MerkleTree η) :=
  match t.insertionStack with
  | [] => some t
  | top :: stack => do
      let n ← top.n.setChild (!top.left) (← t.rootNode)
      let (root, stack) ← processInsertionStack true (⟨n, top.left⟩ :: stack)
      some { t with rootNode := some root, insertionStack := stack }

def insertLeaves [Inhabited η] (complete : Bool) (t : MerkleTree η) :
    Option (MerkleTree η) := do
  let t ← t.uninsertedLeafNodes.foldlM insertLeaf { t with uninsertedLeafNodes := [] }
  if complete then completeInsertion t else some t

/-- The number of nodes. -/
def size [Inhabited η] (t : MerkleTree η) : Option (MerkleTree η × ℕ) := do
  let t ← insertLeaves false t
  some (t, (t.rootNode.map MerkleNode.size).getD 0)

/-! ## The root and the walks -/

section

variable [Inhabited η] (hashFunction : η → η → η)

/-- `compute_root`, with the root. -/
def computeRoot (t : MerkleTree η) : Throwing (MerkleTree η × MerkleNode η) := do
  let t ← insertLeaves true t
  if t.numLeaves = 0 then
    throw (.runtimeError (Text.lit "empty tree does not have a root"))
  let root ← t.rootNode
  let root ← (if root.dirty then root.computeHash hashFunction else some root : Option _)
  pure ({ t with rootNode := some root }, root)

def root (t : MerkleTree η) : Throwing (MerkleTree η × η) := do
  let (t, root) ← computeRoot hashFunction t
  pure (t, root.hash)

/-- The highest bit says where to go. -/
def goesRight (it : ℕ) : Bool := 2 ^ 63 ≤ it

/-- `it <<= 1`. -/
def shift (it : ℕ) : ℕ := it * 2 % 2 ^ 64

/-- The bits of an index that a walk from the root reads. -/
def startBits (root : MerkleNode η) (index : ℕ) : ℕ :=
  if 1 < root.height then index * 2 ^ (64 - root.height + 1) % 2 ^ 64 else 0

/-- The loop of `walk_to`. The function may change what it collects and the node, and says if the
walk goes on from there. With the node as it is at the end comes the leaf; `update` changes the
nodes on the way back. The fuel counts the rounds. -/
def walkLoop {σ : Type} (update : Bool)
    (f : σ → MerkleNode η → Bool → Option (σ × MerkleNode η × Bool)) :
    ℕ → ℕ → ℕ → σ → MerkleNode η → Option (σ × MerkleNode η × MerkleNode η)
  | 0, _, _, _, _ => none
  | fuel + 1, height, it, s, cur => do
      if height ≤ 1 then some (s, cur, cur)
      else
        let updated := fun (n : MerkleNode η) => if update then n.updateSizes else n
        if cur.height = height then
          let (s, cur, goesOn) ← f s cur (goesRight it)
          if goesOn then
            let (child, _) ← cur.turn (goesRight it)
            let (s, child, leaf) ← walkLoop update f fuel (height - 1) (shift it) s child
            some (s, updated (← cur.setChild (goesRight it) child), leaf)
          else
            let (s, cur, leaf) ← walkLoop update f fuel height it s cur
            some (s, updated cur, leaf)
        else
          let (s, cur, leaf) ← walkLoop update f fuel (height - 1) (shift it) s cur
          some (s, updated cur, leaf)

/-- At most two rounds for each height. -/
def walkTo {σ : Type} (t : MerkleTree η) (index : ℕ) (update : Bool)
    (f : σ → MerkleNode η → Bool → Option (σ × MerkleNode η × Bool)) (s : σ) :
    Throwing (MerkleTree η × σ × MerkleNode η) := do
  if index < t.minIndex ∨ t.maxIndex < index then
    throw (.runtimeError (Text.lit "invalid leaf index"))
  let (t, root) ← computeRoot hashFunction t
  let (s, root, leaf) ←
    walkLoop update f (2 * root.height) root.height (startBits root index) s root
  pure ({ t with rootNode := some root }, s, leaf)

/-- What `path` collects at a node. -/
def collectSibling (elements : List (Sibling η)) (n : MerkleNode η) (goRight : Bool) :
    Option (List (Sibling η) × MerkleNode η × Bool) := do
  let (_, beside) ← n.turn goRight
  let e : Sibling η := ⟨beside.hash, if goRight then .left else .right⟩
  some (e :: elements, n, true)

def path (t : MerkleTree η) (index : ℕ) : Throwing (MerkleTree η × MerklePath η) := do
  let (t, elements, _) ← walkTo hashFunction t index false collectSibling []
  let leaf ← t.leaf index
  pure (t, ⟨leaf, index, t.maxIndex, elements⟩)

def pastRoot (t : MerkleTree η) (index : ℕ) : Throwing (MerkleTree η × η) := do
  let (t, p) ← t.path hashFunction index
  pure (t, p.elements.foldl (fun result e =>
    if e.side = .left then hashFunction e.value result else result) p.leaf)

/-- What `flush_to` does to the left child where the walk goes to the right. -/
def conflate (_ : Unit) (n : MerkleNode η) (goRight : Bool) :
    Option (Unit × MerkleNode η × Bool) :=
  match n with
  | .branch left right hash size height dirty =>
      if goRight then do
        let left ← (if left.dirty then left.computeHash hashFunction else some left : Option _)
        some ((), .branch (.tip left.hash left.size left.height left.dirty) right hash size height
          dirty, true)
      else some ((), n, true)
  | .tip _ _ _ _ => some ((), n, true)

def flushTo (t : MerkleTree η) (index : ℕ) : Throwing (MerkleTree η) := do
  if index ≤ t.minIndex then return t
  let (t, _, _) ← walkTo hashFunction t index false (conflate hashFunction) ()
  let numNewlyFlushed := index - t.numFlushed
  pure { t with
    leafNodes := t.leafNodes.drop numNewlyFlushed
    numFlushed := t.numFlushed + numNewlyFlushed }

/-- What `retract_to` does at a node: where the walk goes to the left, the left child takes the
place of the node. -/
def eliminate (_ : Unit) (n : MerkleNode η) (goRight : Bool) :
    Option (Unit × MerkleNode η × Bool) :=
  match n with
  | .branch left right hash size height _ =>
      if goRight then some ((), .branch left right hash size height true, true)
      else
        match left with
        | .tip _ _ _ _ => some ((), left, false)
        | .branch _ _ _ _ _ _ => some ((), left.setDirty true, false)
  | .tip hash size height _ => some ((), .tip hash size height true, true)

def retractTo (t : MerkleTree η) (index : ℕ) : Throwing (MerkleTree η) := do
  if t.maxIndex < index then return t
  if index < t.minIndex then
    throw (.runtimeError (Text.lit "leaf index out of bounds"))
  if t.numFlushed + t.leafNodes.length ≤ index then
    let numOver := index - (t.numFlushed + t.leafNodes.length) + 1
    return { t with uninsertedLeafNodes := t.uninsertedLeafNodes.take numOver }
  let (t, _, newLeafNode) ← walkTo hashFunction t index true eliminate ()
  if t.leafNodes.length ≤ index - t.numFlushed then throw .outOfRange
  let leafNodes := t.leafNodes.set (index - t.numFlushed) newLeafNode.hash
  let numRetracted := t.numLeaves - index - 1
  pure { t with
    leafNodes := if numRetracted < leafNodes.length then
        leafNodes.take (leafNodes.length - numRetracted)
      else [] }

/-! ## Past paths -/

/-- What `past_path` keeps while it walks to two leaves at once. -/
structure PastWalk (η : Type) where
  curI : MerkleNode η
  curA : MerkleNode η
  isForked : Bool
  rootToFork : List (Sibling η)
  forkToIndex : List (Sibling η)
  forkToAsOf : List (Sibling η)

def siblingAt (goRight : Bool) (n : MerkleNode η) : Option (MerkleNode η × Sibling η) := do
  let (child, beside) ← n.turn goRight
  some (child, ⟨beside.hash, if goRight then .left else .right⟩)

def PastWalk.turnToIndex (height : ℕ) (goRight : Bool) (w : PastWalk η) : Option (PastWalk η) :=
  if w.curI.height = height then do
    let (child, e) ← siblingAt goRight w.curI
    some { w with curI := child, forkToIndex := w.forkToIndex ++ [e] }
  else some w

/-- What is to the right of the path to `asOf` was not there yet. -/
def PastWalk.turnToAsOf (height : ℕ) (goRight : Bool) (w : PastWalk η) : Option (PastWalk η) :=
  if w.curA.height = height then do
    let (child, e) ← siblingAt goRight w.curA
    some { w with
      curA := child
      forkToAsOf := if goRight then w.forkToAsOf ++ [e] else w.forkToAsOf }
  else some w

def pastRound (height : ℕ) (goRightI goRightA : Bool) (w : PastWalk η) : Option (PastWalk η) := do
  let w := { w with isForked := w.isForked || goRightI != goRightA }
  if !w.isForked then
    if w.curI.height = height then
      let (child, e) ← siblingAt goRightI w.curI
      some { w with
        curI := child
        curA := child
        rootToFork := if goRightI then w.rootToFork ++ [e] else w.rootToFork }
    else some w
  else
    let w ← w.turnToIndex height goRightI
    w.turnToAsOf height goRightA

def pastLoop : ℕ → ℕ → ℕ → PastWalk η → Option (PastWalk η)
  | height + 2, itI, itA, w => do
      let w ← pastRound (height + 2) (goesRight itI) (goesRight itA) w
      pastLoop (height + 1) (shift itI) (shift itA) w
  | _, _, _, w => some w

/-- The three parts of the path that were recorded, from the leaf to the root. -/
def PastWalk.path (w : PastWalk η) : List (Sibling η) :=
  let asOfHash := w.forkToAsOf.tail.reverse.foldl (fun hash e => hashFunction e.value hash)
    w.curA.hash
  w.forkToIndex.tail.reverse ++ (if w.isForked then [⟨asOfHash, .right⟩] else []) ++
    w.rootToFork.reverse

def pastPath (t : MerkleTree η) (index asOf : ℕ) : Throwing (MerkleTree η × MerklePath η) := do
  if (index < t.minIndex ∨ t.maxIndex < index) ∨ (asOf < t.minIndex ∨ t.maxIndex < asOf) ∨
      asOf < index then
    throw (.runtimeError (Text.lit "invalid leaf indices"))
  let (t, root) ← computeRoot hashFunction t
  let w ← pastLoop root.height (startBits root index) (startBits root asOf)
    ⟨root, root, false, [], [], []⟩
  let leaf ← t.leaf index
  pure (t, ⟨leaf, index, asOf, w.path hashFunction⟩)

end

end MerkleTree

end SRCommon
