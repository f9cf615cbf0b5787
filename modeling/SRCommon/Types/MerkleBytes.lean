import SRCommon.Lib.LittleEndian
import SRCommon.Types.MerkleRuns

/-!
# Merkle trees as bytes

A tree, a segment of it and a path are written to bytes and read again. What is
left of the bytes stands for the position of the reader. Of the leaves that are
not written the hashes of full nodes are, and the tree that is read back is
built from the leaves up, level by level.
-/

namespace SRCommon

open LeftComplete (Sibling Side Blocks earlier blocks_earlier exists_path fold)

def serialiseUInt64 (n : ℕ) : List UInt8 :=
  (List.range 8).map fun i => UInt8.ofNat (n / 2 ^ (8 * (8 - i - 1)))

/-- The bits of the bytes do not overlap. -/
def deserialiseUInt64 (bytes : List UInt8) : Throwing (ℕ × List UInt8) :=
  (List.range 8).foldlM (fun (r, bytes) i =>
    match bytes with
    | [] => throw .outOfRange
    | b :: bytes => pure (r + b.toNat * 2 ^ (8 * (8 - i - 1)), bytes)) (0, bytes)

@[simp] theorem length_serialiseUInt64 (n : ℕ) : (serialiseUInt64 n).length = 8 := rfl

theorem deserialiseUInt64_serialiseUInt64 {n : ℕ} (h : n < 2 ^ 64) (bytes : List UInt8) :
    deserialiseUInt64 (serialiseUInt64 n ++ bytes) = pure (n, bytes) := by
  have hrange : List.range 8 = [0, 1, 2, 3, 4, 5, 6, 7] := rfl
  rw [deserialiseUInt64, serialiseUInt64, hrange]
  simp only [List.map_cons, List.map_nil, List.cons_append, List.nil_append, List.foldlM_cons,
    List.foldlM_nil, pure_bind, UInt8.toNat_ofNat']
  congr 2
  omega

structure HashT (size : ℕ) where
  bytes : List UInt8
  length_bytes : bytes.length = size
deriving DecidableEq

namespace HashT

variable {size : ℕ}

instance : Inhabited (HashT size) := ⟨List.replicate size 0, List.length_replicate⟩

def serialise (h : HashT size) : List UInt8 := h.bytes

/-- The first bytes, where there are enough. -/
def copy (size : ℕ) (bytes : List UInt8) : Option (HashT size × List UInt8) :=
  if h : size ≤ bytes.length then
    some (⟨bytes.take size, List.length_take_of_le h⟩, bytes.drop size)
  else none

def deserialise (size : ℕ) (bytes : List UInt8) : Throwing (HashT size × List UInt8) :=
  match copy size bytes with
  | some r => pure r
  | none => throw (.runtimeError (Text.lit "not enough bytes"))

@[simp] theorem copy_serialise (h : HashT size) (bytes : List UInt8) :
    copy size (h.serialise ++ bytes) = some (h, bytes) := by
  obtain ⟨own, rfl⟩ := h
  simp [copy, serialise]

@[simp] theorem deserialise_serialise (h : HashT size) (bytes : List UInt8) :
    deserialise size (h.serialise ++ bytes) = pure (h, bytes) := by
  rw [deserialise, copy_serialise]

@[simp] theorem length_serialise (h : HashT size) : h.serialise.length = size := h.length_bytes

end HashT

namespace MerklePath

variable {size : ℕ}

def serialise (p : MerklePath (HashT size)) : List UInt8 :=
  p.leaf.serialise ++ serialiseUInt64 p.leafIndex ++ serialiseUInt64 p.maxIndex ++
    serialiseUInt64 p.elements.length ++
    p.elements.flatMap fun e => e.value.serialise ++ [if e.side = .left then 1 else 0]

def serialisedSize (p : MerklePath (HashT size)) : ℕ :=
  size + 8 + 8 + 8 + p.elements.length * (size + 1)

def deserialiseElements (size : ℕ) :
    ℕ → List UInt8 → Throwing (List (Sibling (HashT size)) × List UInt8)
  | 0, bytes => pure ([], bytes)
  | n + 1, bytes => do
      let (hash, bytes) ← HashT.deserialise size bytes
      match bytes with
      | [] => throw .outOfRange
      | b :: bytes => do
          let (elements, bytes) ← deserialiseElements size n bytes
          pure (⟨hash, if b ≠ 0 then .left else .right⟩ :: elements, bytes)

def deserialise (size : ℕ) (bytes : List UInt8) :
    Throwing (MerklePath (HashT size) × List UInt8) := do
  let (leaf, bytes) ← HashT.deserialise size bytes
  let (leafIndex, bytes) ← deserialiseUInt64 bytes
  let (maxIndex, bytes) ← deserialiseUInt64 bytes
  let (numElements, bytes) ← deserialiseUInt64 bytes
  let (elements, bytes) ← deserialiseElements size numElements bytes
  pure (⟨leaf, leafIndex, maxIndex, elements⟩, bytes)

theorem length_serialise (p : MerklePath (HashT size)) :
    p.serialise.length = p.serialisedSize := by
  simp [serialise, serialisedSize, List.length_flatMap]
  omega

theorem deserialiseElements_serialise (elements : List (Sibling (HashT size)))
    (bytes : List UInt8) :
    deserialiseElements size elements.length
      ((elements.flatMap fun e => e.value.serialise ++ [if e.side = .left then 1 else 0]) ++
        bytes) = pure (elements, bytes) := by
  induction elements with
  | nil => rfl
  | cons e elements ih =>
      have hside : (if (if e.side = .left then (1 : UInt8) else 0) ≠ 0 then Side.left
          else .right) = e.side := by
        cases e.side <;> rfl
      rw [List.flatMap_cons, List.length_cons, deserialiseElements, List.append_assoc,
        List.append_assoc, HashT.deserialise_serialise]
      simp only [pure_bind, List.singleton_append]
      rw [ih, hside]
      rfl

/-- A path that is written and read is the same path. -/
theorem path_read_back (p : MerklePath (HashT size)) (hindex : p.leafIndex < 2 ^ 64)
    (hmax : p.maxIndex < 2 ^ 64) (hlength : p.elements.length < 2 ^ 64) (bytes : List UInt8) :
    deserialise size (p.serialise ++ bytes) = pure (p, bytes) := by
  simp only [deserialise, serialise, List.append_assoc, HashT.deserialise_serialise, pure_bind,
    deserialiseUInt64_serialiseUInt64 hindex, deserialiseUInt64_serialiseUInt64 hmax,
    deserialiseUInt64_serialiseUInt64 hlength, deserialiseElements_serialise]

theorem path_read_back_sample :
    deserialise 1 (serialise ⟨⟨[1], rfl⟩, 0, 1, [⟨⟨[2], rfl⟩, .right⟩]⟩ ++ [7]) =
      pure (⟨⟨[1], rfl⟩, 0, 1, [⟨⟨[2], rfl⟩, .right⟩]⟩, [7]) :=
  path_read_back ⟨⟨[1], rfl⟩, 0, 1, [⟨⟨[2], rfl⟩, .right⟩]⟩ (by decide) (by decide) (by decide) [7]

end MerklePath

namespace MerkleTree

variable {size : ℕ}

section

variable (hashFunction : HashT size → HashT size → HashT size) (t : MerkleTree (HashT size))

/-- What is left of the walk when it goes to the right. -/
def collectExtra (extras : List (HashT size)) (n : MerkleNode (HashT size)) (goRight : Bool) :
    Option (List (HashT size) × MerkleNode (HashT size) × Bool) :=
  match n with
  | .branch left _ _ _ _ _ => some (if goRight then extras ++ [left.hash] else extras, n, true)
  | .tip _ _ _ _ => if goRight then none else some (extras, n, true)

/-- The nodes on the left edge, the last one first. -/
def serialiseExtras (index : ℕ) : Throwing (MerkleTree (HashT size) × List UInt8) := do
  let (t, _) ← t.computeRoot hashFunction
  let (t, extras, _) ← t.walkTo hashFunction index false collectExtra []
  pure (t, extras.reverse.flatMap HashT.serialise)

def serialise : Throwing (MerkleTree (HashT size) × List UInt8) := do
  let bytes := serialiseUInt64 (t.leafNodes.length + t.uninsertedLeafNodes.length) ++
    serialiseUInt64 t.numFlushed ++ t.leafNodes.flatMap HashT.serialise ++
    t.uninsertedLeafNodes.flatMap HashT.serialise
  if t.isEmpty then
    return (t, bytes)
  let (t, extras) ← t.serialiseExtras hashFunction t.minIndex
  pure (t, bytes ++ extras)

/-- `serialise` of a segment. -/
def serialiseSegment (first last : ℕ) : Throwing (MerkleTree (HashT size) × List UInt8) := do
  if (first < t.minIndex ∨ t.maxIndex < first) ∨ (last < t.minIndex ∨ t.maxIndex < last) ∨
      last < first then
    throw (.runtimeError (Text.lit "invalid leaf indices"))
  let leaves ← (List.range' first (last - first + 1)).mapM t.leaf
  let bytes := serialiseUInt64 (last - first + 1) ++ serialiseUInt64 first ++
    leaves.flatMap HashT.serialise
  if t.isEmpty then
    return (t, bytes)
  let (t, extras) ← t.serialiseExtras hashFunction first
  pure (t, bytes ++ extras)

def countExtra (numExtras : ℕ) (n : MerkleNode (HashT size)) (goRight : Bool) :
    Option (ℕ × MerkleNode (HashT size) × Bool) :=
  some (if goRight then numExtras + 1 else numExtras, n, true)

def serialisedSize : Throwing (MerkleTree (HashT size) × ℕ) := do
  if t.isEmpty then
    return (t, 8 + 8 + t.leafNodes.length * size + 0 * size)
  let (t, numExtras, _) ← t.walkTo hashFunction t.minIndex false countExtra 0
  pure (t, 8 + 8 + t.leafNodes.length * size + numExtras * size)

/-- `serialised_size` of a segment. -/
def serialisedSizeSegment (first last : ℕ) : Throwing (MerkleTree (HashT size) × ℕ) := do
  let (t, numExtras, _) ← t.walkTo hashFunction first false countExtra 0
  pure (t, 8 + 8 + (last - first + 1) * size + numExtras * size)

end

/-- Leaves are read without a look at how many bytes there are. -/
def readLeaves (size : ℕ) : ℕ → List UInt8 → Option (List (HashT size) × List UInt8)
  | 0, bytes => some ([], bytes)
  | n + 1, bytes => do
      let (hash, bytes) ← HashT.copy size bytes
      let (hashes, bytes) ← readLeaves size n bytes
      some (hash :: hashes, bytes)

/-- An extra hash on the left edge stands for a full node. -/
def restoreExtra (levelNo : ℕ) (level : List (MerkleNode (HashT size))) (bytes : List UInt8) :
    Throwing (List (MerkleNode (HashT size)) × List UInt8) := do
  let (h, bytes) ← HashT.deserialise size bytes
  let height := levelNo + 1
  if height < 31 then pure (.tip h (2 ^ height - 1) height false :: level, bytes)
  else liftM none

def rebuildLevel {η : Type} [Inhabited η] : List (MerkleNode η) → List (MerkleNode η)
  | [] => []
  | [n] => [n]
  | left :: right :: level => .makeParent left right :: rebuildLevel level

/-- The fuel counts the rounds. -/
def rebuildLoop : ℕ → ℕ → ℕ → List (MerkleNode (HashT size)) → List UInt8 →
    Throwing (List (MerkleNode (HashT size)) × List UInt8)
  | 0, _, _, _, _ => liftM none
  | fuel + 1, levelNo, it, level, bytes =>
      if it ≠ 0 ∨ 1 < level.length then do
        let (level, bytes) ← (if it % 2 = 1 then restoreExtra levelNo level bytes
          else pure (level, bytes) : Throwing _)
        rebuildLoop fuel (levelNo + 1) (it / 2) (rebuildLevel level) bytes
      else pure (level, bytes)

/-- A round halves what is left of the number of flushed leaves, and about halves the level. -/
def deserialise (size : ℕ) (bytes : List UInt8) :
    Throwing (MerkleTree (HashT size) × List UInt8) := do
  let (numLeafNodes, bytes) ← deserialiseUInt64 bytes
  let (numFlushed, bytes) ← deserialiseUInt64 bytes
  let (leafNodes, bytes) ← readLeaves size numLeafNodes bytes
  let (level, bytes) ← rebuildLoop (2 * numFlushed + numLeafNodes + 1) 0 numFlushed
    (leafNodes.map .make) bytes
  pure ({ leafNodes, numFlushed, rootNode := level.head? }, bytes)

/-! ## What is written -/

section

variable {hashFunction : HashT size → HashT size → HashT size} {t : MerkleTree (HashT size)}
  {s : LeafLog (HashT size)} {i : ℕ}

/-- The leaves behind the flushed ones, and the blocks before them. -/
def segment (l : List (HashT size)) (flushed : ℕ) (values : List (HashT size)) : List UInt8 :=
  serialiseUInt64 (l.length - flushed) ++ serialiseUInt64 flushed ++
    (l.drop flushed).flatMap HashT.serialise ++ values.flatMap HashT.serialise

theorem length_segment (l : List (HashT size)) (flushed : ℕ) (values : List (HashT size)) :
    (segment l flushed values).length =
      8 + 8 + (l.length - flushed) * size + values.length * size := by
  simp [segment]
  omega

/-- Only what comes from the left is noted. -/
def noteLeft {σ : Type} (note : σ → HashT size → σ) (x : σ) (e : Sibling (HashT size)) : σ :=
  if e.side = .left then note x e.value else x

theorem foldl_noteLeft {σ : Type} (note : σ → HashT size → σ)
    (siblings : List (Sibling (HashT size))) (x : σ) :
    siblings.reverse.foldl (noteLeft note) x =
      ((earlier siblings).map Sibling.value).reverse.foldl note x := by
  rw [← List.map_reverse, List.foldl_map, earlier, ← List.filter_reverse, List.foldl_filter]
  simp only [decide_eq_true_eq]
  rfl

/-- The values of the blocks before a leaf. -/
def leftEdge (hashFunction : HashT size → HashT size → HashT size) (l : List (HashT size))
    (i : ℕ) : List (HashT size) :=
  ((LeftComplete.path hashFunction l i).map fun siblings =>
    (earlier siblings).map Sibling.value).getD []

theorem blocks_leftEdge (hashFunction : HashT size → HashT size → HashT size)
    {l : List (HashT size)} (hi : i < l.length) :
    Blocks hashFunction l 0 i (leftEdge hashFunction l i) := by
  have hne : l ≠ [] := List.ne_nil_of_length_pos (by omega)
  obtain ⟨siblings, hsiblings, -⟩ := exists_path hashFunction hne (List.getElem?_eq_getElem hi)
  have hblocks := blocks_earlier hne hi hsiblings
  simpa [leftEdge, hsiblings] using hblocks

/-- What a walk to the left edge notes. -/
theorem walkTo_leftEdge {σ : Type}
    {f : σ → MerkleNode (HashT size) → Bool → Option (σ × MerkleNode (HashT size) × Bool)}
    (note : σ → HashT size → σ)
    (hf : ∀ x (left right : MerkleNode (HashT size)) hash n height dirty goRight,
      f x (.branch left right hash n height dirty) goRight =
        some (if goRight then note x left.hash else x, .branch left right hash n height dirty,
          true))
    (h : t.Keeps hashFunction s) (hflushed : s.flushed ≤ i) (hi : i < s.leaves.length) (x : σ) :
    ∃ (t' : MerkleTree (HashT size)) (leaf : MerkleNode (HashT size)),
      t.walkTo hashFunction i false f x =
        pure (t', (leftEdge hashFunction s.leaves i).reverse.foldl note x, leaf) ∧
      t'.Keeps hashFunction s ∧ t'.leafNodes = s.leaves.drop s.flushed := by
  have hwalks : ∀ root, MerkleNode.BuiltOver hashFunction t.numFlushed s.leaves root →
      root.dirty = false → Walks false f i x root fun r =>
        r.1 = (leftEdge hashFunction s.leaves i).reverse.foldl note x ∧ r.2.1 = root := by
    intro root hbuilt hclean
    have hf' : ∀ x (left right : MerkleNode (HashT size)) hash n height dirty goRight,
        f x (.branch left right hash n height dirty) goRight =
          some (noteLeft note x (if goRight then ⟨left.hash, .left⟩ else ⟨right.hash, .right⟩),
            .branch left right hash n height dirty, true) := by
      intro x left right hash n height dirty goRight
      rw [hf]
      cases goRight <;> rfl
    obtain ⟨siblings, hsiblings, hwalks⟩ :=
      walks_collect (noteLeft note) hf' hbuilt hclean (h.flushed.trans_le hflushed) hi x
    rw [foldl_noteLeft] at hwalks
    simpa [leftEdge, hsiblings] using hwalks
  obtain ⟨t', root, r, hwalk, ⟨hr₁, hr₂⟩, hsettled, hsame⟩ :=
    walkTo_eq h.represents h.room (h.flushed.trans_le hflushed) hi hwalks
  have hsettled' : Settled hashFunction { t' with rootNode := some r.2.1 } s.leaves root :=
    { hsettled with rootNode := congrArg some hr₂ }
  refine ⟨_, _, by rw [hwalk, hr₁], h.of_settled hsettled' hsame, ?_⟩
  rw [hsettled'.leafNodes, ← h.flushed]
  exact congrArg s.leaves.drop hsame

theorem serialiseExtras_eq (h : t.Keeps hashFunction s) (hflushed : s.flushed ≤ i)
    (hi : i < s.leaves.length) :
    ∃ t', t.serialiseExtras hashFunction i =
        pure (t', (leftEdge hashFunction s.leaves i).flatMap HashT.serialise) ∧
      t'.Keeps hashFunction s := by
  obtain ⟨t₁, root, hroot, hsettled, hsame⟩ :=
    computeRoot_eq h.represents h.room (List.ne_nil_of_length_pos (by omega))
  obtain ⟨t', leaf, hwalk, hkeeps, -⟩ :=
    walkTo_leftEdge (f := collectExtra) (fun extras value => extras ++ [value])
      (fun extras left right hash n height dirty goRight => by cases goRight <;> rfl)
      (h.of_settled hsettled hsame) hflushed hi []
  have hextras (values : List (HashT size)) :
      values.reverse.foldl (fun extras value => extras ++ [value]) [] = values.reverse := by
    simp [← List.map_reverse, ← List.flatMap_def]
  refine ⟨t', ?_, hkeeps⟩
  rw [serialiseExtras, hroot]
  simp only [pure_bind]
  rw [hwalk, hextras]
  simp only [pure_bind, List.reverse_reverse]

theorem Keeps.leaves_eq (h : t.Keeps hashFunction s) :
    t.leafNodes ++ t.uninsertedLeafNodes = s.leaves.drop s.flushed := by
  obtain ⟨inserted, hinserted, heq⟩ := h.represents
  have hle := hinserted.flushed
  rw [heq, ← h.flushed, hinserted.leafNodes, List.drop_append_of_le_length (by omega)]

theorem Keeps.flushed_le (h : t.Keeps hashFunction s) : s.flushed ≤ s.leaves.length - 1 := by
  obtain ⟨inserted, hinserted, heq⟩ := h.represents
  have hle := hinserted.flushed
  rw [heq, ← h.flushed, List.length_append]
  omega

theorem serialise_eq (h : t.Keeps hashFunction s) :
    ∃ t', t.serialise hashFunction =
        pure (t', segment s.leaves s.flushed (leftEdge hashFunction s.leaves s.flushed)) ∧
      t'.Keeps hashFunction s := by
  have hbytes : serialiseUInt64 (t.leafNodes.length + t.uninsertedLeafNodes.length) ++
      serialiseUInt64 t.numFlushed ++ t.leafNodes.flatMap HashT.serialise ++
        t.uninsertedLeafNodes.flatMap HashT.serialise = segment s.leaves s.flushed [] := by
    rw [List.append_assoc, ← List.flatMap_append, ← List.length_append, h.leaves_eq, h.flushed,
      List.length_drop, segment, List.flatMap_nil, List.append_nil]
  rw [serialise, hbytes, isEmpty, numLeaves_eq h.represents]
  by_cases hnil : s.leaves = []
  · refine ⟨t, ?_, h⟩
    rw [if_pos (by simp [hnil]), hnil]
    rfl
  · have hpos := List.length_pos_iff.mpr hnil
    have hle := h.flushed_le
    obtain ⟨t', hextras, hkeeps⟩ := serialiseExtras_eq h (le_refl s.flushed) (by omega)
    refine ⟨t', ?_, hkeeps⟩
    rw [if_neg (by simpa using hnil), minIndex, h.flushed, hextras]
    simp [segment]

theorem mapM_leaf (h : t.Keeps hashFunction s) (n : ℕ) (hflushed : s.flushed ≤ i)
    (hn : i + n ≤ s.leaves.length) :
    (List.range' i n).mapM t.leaf = pure ((s.leaves.drop i).take n) := by
  induction n generalizing i with
  | zero => rfl
  | succ n ih =>
      have hi : i < s.leaves.length := by omega
      have hleaf := leaf_eq h.represents h.room (h.flushed.trans_le hflushed)
        (List.getElem?_eq_getElem hi)
      rw [List.range'_succ, List.mapM_cons, hleaf, ih (by omega) (by omega),
        List.drop_eq_getElem_cons hi]
      rfl

theorem serialiseSegment_eq (h : t.Keeps hashFunction s) {first last : ℕ}
    (hflushed : s.flushed ≤ first) (hle : first ≤ last) (hlast : last < s.leaves.length) :
    ∃ t', t.serialiseSegment hashFunction first last = pure (t',
        segment (s.leaves.take (last + 1)) first (leftEdge hashFunction s.leaves first)) ∧
      t'.Keeps hashFunction s := by
  obtain ⟨t', hextras, hkeeps⟩ := serialiseExtras_eq h hflushed (by omega)
  have hnum := numLeaves_eq h.represents
  have hvalid : ¬ ((first < t.minIndex ∨ t.maxIndex < first) ∨
      (last < t.minIndex ∨ t.maxIndex < last) ∨ last < first) := by
    rw [minIndex, h.flushed, maxIndex_eq h.represents]
    omega
  have hne : ¬ t.isEmpty = true := by
    rw [isEmpty, decide_eq_true_eq]
    omega
  have hlength : (s.leaves.take (last + 1)).length = last + 1 :=
    List.length_take_of_le hlast
  refine ⟨t', ?_, hkeeps⟩
  rw [serialiseSegment, if_neg hvalid]
  simp only
  rw [mapM_leaf h _ hflushed (by omega), pure_bind, if_neg hne, hextras, segment, hlength,
    List.drop_take, show last + 1 - first = last - first + 1 by omega]
  rfl

theorem walkTo_countExtra (h : t.Keeps hashFunction s) (hflushed : s.flushed ≤ i)
    (hi : i < s.leaves.length) :
    ∃ (t' : MerkleTree (HashT size)) (leaf : MerkleNode (HashT size)),
      t.walkTo hashFunction i false countExtra 0 =
        pure (t', (leftEdge hashFunction s.leaves i).length, leaf) ∧
      t'.leafNodes = s.leaves.drop s.flushed := by
  obtain ⟨t', leaf, hwalk, -, hleafNodes⟩ :=
    walkTo_leftEdge (f := countExtra) (fun n _ => n + 1)
      (fun extras left right hash n height dirty goRight => by cases goRight <;> rfl) h hflushed
      hi 0
  have hcount (values : List (HashT size)) :
      values.reverse.foldl (fun n _ => n + 1) 0 = values.length := by simp
  exact ⟨t', leaf, by rw [hwalk, hcount], hleafNodes⟩

end

/-! ## What is read -/

section

variable {hashFunction : HashT size → HashT size → HashT size} {flushed h it fuel : ℕ}
  {l values : List (HashT size)} {level : List (MerkleNode (HashT size))} {b : List UInt8}

theorem readLeaves_eq (hashes : List (HashT size)) (bytes : List UInt8) :
    readLeaves size hashes.length (hashes.flatMap HashT.serialise ++ bytes) =
      some (hashes, bytes) := by
  induction hashes with
  | nil => rfl
  | cons hash hashes ih =>
      rw [List.length_cons, readLeaves, List.flatMap_cons, List.append_assoc,
        HashT.copy_serialise]
      simp [ih]

/-- The nodes of a level are full, up to the last one. -/
inductive LevelOver (hashFunction : HashT size → HashT size → HashT size) (h : ℕ) :
    ℕ → List (MerkleNode (HashT size)) → List (HashT size) → Prop
  | nil (flushed : ℕ) : LevelOver hashFunction h flushed [] []
  | cons {flushed : ℕ} {n : MerkleNode (HashT size)} {level : List (MerkleNode (HashT size))}
      {p l : List (HashT size)} (hn : MerkleNode.BuiltOver hashFunction flushed p n)
      (hle : p.length ≤ 2 ^ h) (hfull : level ≠ [] → p.length = 2 ^ h)
      (hrest : LevelOver hashFunction h (flushed - p.length) level l) :
      LevelOver hashFunction h flushed (n :: level) (p ++ l)

theorem levelOver_leaves (hashFunction : HashT size → HashT size → HashT size)
    (l : List (HashT size)) (flushed : ℕ) :
    LevelOver hashFunction 0 flushed (l.map .make) l := by
  induction l generalizing flushed with
  | nil => exact .nil flushed
  | cons a l ih => exact .cons (.leaf flushed a) le_rfl (fun _ => rfl) (ih _)

theorem levelOver_rebuildLevel (hlevel : LevelOver hashFunction h flushed level l) :
    LevelOver hashFunction (h + 1) flushed (rebuildLevel level) l := by
  have hpow : 2 ^ h ≤ 2 ^ (h + 1) := Nat.pow_le_pow_right Nat.two_pos (Nat.le_succ h)
  induction level using rebuildLevel.induct generalizing flushed l with
  | case1 =>
      cases hlevel
      exact .nil flushed
  | case2 n =>
      cases hlevel with
      | cons hn hle hfull hrest =>
          cases hrest
          exact .cons hn (hle.trans hpow) (fun hnot => absurd rfl hnot) (.nil _)
  | case3 left right level ih =>
      cases hlevel with
      | @cons _ _ _ p _ hleft _ hfull hrest =>
          have hk := hfull (List.cons_ne_nil _ _)
          cases hrest with
          | @cons _ _ _ q l hright hle hfull' hrest =>
              have hparent := hleft.parent hright hk hle default 0 0
              rw [Nat.sub_sub, ← List.length_append] at hrest
              rw [rebuildLevel, ← List.append_assoc]
              refine .cons hparent (LeftComplete.length_append_le hk hle) ?_ (ih hrest)
              intro hnonempty
              have hlevel : level ≠ [] := by
                rintro rfl
                exact hnonempty rfl
              rw [List.length_append, hk, hfull' hlevel, ← Nat.two_mul, ← Nat.pow_succ']

theorem length_rebuildLevel (level : List (MerkleNode (HashT size))) :
    (rebuildLevel level).length = (level.length + 1) / 2 := by
  induction level using rebuildLevel.induct with
  | case1 | case2 => simp [rebuildLevel]
  | case3 left right level ih =>
      rw [rebuildLevel, List.length_cons, ih, List.length_cons, List.length_cons]
      omega

theorem restoreExtra_eq (hlevel : LevelOver hashFunction h (flushed - (it + 2 ^ h)) level
      (l.drop (it + 2 ^ h)))
    {value : HashT size} (hvalue : fold hashFunction ((l.drop it).take (2 ^ h)) = some value)
    (hit : it + 2 ^ h ≤ flushed) (hflushed : flushed ≤ l.length) (hfits : l.length ≤ 2 ^ 29) :
    ∃ level', restoreExtra h level (value.serialise ++ b) = pure (level', b) ∧
      level'.length = level.length + 1 ∧
      LevelOver hashFunction h (flushed - it) level' (l.drop it) := by
  have hlength : ((l.drop it).take (2 ^ h)).length = 2 ^ h := by
    rw [List.length_take, List.length_drop]
    omega
  have hlow : h + 1 < 31 := by
    have hle : h ≤ 29 := (Nat.pow_le_pow_iff_right Nat.one_lt_two).mp (by omega)
    omega
  have hconflated : ((l.drop it).take (2 ^ h)).length ≤ flushed - it := by omega
  have hbuilt := MerkleNode.BuiltOver.conflated hlength hconflated hvalue
  rw [hlength, ← Nat.pow_succ'] at hbuilt
  refine ⟨.tip value (2 ^ (h + 1) - 1) (h + 1) false :: level, ?_, List.length_cons, ?_⟩
  · rw [restoreExtra, HashT.deserialise_serialise]
    simp only [pure_bind]
    rw [if_pos hlow]
  · rw [← List.take_append_drop (2 ^ h) (l.drop it), List.drop_drop]
    refine .cons hbuilt hlength.le (fun _ => hlength) ?_
    rwa [hlength, Nat.sub_sub]

/-- Each round has the node of one block, and the level is over all leaves in the end. -/
theorem rebuildLoop_eq (hlevel : LevelOver hashFunction h (flushed - it * 2 ^ h) level
      (l.drop (it * 2 ^ h)))
    (hblocks : Blocks hashFunction l h it values) (hit : it * 2 ^ h ≤ flushed)
    (hflushed : flushed ≤ l.length) (hfits : l.length ≤ 2 ^ 29)
    (hfuel : 2 * it + level.length < fuel) :
    ∃ level' h', rebuildLoop fuel h it level (values.flatMap HashT.serialise ++ b) =
        pure (level', b) ∧ LevelOver hashFunction h' flushed level' l ∧ level'.length ≤ 1 := by
  induction fuel generalizing h it level values with
  | zero => omega
  | succ fuel ih =>
      have hlength := length_rebuildLevel level
      cases hblocks with
      | zero =>
          rw [Nat.zero_mul, Nat.sub_zero, List.drop_zero] at hlevel
          by_cases hone : level.length ≤ 1
          · exact ⟨level, h, by rw [rebuildLoop, if_neg (by omega)]; rfl, hlevel, hone⟩
          · have hnext : LevelOver hashFunction (h + 1) (flushed - 0 * 2 ^ (h + 1))
                (rebuildLevel level) (l.drop (0 * 2 ^ (h + 1))) := by
              simpa using levelOver_rebuildLevel hlevel
            obtain ⟨level', h', hloop, hover, hend⟩ := ih hnext (.zero _) (by simp) (by omega)
            refine ⟨level', h', ?_, hover, hend⟩
            rw [rebuildLoop, if_pos (by omega)]
            exact hloop
      | @even _ it values hpos hrest =>
          have hpow : 2 * it * 2 ^ h = it * 2 ^ (h + 1) := by ring
          rw [hpow] at hlevel hit
          obtain ⟨level', h', hloop, hover, hend⟩ :=
            ih (levelOver_rebuildLevel hlevel) hrest hit (by omega)
          refine ⟨level', h', ?_, hover, hend⟩
          have heven : 2 * it % 2 ≠ 1 := by omega
          have hhalf : 2 * it / 2 = it := by omega
          rw [rebuildLoop, if_pos (by omega), if_neg heven, hhalf]
          exact hloop
      | @odd _ it value values hvalue hrest =>
          have hpow : 2 * it * 2 ^ h = it * 2 ^ (h + 1) := by ring
          rw [Nat.add_one_mul, hpow] at hlevel hit
          rw [hpow] at hvalue
          obtain ⟨level₁, hrestore, hcount, hlevel₁⟩ := restoreExtra_eq
            (b := values.flatMap HashT.serialise ++ b) hlevel hvalue hit hflushed hfits
          have hlength₁ := length_rebuildLevel level₁
          obtain ⟨level', h', hloop, hover, hend⟩ :=
            ih (levelOver_rebuildLevel hlevel₁) hrest (Nat.le_of_add_right_le hit) (by omega)
          refine ⟨level', h', ?_, hover, hend⟩
          have hodd : (2 * it + 1) % 2 = 1 := by omega
          have hhalf : (2 * it + 1) / 2 = it := by omega
          rw [rebuildLoop, if_pos (by omega), if_pos hodd, hhalf, List.flatMap_cons,
            List.append_assoc, hrestore]
          exact hloop

theorem deserialise_segment (hblocks : Blocks hashFunction l 0 flushed values)
    (hflushed : flushed ≤ l.length - 1) (hfits : l.length ≤ 2 ^ 29) (bytes : List UInt8) :
    ∃ t, deserialise size (segment l flushed values ++ bytes) = pure (t, bytes) ∧
      t.Keeps hashFunction ⟨l, flushed⟩ := by
  have hlength : (l.drop flushed).length = l.length - flushed := List.length_drop
  have hstart : LevelOver hashFunction 0 (flushed - flushed * 2 ^ 0)
      ((l.drop flushed).map .make) (l.drop (flushed * 2 ^ 0)) := by
    rw [Nat.pow_zero, Nat.mul_one]
    apply levelOver_leaves
  have hfuel : 2 * flushed + ((l.drop flushed).map MerkleNode.make).length <
      2 * flushed + (l.length - flushed) + 1 := by simp
  obtain ⟨level, h, hloop, hover, hend⟩ :=
    rebuildLoop_eq (b := bytes) hstart hblocks (by simp) (by omega) hfits hfuel
  refine ⟨{ leafNodes := l.drop flushed, numFlushed := flushed, rootNode := level.head? }, ?_,
    ⟨⟨l, ⟨?_, ?_, rfl, hflushed⟩, by simp⟩, rfl, hfits⟩⟩
  · rw [deserialise, segment]
    simp only [List.append_assoc]
    rw [deserialiseUInt64_serialiseUInt64 (by omega)]
    simp only [pure_bind]
    rw [deserialiseUInt64_serialiseUInt64 (by omega)]
    simp only [pure_bind]
    rw [← hlength, readLeaves_eq]
    simp only [Throwing.lift_some, pure_bind]
    rw [hlength, hloop]
    rfl
  · intro hroot
    obtain rfl := List.head?_eq_none_iff.mp hroot
    cases hover
    exact ⟨rfl, rfl⟩
  · intro root hroot
    cases hover with
    | nil => cases hroot
    | @cons _ n level p l hn hle hfull hrest =>
        cases hroot
        obtain rfl : level = [] := by simpa using hend
        cases hrest
        rw [List.append_nil]
        exact unfinished_nil_iff.mpr hn

/-- Two trees answer alike, whatever they are asked. -/
def Interchangeable (hashFunction : HashT size → HashT size → HashT size)
    (t t' : MerkleTree (HashT size)) : Prop :=
  ∀ calls, Steps.Along (step hashFunction) Room t calls →
    ∃ u u' answers, Steps.run (step hashFunction) t calls = some (u, answers) ∧
      Steps.run (step hashFunction) t' calls = some (u', answers)

def KeepOne (hashFunction : HashT size → HashT size → HashT size)
    (t t' : MerkleTree (HashT size)) : Prop :=
  ∃ s, t.Keeps hashFunction s ∧ t'.Keeps hashFunction s

theorem KeepOne.step (t t' : MerkleTree (HashT size)) (c : MerkleCall (HashT size))
    (h : KeepOne hashFunction t t') (hroom : t.Room c) :
    ∃ u u' a, t.step hashFunction c = some (u, a) ∧ t'.step hashFunction c = some (u', a) ∧
      KeepOne hashFunction u u' := by
  obtain ⟨s, ht, ht'⟩ := h
  have hnum : t'.numLeaves = t.numLeaves :=
    (numLeaves_eq ht'.represents).trans (numLeaves_eq ht.represents).symm
  have hroom' : t'.Room c := by
    cases c with
    | insert hash => exact hnum.trans_lt hroom
    | root | leaf | path | pastRoot | pastPath | flushTo | retractTo | size => trivial
  obtain ⟨u, s₁, a, hu, hlog, hkeeps⟩ := step_simulates ht c hroom
  obtain ⟨u', hu', hkeeps'⟩ := step_of_log ht' hlog hroom'
  exact ⟨u, u', a, hu, hu', s₁, hkeeps, hkeeps'⟩

theorem Keeps.interchangeable {t t' : MerkleTree (HashT size)} {s : LeafLog (HashT size)}
    (h : t.Keeps hashFunction s) (h' : t'.Keeps hashFunction s) :
    Interchangeable hashFunction t t' := by
  intro calls hroom
  have hone : KeepOne hashFunction t t' := ⟨s, h, h'⟩
  obtain ⟨u, u', answers, hrun, hrun', -⟩ := hroom.simulates KeepOne.step hone
  exact ⟨u, u', answers, hrun, hrun'⟩

/-- Both sizes are exact. -/
theorem serialisedSize_exact {t : MerkleTree (HashT size)} (h : t.Reachable hashFunction) :
    (∃ t₁ t₂ bytes, t.serialise hashFunction = pure (t₁, bytes) ∧
      t.serialisedSize hashFunction = pure (t₂, bytes.length)) ∧
    ∀ first last, t.minIndex ≤ first → first ≤ last → last < t.numLeaves →
      ∃ t₁ t₂ bytes, t.serialiseSegment hashFunction first last = pure (t₁, bytes) ∧
        t.serialisedSizeSegment hashFunction first last = pure (t₂, bytes.length) := by
  obtain ⟨s, hkeeps⟩ := h.keeps
  constructor
  · obtain ⟨t₁, hserialise, -⟩ := serialise_eq hkeeps
    by_cases hnil : s.leaves = []
    · refine ⟨t₁, t, _, hserialise, ?_⟩
      have hleaves := hkeeps.leaves_eq
      rw [hnil, List.drop_nil, List.append_eq_nil_iff] at hleaves
      rw [serialisedSize, isEmpty, numLeaves_eq hkeeps.represents, if_pos (by simp [hnil]),
        length_segment, hnil, hleaves.1, List.length_nil, Nat.zero_sub]
      rfl
    · have hpos := List.length_pos_iff.mpr hnil
      have hle := hkeeps.flushed_le
      obtain ⟨t₂, leaf, hwalk, hleafNodes⟩ :=
        walkTo_countExtra hkeeps (le_refl s.flushed) (by omega)
      refine ⟨t₁, t₂, _, hserialise, ?_⟩
      rw [serialisedSize, isEmpty, numLeaves_eq hkeeps.represents, if_neg (by simpa using hnil),
        minIndex, hkeeps.flushed, hwalk, length_segment]
      simp only [pure_bind, hleafNodes, List.length_drop]
  · intro first last hmin hle hlast
    rw [numLeaves_eq hkeeps.represents] at hlast
    rw [minIndex, hkeeps.flushed] at hmin
    obtain ⟨t₁, hserialise, -⟩ := serialiseSegment_eq hkeeps hmin hle hlast
    obtain ⟨t₂, leaf, hwalk, -⟩ := walkTo_countExtra hkeeps hmin (hle.trans_lt hlast)
    refine ⟨t₁, t₂, _, hserialise, ?_⟩
    rw [serialisedSizeSegment, hwalk, length_segment, List.length_take_of_le hlast,
      show last + 1 - first = last - first + 1 by omega]
    rfl

/-! ## Three leaves of one byte -/

def sampleHash (a b : HashT 1) : HashT 1 := ⟨[a.bytes.headD 0 * 3 + b.bytes.headD 0], rfl⟩

def sampleBytes : MerkleTree (HashT 1) :=
  { uninsertedLeafNodes := [⟨[1], rfl⟩, ⟨[2], rfl⟩, ⟨[3], rfl⟩] }

theorem reachable_sampleBytes : sampleBytes.Reachable sampleHash :=
  ⟨[.insert ⟨[1], rfl⟩, .insert ⟨[2], rfl⟩, .insert ⟨[3], rfl⟩], [.done, .done, .done],
    by decide +kernel, rfl⟩

theorem serialisedSize_exact_sampleBytes :
    (∃ t₁ t₂ bytes, sampleBytes.serialise sampleHash = pure (t₁, bytes) ∧
      sampleBytes.serialisedSize sampleHash = pure (t₂, bytes.length)) ∧
    ∀ first last, sampleBytes.minIndex ≤ first → first ≤ last → last < sampleBytes.numLeaves →
      ∃ t₁ t₂ bytes, sampleBytes.serialiseSegment sampleHash first last = pure (t₁, bytes) ∧
        sampleBytes.serialisedSizeSegment sampleHash first last = pure (t₂, bytes.length) :=
  serialisedSize_exact reachable_sampleBytes

end

end MerkleTree

end SRCommon
