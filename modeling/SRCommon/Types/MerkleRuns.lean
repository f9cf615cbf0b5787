import SRCommon.Lib.PartialRun
import SRCommon.Types.MerkleWalks

/-!
# Runs of a Merkle tree

What the tree is for is a log of leaves. The log answers from its list alone:
no node is kept, no hash is put off, and nothing is conflated or pending. The
tree answers like the log over every run that does not outgrow it.
-/

namespace SRCommon

open LeftComplete (Sibling Side Collision fold climb earlier exists_fold exists_path fold_take
  eq_or_collision)

theorem MerklePath.root_eq_climb {η : Type} (hashFunction : η → η → η) (p : MerklePath η) :
    p.root hashFunction = climb hashFunction p.leaf p.elements := by
  apply List.foldl_ext
  intro result e _
  rw [LeftComplete.join]
  cases e.side <;> rfl

/-- What can be asked of a tree. -/
inductive MerkleCall (η : Type) where
  | insert (hash : η)
  | root
  | leaf (index : ℕ)
  | path (index : ℕ)
  | pastRoot (index : ℕ)
  | pastPath (index asOf : ℕ)
  | flushTo (index : ℕ)
  | retractTo (index : ℕ)
  | size

inductive MerkleAnswer (η : Type) where
  | done
  | hash (hash : η)
  | path (p : MerklePath η)
  | thrown (e : MerkleError)
deriving DecidableEq

namespace MerkleAnswer

variable {η σ τ : Type}

/-- A call that throws leaves the state as it was. -/
def settle (before : σ) (call : Throwing (σ × MerkleAnswer η)) : Option (σ × MerkleAnswer η) :=
  (ExceptT.run call).map fun
    | .ok r => r
    | .error e => (before, thrown e)

/-- Two calls throw the same, or answer the same. -/
inductive Alike (R : σ → τ → Prop) :
    Throwing (σ × MerkleAnswer η) → Throwing (τ × MerkleAnswer η) → Prop
  | thrown (e : MerkleError) : Alike R (throw e) (throw e)
  | answered (s : σ) (t : τ) (a : MerkleAnswer η) (hst : R s t) :
      Alike R (pure (s, a)) (pure (t, a))

/-- A call that only asks leaves the state as it was. -/
theorem settle_bind {α : Type} {x : Throwing α} {before after : σ} {f : α → MerkleAnswer η}
    {answer : MerkleAnswer η}
    (h : settle before (x >>= fun a => pure (before, f a)) = some (after, answer)) :
    after = before := by
  rcases x with _ | e | a
  · cases h
  · cases h
    rfl
  · cases h
    rfl

theorem Alike.settle {R : σ → τ → Prop} {r : Throwing (σ × MerkleAnswer η)}
    {r' : Throwing (τ × MerkleAnswer η)} (h : Alike R r r') {s : σ} {t : τ} (hst : R s t) :
    ∃ s' t' a, settle s r = some (s', a) ∧ MerkleAnswer.settle t r' = some (t', a) ∧ R s' t' := by
  cases h with
  | thrown e => exact ⟨s, t, .thrown e, rfl, rfl, hst⟩
  | answered s' t' a hst' => exact ⟨s', t', a, rfl, rfl, hst'⟩

end MerkleAnswer

open MerkleAnswer (Alike settle settle_bind)

/-! ## The log -/

/-- All leaves that were inserted and not retracted, and how many of them are flushed. -/
structure LeafLog (η : Type) where
  leaves : List η := []
  flushed : ℕ := 0

namespace LeafLog

variable {η : Type} (hashFunction : η → η → η) (s : LeafLog η)

def maxIndex : ℕ := s.leaves.length - 1

def root : Throwing η :=
  if s.leaves.isEmpty then throw (.runtimeError (Text.lit "empty tree does not have a root"))
  else liftM (fold hashFunction s.leaves)

def leaf (index : ℕ) : Throwing η :=
  if s.leaves.length ≤ index then throw (.runtimeError (Text.lit "leaf index out of bounds"))
  else if index < s.flushed then throw .outOfRange
  else liftM s.leaves[index]?

/-- The path to a leaf as it was when the leaf `asOf` was the last one. -/
def pathAsOf (index asOf : ℕ) : Throwing (MerklePath η) :=
  if s.leaves.isEmpty then throw (.runtimeError (Text.lit "empty tree does not have a root"))
  else do
    let elements ← liftM (LeftComplete.path hashFunction (s.leaves.take (asOf + 1)) index)
    let leaf ← liftM s.leaves[index]?
    pure ⟨leaf, index, asOf, elements⟩

def path (index : ℕ) : Throwing (MerklePath η) :=
  if index < s.flushed ∨ s.maxIndex < index then
    throw (.runtimeError (Text.lit "invalid leaf index"))
  else s.pathAsOf hashFunction index s.maxIndex

def pastRoot (index : ℕ) : Throwing η :=
  if index < s.flushed ∨ s.maxIndex < index then
    throw (.runtimeError (Text.lit "invalid leaf index"))
  else root hashFunction { s with leaves := s.leaves.take (index + 1) }

def pastPath (index asOf : ℕ) : Throwing (MerklePath η) :=
  if index < s.flushed ∨ s.maxIndex < asOf ∨ asOf < index then
    throw (.runtimeError (Text.lit "invalid leaf indices"))
  else s.pathAsOf hashFunction index asOf

def flushTo (index : ℕ) : Throwing (LeafLog η) :=
  if index ≤ s.flushed then pure s
  else if s.maxIndex < index then throw (.runtimeError (Text.lit "invalid leaf index"))
  else pure { s with flushed := index }

def retractTo (index : ℕ) : Throwing (LeafLog η) :=
  if s.maxIndex < index then pure s
  else if index < s.flushed then
    throw (.runtimeError (Text.lit "leaf index out of bounds"))
  else pure { s with leaves := s.leaves.take (index + 1) }

def call : MerkleCall η → Throwing (LeafLog η × MerkleAnswer η)
  | .insert hash => pure ({ s with leaves := s.leaves ++ [hash] }, .done)
  | .root => do pure (s, .hash (← s.root hashFunction))
  | .leaf index => do pure (s, .hash (← s.leaf index))
  | .path index => do pure (s, .path (← s.path hashFunction index))
  | .pastRoot index => do pure (s, .hash (← s.pastRoot hashFunction index))
  | .pastPath index asOf => do pure (s, .path (← s.pastPath hashFunction index asOf))
  | .flushTo index => do pure (← s.flushTo index, .done)
  | .retractTo index => do pure (← s.retractTo index, .done)
  | .size => pure (s, .done)

def step (c : MerkleCall η) : Option (LeafLog η × MerkleAnswer η) :=
  settle s (s.call hashFunction c)

end LeafLog

namespace MerkleTree

variable {η : Type}

section

variable [Inhabited η] (hashFunction : η → η → η) (t : MerkleTree η)

/-- The number that `size` returns is not looked at here. -/
def call : MerkleCall η → Throwing (MerkleTree η × MerkleAnswer η)
  | .insert hash => pure (t.insert hash, .done)
  | .root => do
      let (t, hash) ← t.root hashFunction
      pure (t, .hash hash)
  | .leaf index => do pure (t, .hash (← t.leaf index))
  | .path index => do
      let (t, p) ← t.path hashFunction index
      pure (t, .path p)
  | .pastRoot index => do
      let (t, hash) ← t.pastRoot hashFunction index
      pure (t, .hash hash)
  | .pastPath index asOf => do
      let (t, p) ← t.pastPath hashFunction index asOf
      pure (t, .path p)
  | .flushTo index => do pure (← t.flushTo hashFunction index, .done)
  | .retractTo index => do pure (← t.retractTo hashFunction index, .done)
  | .size => do
      let (t, _) ← t.size
      pure (t, .done)

/-- Nothing is changed before something is thrown: there is nothing to insert into a tree that has
no root. -/
def step (c : MerkleCall η) : Option (MerkleTree η × MerkleAnswer η) :=
  settle t (t.call hashFunction c)

end

/-- A leaf may be inserted while a full tree is still low enough for `is_full`. -/
def Room (t : MerkleTree η) : MerkleCall η → Prop
  | .insert _ => t.numLeaves < 2 ^ 29
  | _ => True

instance (t : MerkleTree η) : DecidablePred t.Room
  | .insert _ => inferInstanceAs (Decidable (t.numLeaves < 2 ^ 29))
  | .root | .leaf _ | .path _ | .pastRoot _ | .pastPath _ _ | .flushTo _ | .retractTo _ | .size =>
      .isTrue trivial

/-- The tree is one way to keep the log. -/
structure Keeps (hashFunction : η → η → η) (t : MerkleTree η) (s : LeafLog η) : Prop where
  represents : t.Represents hashFunction s.leaves
  flushed : t.numFlushed = s.flushed
  room : s.leaves.length ≤ 2 ^ 29

/-! ## One lemma for each function -/

variable {hashFunction : η → η → η} {t : MerkleTree η} {l : List η} {s : LeafLog η} {i a : ℕ}

theorem sub64_of_le {a b : ℕ} (hle : b ≤ a) (ha : a < 2 ^ 64) : sub64 a b = a - b := by
  rw [sub64, Nat.sub_add_comm hle, Nat.add_mod_right, Nat.mod_eq_of_lt (by omega)]

theorem sub64_of_lt {a b : ℕ} (hlt : a < b) : sub64 a b = a + 2 ^ 64 - b :=
  Nat.mod_eq_of_lt (by omega)

theorem vectorAt_of_le {hashes : List η} (hle : hashes.length ≤ i) :
    vectorAt hashes i = throw .outOfRange := by
  rw [vectorAt, List.getElem?_eq_none hle]

theorem vectorAt_of_eq {hashes : List η} {hash : η} (hhash : hashes[i]? = some hash) :
    vectorAt hashes i = pure hash := by
  rw [vectorAt, hhash]

/-- A flushed leaf is looked for at a wrapped index. -/
theorem leaf_flushed (h : t.Represents hashFunction l) (hfits : l.length ≤ 2 ^ 29)
    (hi : i < l.length) (hflushed : i < t.numFlushed) : t.leaf i = throw .outOfRange := by
  have hnum := numLeaves_eq h
  have hsum := hnum
  rw [numLeaves] at hsum
  have hwrapped := sub64_of_lt hflushed
  have hagain : sub64 (sub64 i t.numFlushed) t.leafNodes.length =
      i + 2 ^ 64 - t.numFlushed - t.leafNodes.length := by
    rw [hwrapped, sub64_of_le (by omega) (by omega)]
  rw [leaf, if_neg (by omega), if_pos (by omega), hagain]
  apply vectorAt_of_le
  omega

theorem leaf_eq (h : t.Represents hashFunction l) (hfits : l.length ≤ 2 ^ 29)
    (hflushed : t.numFlushed ≤ i) {x : η} (hx : l[i]? = some x) : t.leaf i = pure x := by
  have hi : i < l.length := (List.getElem?_eq_some_iff.mp hx).1
  have hnum := numLeaves_eq h
  obtain ⟨inserted, hinserted, rfl⟩ := h
  have hlength : t.leafNodes.length = inserted.length - t.numFlushed := by
    rw [hinserted.leafNodes, List.length_drop]
  have hle := hinserted.flushed
  rw [leaf, if_neg (by omega), sub64_of_le hflushed (by omega), hlength]
  split
  case isTrue hwaiting =>
    apply vectorAt_of_eq
    rw [sub64_of_le hwaiting (by omega), ← hx, List.getElem?_append_right (by omega)]
    congr 1
    omega
  case isFalse hnot =>
    apply vectorAt_of_eq
    rw [hinserted.leafNodes, List.getElem?_drop, ← hx, List.getElem?_append_left (by omega)]
    congr 1
    omega

theorem set_eq_of_getElem? {hashes : List η} {hash : η} (hhash : hashes[i]? = some hash) :
    hashes.set i hash = hashes := by
  obtain ⟨hi, rfl⟩ := List.getElem?_eq_some_iff.mp hhash
  exact List.set_getElem_self hi

section

variable [Inhabited η] {σ : Type} {update : Bool} {x : σ}
  {f : σ → MerkleNode η → Bool → Option (σ × MerkleNode η × Bool)}

theorem walkTo_thrown (h : t.Represents hashFunction l)
    (hi : i < t.numFlushed ∨ l.length - 1 < i) :
    t.walkTo hashFunction i update f x =
      throw (.runtimeError (Text.lit "invalid leaf index")) := by
  rw [walkTo, if_pos (by rwa [maxIndex_eq h])]
  rfl

theorem walkTo_empty (h : t.Represents hashFunction []) (hi : ¬ (i < t.numFlushed ∨ 0 < i)) :
    t.walkTo hashFunction i update f x =
      throw (.runtimeError (Text.lit "empty tree does not have a root")) := by
  rw [walkTo, if_neg (by rwa [maxIndex_eq h]), computeRoot_empty h]
  rfl

theorem walkTo_eq (h : t.Represents hashFunction l) (hfits : l.length ≤ 2 ^ 29)
    (hflushed : t.numFlushed ≤ i) (hi : i < l.length)
    {Q : MerkleNode η → σ × MerkleNode η × MerkleNode η → Prop}
    (hwalks : ∀ root, MerkleNode.BuiltOver hashFunction t.numFlushed l root → root.dirty = false →
      Walks update f i x root (Q root)) :
    ∃ (t' : MerkleTree η) (root : MerkleNode η) (r : σ × MerkleNode η × MerkleNode η),
      t.walkTo hashFunction i update f x =
        pure ({ t' with rootNode := some r.2.1 }, r.1, r.2.2) ∧ Q root r ∧
      t'.Settled hashFunction l root ∧ t'.numFlushed = t.numFlushed := by
  have hl : l ≠ [] := List.ne_nil_of_length_pos (by omega)
  obtain ⟨t', root, hroot, hsettled, hsame⟩ := computeRoot_eq h hfits hl
  have hbuilt := hsettled.built
  have hheight := hbuilt.height_le hfits
  have hpos := hbuilt.height_pos
  obtain ⟨r, hr, hQ, -⟩ := hwalks root (hsame ▸ hbuilt) hsettled.clean root.height
    (2 * root.height) le_rfl (by omega) (by omega)
  refine ⟨t', root, r, ?_, hQ, hsettled, hsame⟩
  have hin : ¬ (i < t.minIndex ∨ t.maxIndex < i) := by
    rw [maxIndex_eq h, minIndex]
    omega
  rw [walkTo, if_neg hin, hroot]
  simp [startBits_eq hpos (by omega), hr]

end

theorem keeps_empty (hashFunction : η → η → η) : ({} : MerkleTree η).Keeps hashFunction {} :=
  ⟨represents_empty, rfl, Nat.zero_le _⟩

theorem Keeps.of_settled {root : MerkleNode η} (h : t.Keeps hashFunction s) {t' : MerkleTree η}
    (hsettled : t'.Settled hashFunction s.leaves root) (hsame : t'.numFlushed = t.numFlushed) :
    t'.Keeps hashFunction s :=
  ⟨hsettled.represents, hsame.trans h.flushed, h.room⟩

variable [Inhabited η]

theorem insert_alike (h : t.Keeps hashFunction s) (hroom : t.numLeaves < 2 ^ 29) (hash : η) :
    Alike (Keeps hashFunction) (t.call hashFunction (.insert hash))
      (s.call hashFunction (.insert hash)) := by
  obtain ⟨inserted, hinserted, heq⟩ := h.represents
  rw [numLeaves_eq h.represents] at hroom
  refine .answered _ _ _ ⟨⟨inserted, ?_, ?_⟩, h.flushed, ?_⟩
  · exact ⟨hinserted.empty, hinserted.nodes, hinserted.leafNodes, hinserted.flushed⟩
  · rw [heq, List.append_assoc]
    rfl
  · simp only [List.length_append, List.length_singleton]
    exact hroom

theorem root_alike (h : t.Keeps hashFunction s) :
    Alike (Keeps hashFunction) (t.call hashFunction .root) (s.call hashFunction .root) := by
  rw [call, LeafLog.call, root, LeafLog.root]
  rcases List.eq_nil_or_concat' s.leaves with hnil | ⟨l, a, hl⟩
  · rw [computeRoot_empty (hnil ▸ h.represents), hnil]
    exact .thrown _
  · have hne : s.leaves ≠ [] := by simp [hl]
    obtain ⟨t', root, hroot, hsettled, hsame⟩ := computeRoot_eq h.represents h.room hne
    rw [hroot, if_neg (by simpa using hne), hsettled.built.fold_eq hsettled.clean]
    exact .answered _ _ _ (h.of_settled hsettled hsame)

theorem leaf_alike (h : t.Keeps hashFunction s) (index : ℕ) :
    Alike (Keeps hashFunction) (t.call hashFunction (.leaf index))
      (s.call hashFunction (.leaf index)) := by
  rw [call, LeafLog.call, LeafLog.leaf, ← h.flushed]
  by_cases hindex : s.leaves.length ≤ index
  · rw [leaf, if_pos ((numLeaves_eq h.represents).trans_le hindex), if_pos hindex]
    exact .thrown _
  · have hlt : index < s.leaves.length := Nat.lt_of_not_le hindex
    rw [if_neg hindex]
    by_cases hflushed : index < t.numFlushed
    · rw [leaf_flushed h.represents h.room hlt hflushed, if_pos hflushed]
      exact .thrown _
    · have hx := List.getElem?_eq_getElem hlt
      rw [leaf_eq h.represents h.room (Nat.le_of_not_lt hflushed) hx, if_neg hflushed, hx]
      exact .answered _ _ _ h

/-- The tree has its root up to date afterwards, and is otherwise as before. -/
theorem path_eq (h : t.Keeps hashFunction s) (hflushed : t.numFlushed ≤ i)
    (hi : i < s.leaves.length) :
    ∃ t' x elements, t.path hashFunction i =
        pure (t', ⟨x, i, s.leaves.length - 1, elements⟩) ∧ s.leaves[i]? = some x ∧
      LeftComplete.path hashFunction s.leaves i = some elements ∧ t'.Keeps hashFunction s := by
  have hx := List.getElem?_eq_getElem hi
  obtain ⟨elements, helements, -⟩ :=
    exists_path hashFunction (List.ne_nil_of_length_pos (by omega)) hx
  have hwalks : ∀ root, MerkleNode.BuiltOver hashFunction t.numFlushed s.leaves root →
      root.dirty = false → Walks false collectSibling i [] root
        fun r => r.1 = elements ∧ r.2.1 = root := by
    intro root hbuilt hclean
    obtain ⟨siblings, hsiblings, hwalks⟩ := walks_collectSibling hbuilt hclean hflushed hi
    obtain rfl : siblings = elements := Option.some.inj (hsiblings.symm.trans helements)
    exact hwalks
  obtain ⟨t', root, r, hwalk, ⟨rfl, hr⟩, hsettled, hsame⟩ :=
    walkTo_eq h.represents h.room hflushed hi hwalks
  have hkeeps : Keeps hashFunction { t' with rootNode := some r.2.1 } s :=
    h.of_settled { hsettled with rootNode := congrArg some hr } hsame
  have hleaf := leaf_eq hkeeps.represents h.room (hsame.trans_le hflushed) hx
  refine ⟨_, _, _, ?_, hx, helements, hkeeps⟩
  rw [path, hwalk]
  simp only [pure_bind]
  rw [hleaf, maxIndex_eq hkeeps.represents]
  rfl

theorem path_thrown (h : t.Keeps hashFunction s) (hi : i < t.numFlushed ∨ s.maxIndex < i) :
    t.path hashFunction i = throw (.runtimeError (Text.lit "invalid leaf index")) := by
  rw [path, walkTo_thrown h.represents hi]
  rfl

theorem path_empty (h : t.Keeps hashFunction s) (hnil : s.leaves = [])
    (hi : ¬ (i < t.numFlushed ∨ s.maxIndex < i)) : t.path hashFunction i =
      throw (.runtimeError (Text.lit "empty tree does not have a root")) := by
  rw [LeafLog.maxIndex, hnil] at hi
  rw [path, walkTo_empty (hnil ▸ h.represents) hi]
  rfl

theorem path_alike (h : t.Keeps hashFunction s) (index : ℕ) :
    Alike (Keeps hashFunction) (t.call hashFunction (.path index))
      (s.call hashFunction (.path index)) := by
  rw [call, LeafLog.call, LeafLog.path, ← h.flushed]
  by_cases hindex : index < t.numFlushed ∨ s.maxIndex < index
  · rw [path_thrown h hindex, if_pos hindex]
    exact .thrown _
  · rw [if_neg hindex, LeafLog.pathAsOf]
    by_cases hnil : s.leaves = []
    · rw [path_empty h hnil hindex, if_pos (by simpa using hnil)]
      exact .thrown _
    · have hpos := List.length_pos_iff.mpr hnil
      rw [LeafLog.maxIndex] at hindex ⊢
      obtain ⟨t', x, elements, hpath, hx, helements, hkeeps⟩ :=
        path_eq h (i := index) (by omega) (by omega)
      rw [hpath, if_neg (by simpa using hnil), Nat.sub_add_cancel hpos, List.take_length,
        helements, hx]
      exact .answered _ _ _ hkeeps

theorem pastRoot_alike (h : t.Keeps hashFunction s) (index : ℕ) :
    Alike (Keeps hashFunction) (t.call hashFunction (.pastRoot index))
      (s.call hashFunction (.pastRoot index)) := by
  rw [call, LeafLog.call, LeafLog.pastRoot, pastRoot, ← h.flushed]
  by_cases hindex : index < t.numFlushed ∨ s.maxIndex < index
  · rw [path_thrown h hindex, if_pos hindex]
    exact .thrown _
  · rw [if_neg hindex, LeafLog.root]
    by_cases hnil : s.leaves = []
    · rw [path_empty h hnil hindex, if_pos (by simp [hnil])]
      exact .thrown _
    · have hpos := List.length_pos_iff.mpr hnil
      rw [LeafLog.maxIndex] at hindex
      obtain ⟨t', x, elements, hpath, hx, helements, hkeeps⟩ :=
        path_eq h (i := index) (by omega) (by omega)
      have hearlier : climb hashFunction x (earlier elements) = elements.foldl (fun result e =>
          if e.side = .left then hashFunction e.value result else result) x := by
        rw [climb_earlier, earlier, List.foldl_filter]
        simp
      rw [hpath, if_neg (by simpa using hnil), fold_take hnil hx helements, hearlier]
      exact .answered _ _ _ hkeeps

theorem pastPath_alike (h : t.Keeps hashFunction s) (index asOf : ℕ) :
    Alike (Keeps hashFunction) (t.call hashFunction (.pastPath index asOf))
      (s.call hashFunction (.pastPath index asOf)) := by
  have hmax : t.maxIndex = s.maxIndex := maxIndex_eq h.represents
  have hsame : ((index < t.minIndex ∨ t.maxIndex < index) ∨
      (asOf < t.minIndex ∨ t.maxIndex < asOf) ∨ asOf < index) ↔
        index < t.numFlushed ∨ s.maxIndex < asOf ∨ asOf < index := by
    rw [hmax, minIndex]
    omega
  rw [call, LeafLog.call, LeafLog.pastPath, pastPath, ← h.flushed]
  by_cases hindex : index < t.numFlushed ∨ s.maxIndex < asOf ∨ asOf < index
  · rw [if_pos (hsame.mpr hindex), if_pos hindex]
    exact .thrown _
  · rw [if_neg (fun hthrown => hindex (hsame.mp hthrown)), if_neg hindex, LeafLog.pathAsOf]
    by_cases hnil : s.leaves = []
    · rw [computeRoot_empty (hnil ▸ h.represents), if_pos (by simpa using hnil)]
      exact .thrown _
    · have hpos := List.length_pos_iff.mpr hnil
      rw [LeafLog.maxIndex] at hindex
      have hx := List.getElem?_eq_getElem (show index < s.leaves.length by omega)
      obtain ⟨t', root, hroot, hsettled, hflushed⟩ := computeRoot_eq h.represents h.room hnil
      have hheight := hsettled.built.height_le h.room
      have hrootPos := hsettled.built.height_pos
      have hI : At hashFunction root.height (startBits root index) root s.leaves index :=
        ⟨⟨_, by omega, hsettled.built⟩, hsettled.clean, by omega, le_rfl,
          startBits_eq hrootPos (by omega) index⟩
      have hA : At hashFunction root.height (startBits root asOf) root s.leaves asOf :=
        ⟨⟨_, by omega, hsettled.built⟩, hsettled.clean, by omega, le_rfl,
          startBits_eq hrootPos (by omega) asOf⟩
      obtain ⟨w, p, hloop, hp, hpath⟩ := pastLoop_eq hI hA (by omega) (by omega) []
      have hkeeps := h.of_settled hsettled hflushed
      rw [hroot, if_neg (by simpa using hnil), hp, hx]
      simp only [pure_bind]
      rw [hloop, leaf_eq hkeeps.represents h.room (by omega) hx]
      simp only [Throwing.lift_some, pure_bind, hpath, List.reverse_nil, List.append_nil]
      exact .answered _ _ _ hkeeps

theorem flushTo_alike (h : t.Keeps hashFunction s) (index : ℕ) :
    Alike (Keeps hashFunction) (t.call hashFunction (.flushTo index))
      (s.call hashFunction (.flushTo index)) := by
  rw [call, LeafLog.call, flushTo, LeafLog.flushTo, minIndex, ← h.flushed]
  by_cases hdone : index ≤ t.numFlushed
  · rw [if_pos hdone, if_pos hdone]
    exact .answered _ _ _ h
  · rw [if_neg hdone, if_neg hdone]
    by_cases hindex : s.maxIndex < index
    · rw [walkTo_thrown h.represents (.inr hindex), if_pos hindex]
      exact .thrown _
    · rw [if_neg hindex]
      rw [LeafLog.maxIndex] at hindex
      have hflushed : t.numFlushed ≤ index := by omega
      have hi : index < s.leaves.length := by omega
      obtain ⟨t', root, r, hwalk, ⟨hbuilt, hclean⟩, hsettled, hsame⟩ :=
        walkTo_eq h.represents h.room hflushed hi fun root hbuilt hclean =>
          walks_conflate hbuilt hclean hflushed hi
      have hlater : t'.numFlushed + (index - t'.numFlushed) = index := by omega
      rw [hwalk]
      refine .answered _ _ _ ⟨?_, hlater, h.room⟩
      apply Settled.represents
      refine ⟨rfl, ?_, hclean, hsettled.insertionStack, hsettled.uninsertedLeafNodes, ?_, ?_⟩
      · rwa [hlater]
      · rw [hsettled.leafNodes, List.drop_drop]
      · rwa [hlater]

theorem retractTo_alike (h : t.Keeps hashFunction s) (index : ℕ) :
    Alike (Keeps hashFunction) (t.call hashFunction (.retractTo index))
      (s.call hashFunction (.retractTo index)) := by
  have hmax : t.maxIndex = s.maxIndex := maxIndex_eq h.represents
  rw [call, LeafLog.call, retractTo, LeafLog.retractTo, hmax, minIndex, ← h.flushed]
  by_cases hdone : s.maxIndex < index
  · rw [if_pos hdone, if_pos hdone]
    exact .answered _ _ _ h
  · rw [if_neg hdone, if_neg hdone]
    by_cases hflushed : index < t.numFlushed
    · rw [if_pos hflushed, if_pos hflushed]
      exact .thrown _
    · rw [if_neg hflushed, if_neg hflushed]
      have hroom : (s.leaves.take (index + 1)).length ≤ 2 ^ 29 :=
        (List.length_take_le' _ _).trans h.room
      obtain ⟨inserted, hinserted, heq⟩ := h.represents
      have hlength : t.leafNodes.length = inserted.length - t.numFlushed := by
        rw [hinserted.leafNodes, List.length_drop]
      have hle := hinserted.flushed
      by_cases hwaiting : t.numFlushed + t.leafNodes.length ≤ index
      · rw [if_pos hwaiting]
        refine .answered _ _ _ ⟨⟨inserted, ?_, ?_⟩, rfl, hroom⟩
        · exact ⟨hinserted.empty, hinserted.nodes, hinserted.leafNodes, hinserted.flushed⟩
        · have hover : index - (t.numFlushed + t.leafNodes.length) + 1 =
              index + 1 - inserted.length := by omega
          change s.leaves.take (index + 1) = inserted ++ t.uninsertedLeafNodes.take _
          rw [hover, heq, List.take_append, List.take_of_length_le (show
            inserted.length ≤ index + 1 by omega)]
      · rw [if_neg hwaiting]
        have hi : index < s.leaves.length := by
          rw [heq, List.length_append]
          omega
        obtain ⟨t', root, r, hwalk, ⟨hbuilt, hleaf⟩, hsettled, hsame⟩ :=
          walkTo_eq h.represents h.room (Nat.le_of_not_lt hflushed) hi fun root hbuilt _ =>
            walks_eliminate_root hbuilt (Nat.le_of_not_lt hflushed) hi
        have hnum : numLeaves { t' with rootNode := some r.2.1 } = s.leaves.length :=
          (numLeaves_eq hsettled.represents : t'.numLeaves = _)
        have hlater : t'.leafNodes.length = s.leaves.length - t.numFlushed := by
          rw [hsettled.leafNodes, hsame, List.length_drop]
        have hset : t'.leafNodes.set (index - t.numFlushed) r.2.2.hash = t'.leafNodes := by
          apply set_eq_of_getElem?
          rw [hsettled.leafNodes, hsame, List.getElem?_drop, ← hleaf]
          congr 1
          omega
        rw [hwalk]
        simp only [pure_bind]
        rw [if_neg (by omega), hnum, hsame, hset, if_pos (by omega)]
        refine .answered _ _ _ ⟨⟨s.leaves.take (index + 1), .of_root rfl ?_ ?_ ?_, ?_⟩, rfl, hroom⟩
        · rw [hsettled.insertionStack]
          exact unfinished_nil_iff.mpr (hsame ▸ hbuilt)
        · change t'.leafNodes.take _ = (s.leaves.take (index + 1)).drop t.numFlushed
          rw [hlater, hsettled.leafNodes, hsame, List.drop_take]
          congr 1
          omega
        · change t.numFlushed ≤ _
          rw [List.length_take]
          omega
        · rw [hsettled.uninsertedLeafNodes, List.append_nil]

theorem size_alike (h : t.Keeps hashFunction s) :
    Alike (Keeps hashFunction) (t.call hashFunction .size) (s.call hashFunction .size) := by
  obtain ⟨t', hinsert, hinserted, hsame, hwaiting⟩ := insertLeaves_false_eq h.represents h.room
  rw [call, LeafLog.call, size, hinsert]
  refine .answered _ _ _ ⟨⟨s.leaves, hinserted, ?_⟩, hsame.trans h.flushed, h.room⟩
  rw [hwaiting, List.append_nil]

/-! ## Runs -/

theorem step_simulates (h : t.Keeps hashFunction s) (c : MerkleCall η) (hroom : t.Room c) :
    ∃ t' s' answer, t.step hashFunction c = some (t', answer) ∧
      s.step hashFunction c = some (s', answer) ∧ t'.Keeps hashFunction s' := by
  have halike : Alike (Keeps hashFunction) (t.call hashFunction c) (s.call hashFunction c) := by
    cases c with
    | insert hash => exact insert_alike h hroom hash
    | root => exact root_alike h
    | leaf index => exact leaf_alike h index
    | path index => exact path_alike h index
    | pastRoot index => exact pastRoot_alike h index
    | pastPath index asOf => exact pastPath_alike h index asOf
    | flushTo index => exact flushTo_alike h index
    | retractTo index => exact retractTo_alike h index
    | size => exact size_alike h
  exact halike.settle h

theorem run_simulates (h : t.Keeps hashFunction s) {calls : List (MerkleCall η)}
    (hroom : Steps.Along (step hashFunction) Room t calls) :
    ∃ t' s' answers, Steps.run (step hashFunction) t calls = some (t', answers) ∧
      Steps.run (LeafLog.step hashFunction) s calls = some (s', answers) ∧
      t'.Keeps hashFunction s' :=
  hroom.simulates (fun _ _ c hst hc => step_simulates hst c hc) h

/-- Five leaves, two of which are flushed and one of which is retracted while a leaf waits. -/
def sampleCalls : List (MerkleCall ℕ) :=
  [.insert 1, .insert 2, .insert 3, .insert 4, .insert 5, .pastPath 1 2, .flushTo 2, .insert 6,
    .size, .retractTo 3, .path 2, .leaf 0, .pastRoot 5]

/-- The tree is what some calls have left of an empty one. -/
def Reachable (hashFunction : η → η → η) (t : MerkleTree η) : Prop :=
  ∃ calls answers, Steps.Along (step hashFunction) Room {} calls ∧
    Steps.run (step hashFunction) {} calls = some (t, answers)

theorem Reachable.keeps (h : t.Reachable hashFunction) : ∃ s, t.Keeps hashFunction s := by
  obtain ⟨calls, answers, hroom, hrun⟩ := h
  obtain ⟨t', s, answers', hrun', -, hkeeps⟩ := run_simulates (keeps_empty hashFunction) hroom
  obtain ⟨rfl, -⟩ := Prod.mk.inj (Option.some.inj (hrun.symm.trans hrun'))
  exact ⟨s, hkeeps⟩

/-- What the log answers is what the tree answers. -/
theorem step_of_log (h : t.Keeps hashFunction s) {c : MerkleCall η} {s' : LeafLog η}
    {answer : MerkleAnswer η} (hlog : s.step hashFunction c = some (s', answer))
    (hroom : t.Room c) :
    ∃ t', t.step hashFunction c = some (t', answer) ∧ t'.Keeps hashFunction s' := by
  obtain ⟨t', s₁, answer', htree, hlog', hkeeps⟩ := step_simulates h c hroom
  obtain ⟨rfl, rfl⟩ := Prod.mk.inj (Option.some.inj (hlog.symm.trans hlog'))
  exact ⟨t', htree, hkeeps⟩

end MerkleTree

/-! ## Paths of the log -/

namespace LeafLog

variable {η : Type} {hashFunction : η → η → η} {s : LeafLog η} {i a : ℕ}

theorem step_root (hashFunction : η → η → η) (hne : s.leaves ≠ []) {value : η}
    (hfold : fold hashFunction s.leaves = some value) :
    s.step hashFunction .root = some (s, .hash value) := by
  rw [step, call, root, if_neg (by simpa using hne), hfold]
  rfl

theorem step_leaf (hashFunction : η → η → η) (hflushed : s.flushed ≤ i) {x : η}
    (hx : s.leaves[i]? = some x) : s.step hashFunction (.leaf i) = some (s, .hash x) := by
  have hi := (List.getElem?_eq_some_iff.mp hx).1
  rw [step, call, leaf, if_neg (by omega), if_neg (by omega), hx]
  rfl

theorem pathAsOf_eq {x : η} (hx : s.leaves[i]? = some x) {elements : List (Sibling η)}
    (helements : LeftComplete.path hashFunction (s.leaves.take (a + 1)) i = some elements) :
    s.pathAsOf hashFunction i a = pure ⟨x, i, a, elements⟩ := by
  have hne : s.leaves ≠ [] := by
    rintro hnil
    simp [hnil] at hx
  rw [pathAsOf, if_neg (by simpa using hne), helements, hx]
  rfl

theorem step_path (hflushed : s.flushed ≤ i) {x : η} (hx : s.leaves[i]? = some x)
    {elements : List (Sibling η)}
    (helements : LeftComplete.path hashFunction s.leaves i = some elements) :
    s.step hashFunction (.path i) = some (s, .path ⟨x, i, s.maxIndex, elements⟩) := by
  have hi := (List.getElem?_eq_some_iff.mp hx).1
  have hindex : ¬ (i < s.flushed ∨ s.maxIndex < i) := by
    rw [maxIndex]
    omega
  have hall : s.leaves.take (s.maxIndex + 1) = s.leaves := by
    apply List.take_of_length_le
    rw [maxIndex]
    omega
  rw [step, call, path, if_neg hindex, pathAsOf_eq hx (by rwa [hall])]
  rfl

theorem step_pastPath (hflushed : s.flushed ≤ i) (hia : i ≤ a) (ha : a < s.leaves.length) {x : η}
    (hx : s.leaves[i]? = some x) {elements : List (Sibling η)}
    (helements : LeftComplete.path hashFunction (s.leaves.take (a + 1)) i = some elements) :
    s.step hashFunction (.pastPath i a) = some (s, .path ⟨x, i, a, elements⟩) := by
  have hindex : ¬ (i < s.flushed ∨ s.maxIndex < a ∨ a < i) := by
    rw [maxIndex]
    omega
  rw [step, call, pastPath, if_neg hindex, pathAsOf_eq hx helements]
  rfl

theorem step_pastRoot (hflushed : s.flushed ≤ a) (ha : a < s.leaves.length) {value : η}
    (hfold : fold hashFunction (s.leaves.take (a + 1)) = some value) :
    s.step hashFunction (.pastRoot a) = some (s, .hash value) := by
  have hindex : ¬ (a < s.flushed ∨ s.maxIndex < a) := by
    rw [maxIndex]
    omega
  have hne : ¬ (s.leaves.take (a + 1)).isEmpty := by
    intro hempty
    rw [List.isEmpty_iff.mp hempty] at hfold
    cases hfold
  rw [step, call, pastRoot, if_neg hindex, root, if_neg hne, hfold]
  rfl

/-- What a call may not do if the leaves from `i` to `a` are still wanted. -/
def Spares (i a : ℕ) : MerkleCall η → Prop
  | .flushTo index => index ≤ i
  | .retractTo index => a ≤ index
  | _ => True

/-- The first leaves are as they were, and the leaf `i` is not flushed. -/
structure Kept (l : List η) (i : ℕ) (s : LeafLog η) : Prop where
  leaves : l <+: s.leaves
  flushed : s.flushed ≤ i

theorem step_kept {l : List η} {c : MerkleCall η}
    (hspares : Spares i (l.length - 1) c) (h : s.Kept l i) {s' : LeafLog η}
    {answer : MerkleAnswer η} (hstep : s.step hashFunction c = some (s', answer)) :
    s'.Kept l i := by
  cases c with
  | insert hash =>
      cases hstep
      exact ⟨h.leaves.trans (List.prefix_append _ _), h.flushed⟩
  | root | leaf | path | pastRoot | pastPath =>
      obtain rfl := settle_bind hstep
      exact h
  | flushTo index =>
      rw [step, call, flushTo] at hstep
      split_ifs at hstep <;> cases hstep
      · exact h
      · exact h
      · exact ⟨h.leaves, hspares⟩
  | retractTo index =>
      rw [step, call, retractTo] at hstep
      split_ifs at hstep <;> cases hstep
      · exact h
      · exact h
      · refine ⟨?_, h.flushed⟩
        apply List.prefix_take_iff.mpr ⟨h.leaves, ?_⟩
        exact Nat.le_add_of_sub_le hspares
  | size =>
      cases hstep
      exact h

end LeafLog

namespace MerkleTree

variable {η : Type} [Inhabited η] {hashFunction : η → η → η} {t : MerkleTree η}

/-- Three leaves wait. -/
def sampleTree : MerkleTree ℕ := { uninsertedLeafNodes := [1, 2, 3] }

theorem reachable_sampleTree : sampleTree.Reachable fun a b => 10 * a + b :=
  ⟨[.insert 1, .insert 2, .insert 3], [.done, .done, .done], by decide +kernel, rfl⟩

/-- A path and a root can be asked for later, whatever is inserted, flushed and retracted
meanwhile, as long as the leaves from the one of the path to the last one are spared. -/
theorem past_kept (h : t.Reachable hashFunction) {i : ℕ} (hmin : t.minIndex ≤ i)
    (hi : i < t.numLeaves) :
    ∃ t₁ t₂ p hash, t.step hashFunction (.path i) = some (t₁, .path p) ∧
      t.step hashFunction .root = some (t₂, .hash hash) ∧
      ∀ calls t' answers, (∀ c ∈ calls, LeafLog.Spares i t.maxIndex c) →
        Steps.Along (step hashFunction) Room t calls →
        Steps.run (step hashFunction) t calls = some (t', answers) →
        ∃ t₃ t₄, t'.step hashFunction (.pastPath i t.maxIndex) = some (t₃, .path p) ∧
          t'.step hashFunction (.pastRoot t.maxIndex) = some (t₄, .hash hash) := by
  obtain ⟨s, hkeeps⟩ := h.keeps
  rw [numLeaves_eq hkeeps.represents] at hi
  rw [minIndex, hkeeps.flushed] at hmin
  have hpos : 0 < s.leaves.length := by omega
  have hne := List.ne_nil_of_length_pos hpos
  have hx := List.getElem?_eq_getElem hi
  obtain ⟨elements, helements, hfold⟩ := exists_path hashFunction hne hx
  obtain ⟨t₁, hpath, -⟩ := step_of_log hkeeps (LeafLog.step_path hmin hx helements) trivial
  obtain ⟨t₂, hroot, -⟩ := step_of_log hkeeps (LeafLog.step_root hashFunction hne hfold) trivial
  refine ⟨t₁, t₂, _, _, hpath, hroot, ?_⟩
  intro calls t' answers hspares hroom hrun
  rw [maxIndex_eq hkeeps.represents] at hspares ⊢
  obtain ⟨t'', s', answers', hrun', hlog, hkeeps'⟩ := run_simulates hkeeps hroom
  obtain ⟨rfl, -⟩ := Prod.mk.inj (Option.some.inj (hrun.symm.trans hrun'))
  have hkept : s'.Kept s.leaves i := by
    have hstart : s.Kept s.leaves i := ⟨List.prefix_rfl, hmin⟩
    have halong : Steps.Along (LeafLog.step hashFunction)
        (fun _ => LeafLog.Spares i (s.leaves.length - 1)) s calls :=
      Steps.along_of_forall_mem (fun c hc _ => hspares c hc) s
    exact halong.invariant (I := LeafLog.Kept s.leaves i)
      (fun _ _ _ hkept hc hstep => LeafLog.step_kept hc hkept hstep) hstart hlog
  have hall : s'.leaves.take (s.leaves.length - 1 + 1) = s.leaves := by
    rw [Nat.sub_add_cancel hpos]
    exact (List.prefix_iff_eq_take.mp hkept.leaves).symm
  have hlength := hkept.leaves.length_le
  have hx' := List.prefix_iff_getElem?.mp hkept.leaves i hi
  obtain ⟨t₃, hpastPath, -⟩ := step_of_log hkeeps'
    (LeafLog.step_pastPath (a := s.leaves.length - 1) hkept.flushed (by omega) (by omega) hx'
      (by rwa [hall])) trivial
  obtain ⟨t₄, hpastRoot, -⟩ := step_of_log hkeeps'
    (LeafLog.step_pastRoot (a := s.leaves.length - 1) (hkept.flushed.trans (by omega)) (by omega)
      (by rwa [hall])) trivial
  exact ⟨t₃, t₄, hpastPath, hpastRoot⟩

theorem past_kept_sampleTree :
    ∃ t₁ t₂ p hash, sampleTree.step (fun a b => 10 * a + b) (.path 1) = some (t₁, .path p) ∧
      sampleTree.step (fun a b => 10 * a + b) .root = some (t₂, .hash hash) ∧
      ∀ calls t' answers, (∀ c ∈ calls, LeafLog.Spares 1 sampleTree.maxIndex c) →
        Steps.Along (step fun a b => 10 * a + b) Room sampleTree calls →
        Steps.run (step fun a b => 10 * a + b) sampleTree calls = some (t', answers) →
        ∃ t₃ t₄, t'.step (fun a b => 10 * a + b) (.pastPath 1 sampleTree.maxIndex) =
            some (t₃, .path p) ∧
          t'.step (fun a b => 10 * a + b) (.pastRoot sampleTree.maxIndex) =
            some (t₄, .hash hash) :=
  past_kept reachable_sampleTree (by decide) (by decide)

/-- The nodes over the leaves that wait on the insertion stack are not counted. -/
theorem size_counts (h : t.Reachable hashFunction) :
    ∃ t' n, t.size = some (t', n) ∧ n ≤ 2 * t.numLeaves - 1 ∧
      (n = 2 * t.numLeaves - 1 ↔ t'.insertionStack = []) := by
  obtain ⟨s, hkeeps⟩ := h.keeps
  obtain ⟨t', hinsert, hinserted, -, -⟩ := insertLeaves_false_eq hkeeps.represents hkeeps.room
  refine ⟨t', _, by rw [size, hinsert]; rfl, ?_⟩
  rw [numLeaves_eq hkeeps.represents]
  cases hroot : t'.rootNode with
  | none =>
      obtain ⟨hnil, hstack⟩ := hinserted.empty hroot
      simp [hnil, hstack]
  | some root =>
      obtain ⟨cap, q, p, hspine, hbuilt, -, heq⟩ := hinserted.nodes root hroot
      have hpos := hbuilt.length_pos
      rw [heq, List.length_append, Option.map_some, Option.getD_some, hbuilt.size_eq]
      refine ⟨by omega, ?_⟩
      generalize t'.insertionStack = stack at hspine ⊢
      cases hspine with
      | nil cap => simp
      | @cons _ cap' _ q l left right hash size height hrest hleft hcap hlt =>
          have hlpos := hleft.length_pos
          rw [List.length_append]
          simp only [reduceCtorEq, iff_false]
          omega

theorem size_counts_sampleTree :
    ∃ t' n, sampleTree.size = some (t', n) ∧ n ≤ 2 * sampleTree.numLeaves - 1 ∧
      (n = 2 * sampleTree.numLeaves - 1 ↔ t'.insertionStack = []) :=
  size_counts reachable_sampleTree

end MerkleTree

end SRCommon
