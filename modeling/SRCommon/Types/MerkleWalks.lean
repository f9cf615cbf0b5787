import SRCommon.Types.MerkleNodes

/-!
# Walks to a leaf

The walk reads one bit of the index for every height of the root, and skips the
heights at which the node is lower. What is done at the nodes is brought out by
three rules: for the leaf, for a node that the walk goes on from, and for a node
that is replaced by a lower one.
-/

namespace SRCommon

open LeftComplete (Sibling Side fold fold_append length_append_le path_singleton
  path_append_of_lt path_append_of_le take_of_lt take_of_le length_take_le getElem?_of_lt
  getElem?_of_le earlier fold_take exists_fold exists_path)

namespace MerkleTree

open MerkleNode (BuiltOver)

variable {η : Type} {hashFunction : η → η → η}

/-! ## Bits of an index -/

/-- The bits that are left of an index at a height. -/
def bits (h i : ℕ) : ℕ := i * 2 ^ (65 - h) % 2 ^ 64

theorem startBits_eq {root : MerkleNode η} (hpos : 1 ≤ root.height) (hle : root.height ≤ 64)
    (i : ℕ) : startBits root i = bits root.height i := by
  rw [startBits, bits]
  split
  · rw [show 64 - root.height + 1 = 65 - root.height by omega]
  · rw [show root.height = 1 by omega, Nat.mul_mod_left]

theorem shift_bits {k : ℕ} (hk : k + 2 ≤ 64) (i : ℕ) : shift (bits (k + 2) i) = bits (k + 1) i := by
  have hpow : 2 ^ (65 - (k + 1)) = 2 ^ (65 - (k + 2)) * 2 := by
    rw [← Nat.pow_succ]
    congr 1
    omega
  rw [shift, bits, bits, hpow, ← Nat.mul_assoc, Nat.mod_mul_mod]

theorem bits_sub {k i : ℕ} (hk : k + 2 ≤ 64) (hi : 2 ^ k ≤ i) :
    bits (k + 1) i = bits (k + 1) (i - 2 ^ k) := by
  obtain ⟨j, rfl⟩ := Nat.exists_eq_add_of_le' hi
  have hpow : 2 ^ k * 2 ^ (65 - (k + 1)) = 2 ^ 64 := by
    rw [← Nat.pow_add]
    congr 1
    omega
  rw [bits, bits, Nat.add_sub_cancel, Nat.add_mul, hpow, Nat.add_mod_right]

theorem goesRight_bits {k i : ℕ} (hk : k + 2 ≤ 64) (hi : i < 2 ^ (k + 1)) :
    goesRight (bits (k + 2) i) = decide (2 ^ k ≤ i) := by
  have hpow : 2 ^ k * 2 ^ (65 - (k + 2)) = 2 ^ 63 := by
    rw [← Nat.pow_add]
    congr 1
    omega
  have hpos : 0 < 2 ^ (65 - (k + 2)) := Nat.two_pow_pos _
  have hlt : i * 2 ^ (65 - (k + 2)) < 2 ^ 64 := by
    calc
      _ < 2 ^ (k + 1) * 2 ^ (65 - (k + 2)) := (Nat.mul_lt_mul_right hpos).mpr hi
      _ = 2 ^ k * 2 ^ (65 - (k + 2)) * 2 := by rw [Nat.pow_succ, Nat.mul_right_comm]
      _ = 2 ^ 64 := by rw [hpow, ← Nat.pow_succ]
  rw [goesRight, bits, Nat.mod_eq_of_lt hlt, ← hpow]
  exact decide_eq_decide.mpr (Nat.mul_le_mul_right_iff hpos)

/-! ## Rules for the loop -/

section

variable {σ : Type} {update : Bool}
  {f : σ → MerkleNode η → Bool → Option (σ × MerkleNode η × Bool)} {i k : ℕ} {s s' : σ}
  {n n' child beside : MerkleNode η} {Q Q' : σ × MerkleNode η × MerkleNode η → Prop}

/-- The walk to a leaf below the node, from any height at which it may be there, ends with what the
condition says. -/
def Walks (update : Bool) (f : σ → MerkleNode η → Bool → Option (σ × MerkleNode η × Bool))
    (i : ℕ) (s : σ) (n : MerkleNode η) (Q : σ × MerkleNode η × MerkleNode η → Prop) : Prop :=
  ∀ h fuel, n.height ≤ h → h ≤ 64 → n.height + h ≤ fuel + 1 →
    ∃ r, walkLoop update f fuel h (bits h i) s n = some r ∧ Q r ∧ r.2.1.updateSizes = r.2.1

/-- Higher up the walk does nothing. -/
theorem Walks.of_height (hpos : 1 ≤ n.height)
    (hexact : ∀ fuel, n.height ≤ 64 → n.height + n.height ≤ fuel + 1 →
      ∃ r, walkLoop update f fuel n.height (bits n.height i) s n = some r ∧ Q r ∧
        r.2.1.updateSizes = r.2.1) : Walks update f i s n Q := by
  intro h fuel hle h64 hfuel
  induction h, hle using Nat.le_induction generalizing fuel with
  | base => exact hexact fuel h64 hfuel
  | succ h hle ih =>
      cases fuel with
      | zero => omega
      | succ fuel =>
          obtain ⟨r, hr, hQ, hsizes⟩ := ih fuel (by omega) (by omega)
          obtain ⟨k, rfl⟩ := Nat.exists_eq_add_of_le' (hpos.trans hle)
          refine ⟨r, ?_, hQ, hsizes⟩
          rw [walkLoop, if_neg (by omega), if_neg (by omega), shift_bits h64]
          simp [hr, hsizes]

theorem walks_leaf (hn : n.height = 1) (hQ : Q (s, n, n)) (hsizes : n.updateSizes = n) :
    Walks update f i s n Q := by
  apply Walks.of_height hn.ge
  intro fuel h64 hfuel
  cases fuel with
  | zero => omega
  | succ fuel =>
      refine ⟨(s, n, n), ?_, hQ, hsizes⟩
      rw [walkLoop, if_pos hn.le]

/-- The nodes on the way back. -/
def updated (update : Bool) (n : MerkleNode η) : MerkleNode η :=
  if update then n.updateSizes else n

/-- The walk goes on from the node. -/
theorem walks_turn (hn : n.height = k + 2) (hi : i < 2 ^ (k + 1))
    (hf : f s n (decide (2 ^ k ≤ i)) = some (s', n', true))
    (hturn : n'.turn (decide (2 ^ k ≤ i)) = some (child, beside)) (hchild : child.height ≤ k + 1)
    (hwalks : Walks update f (if 2 ^ k ≤ i then i - 2 ^ k else i) s' child Q')
    (hQ : ∀ r, Q' r → ∃ n'', n'.setChild (decide (2 ^ k ≤ i)) r.2.1 = some n'' ∧
      Q (r.1, updated update n'', r.2.2) ∧
        (updated update n'').updateSizes = updated update n'') :
    Walks update f i s n Q := by
  apply Walks.of_height (by omega)
  intro fuel h64 hfuel
  cases fuel with
  | zero => omega
  | succ fuel =>
      rw [hn] at h64 hfuel ⊢
      have hbits : bits (k + 1) i = bits (k + 1) (if 2 ^ k ≤ i then i - 2 ^ k else i) := by
        split
        · exact bits_sub h64 ‹_›
        · rfl
      obtain ⟨r, hr, hQ', -⟩ := hwalks (k + 1) fuel hchild (by omega) (by omega)
      obtain ⟨n'', hset, hQ, hsizes⟩ := hQ r hQ'
      refine ⟨_, ?_, hQ, hsizes⟩
      rw [walkLoop, if_neg (by omega), if_pos hn, goesRight_bits h64 hi, hf, shift_bits h64]
      simp [hturn, hbits, hr, hset, updated]

theorem walks_left {left right left' right' : MerkleNode η} {hash hash' : η}
    {size size' height' : ℕ} {dirty dirty' : Bool} (hlt : i < 2 ^ k)
    (hf : f s (.branch left right hash size (k + 2) dirty) false =
      some (s', .branch left' right' hash' size' height' dirty', true))
    (hchild : left'.height ≤ k + 1) (hwalks : Walks update f i s' left' Q')
    (hQ : ∀ r, Q' r →
      let n := updated update (.branch r.2.1 right' hash' size' height' dirty')
      Q (r.1, n, r.2.2) ∧ n.updateSizes = n) :
    Walks update f i s (.branch left right hash size (k + 2) dirty) Q := by
  have hnot : decide (2 ^ k ≤ i) = false := decide_eq_false (Nat.not_le.mpr hlt)
  have hbound : i < 2 ^ (k + 1) := hlt.trans (Nat.pow_lt_pow_succ (Nat.lt_succ_self 1))
  have hwalks : Walks update f (if 2 ^ k ≤ i then i - 2 ^ k else i) s' left' Q' := by
    rwa [if_neg (Nat.not_le.mpr hlt)]
  refine walks_turn rfl hbound (by rw [hnot, hf]) (by rw [hnot]; rfl) hchild hwalks ?_
  intro r hr
  exact ⟨_, by rw [hnot]; rfl, hQ r hr⟩

theorem walks_right {left right left' right' : MerkleNode η} {hash hash' : η}
    {size size' height' : ℕ} {dirty dirty' : Bool} (hge : 2 ^ k ≤ i) (hi : i < 2 ^ (k + 1))
    (hf : f s (.branch left right hash size (k + 2) dirty) true =
      some (s', .branch left' right' hash' size' height' dirty', true))
    (hchild : right'.height ≤ k + 1) (hwalks : Walks update f (i - 2 ^ k) s' right' Q')
    (hQ : ∀ r, Q' r →
      let n := updated update (.branch left' r.2.1 hash' size' height' dirty')
      Q (r.1, n, r.2.2) ∧ n.updateSizes = n) :
    Walks update f i s (.branch left right hash size (k + 2) dirty) Q := by
  have hyes : decide (2 ^ k ≤ i) = true := decide_eq_true hge
  have hwalks : Walks update f (if 2 ^ k ≤ i then i - 2 ^ k else i) s' right' Q' := by
    rwa [if_pos hge]
  refine walks_turn rfl hi (by rw [hyes, hf]) (by rw [hyes]; rfl) hchild hwalks ?_
  intro r hr
  exact ⟨_, by rw [hyes]; rfl, hQ r hr⟩

/-- The node is replaced by a lower one. -/
theorem walks_replace (hn : n.height = k + 2) (hi : i < 2 ^ (k + 1))
    (hf : f s n (decide (2 ^ k ≤ i)) = some (s', n', false)) (hlower : n'.height ≤ k + 1)
    (hwalks : Walks update f i s' n' Q) : Walks update f i s n Q := by
  apply Walks.of_height (by omega)
  intro fuel h64 hfuel
  cases fuel with
  | zero => omega
  | succ fuel =>
      rw [hn] at h64 hfuel ⊢
      obtain ⟨r, hr, hQ, hsizes⟩ := hwalks (k + 2) fuel (by omega) h64 (by omega)
      refine ⟨r, ?_, hQ, hsizes⟩
      rw [walkLoop, if_neg (by omega), if_pos hn, goesRight_bits h64 hi, hf]
      simp [hr, hsizes]

end

/-! ## What the walks do -/

section

variable {flushed i : ℕ} {l : List η} {n : MerkleNode η}

/-- A walk that only notes the siblings. -/
theorem walks_collect {σ : Type} {f : σ → MerkleNode η → Bool → Option (σ × MerkleNode η × Bool)}
    (note : σ → Sibling η → σ)
    (hf : ∀ s (left right : MerkleNode η) hash size height dirty goRight,
      f s (.branch left right hash size height dirty) goRight =
        some (note s (if goRight then ⟨left.hash, .left⟩ else ⟨right.hash, .right⟩),
          .branch left right hash size height dirty, true))
    (hn : BuiltOver hashFunction flushed l n) (hclean : n.dirty = false) (hflushed : flushed ≤ i)
    (hi : i < l.length) (s : σ) :
    ∃ siblings, LeftComplete.path hashFunction l i = some siblings ∧
      Walks false f i s n fun r => r.1 = siblings.reverse.foldl note s ∧ r.2.1 = n := by
  have hsizes := hn.updateSizes_eq (hflushed.trans_lt hi)
  induction hn generalizing i s with
  | leaf flushed a => exact ⟨[], path_singleton a, walks_leaf rfl ⟨rfl, rfl⟩ rfl⟩
  | conflated hk hle hhash => omega
  | @node flushed k l₁ l₂ left right hash dirty hleft hright hk hpos hle hdirty ihLeft ihRight =>
      obtain ⟨hl, hr, -⟩ := hdirty hclean
      rw [List.length_append] at hi
      rcases Nat.lt_or_ge i (2 ^ k) with hlt | hge
      · have hleftSizes := hleft.updateSizes_eq (hflushed.trans_lt (hk ▸ hlt))
        obtain ⟨siblings, hpath, hwalks⟩ := ihLeft hl hflushed (hk ▸ hlt)
          (note s ⟨right.hash, .right⟩) hleftSizes
        refine ⟨_, path_append_of_lt hk hpos hle hlt hpath (hright.fold_eq hr), ?_⟩
        apply walks_left hlt (hf _ _ _ _ _ _ _ _) (hleft.height_eq hk).le hwalks
        rintro r ⟨hr₁, rfl⟩
        refine ⟨⟨?_, rfl⟩, hsizes⟩
        rw [hr₁, List.reverse_append]
        rfl
      · have hflushed' : flushed - l₁.length ≤ i - 2 ^ k := by omega
        have hi' : i - 2 ^ k < l₂.length := by omega
        have hrightSizes := hright.updateSizes_eq (hflushed'.trans_lt hi')
        obtain ⟨siblings, hpath, hwalks⟩ := ihRight hr hflushed' hi'
          (note s ⟨left.hash, .left⟩) hrightSizes
        refine ⟨_, path_append_of_le hk hpos hle hge hpath (hleft.fold_eq hl), ?_⟩
        have hbound : i < 2 ^ (k + 1) := by
          rw [Nat.pow_succ]
          omega
        apply walks_right hge hbound (hf _ _ _ _ _ _ _ _) (hright.height_le hle) hwalks
        rintro r ⟨hr₁, rfl⟩
        refine ⟨⟨?_, rfl⟩, hsizes⟩
        rw [hr₁, List.reverse_append]
        rfl

theorem walks_collectSibling (hn : BuiltOver hashFunction flushed l n) (hclean : n.dirty = false)
    (hflushed : flushed ≤ i) (hi : i < l.length) :
    ∃ siblings, LeftComplete.path hashFunction l i = some siblings ∧
      Walks false collectSibling i [] n fun r => r.1 = siblings ∧ r.2.1 = n := by
  have hf : ∀ s (left right : MerkleNode η) hash size height dirty goRight,
      collectSibling s (.branch left right hash size height dirty) goRight =
        some ((if goRight then ⟨left.hash, .left⟩ else ⟨right.hash, .right⟩) :: s,
          .branch left right hash size height dirty, true) := by
    intro s left right hash size height dirty goRight
    cases goRight <;> rfl
  obtain ⟨siblings, hpath, hwalks⟩ :=
    walks_collect (fun s e => e :: s) hf hn hclean hflushed hi []
  refine ⟨siblings, hpath, ?_⟩
  simpa using hwalks

/-- The leaves before the index may be conflated, and no hash is lost. -/
theorem walks_conflate (hn : BuiltOver hashFunction flushed l n) (hclean : n.dirty = false)
    (hflushed : flushed ≤ i) (hi : i < l.length) :
    Walks false (conflate hashFunction) i () n fun r =>
      BuiltOver hashFunction i l r.2.1 ∧ r.2.1.dirty = false := by
  induction hn generalizing i with
  | leaf flushed a => exact walks_leaf rfl ⟨.leaf i a, rfl⟩ rfl
  | conflated hk hle hhash => omega
  | @node flushed k l₁ l₂ left right hash dirty hleft hright hk hpos hle hdirty ihLeft ihRight =>
      obtain ⟨hl, hr, hhash⟩ := hdirty hclean
      have hlength := hi
      rw [List.length_append] at hlength
      rcases Nat.lt_or_ge i (2 ^ k) with hlt | hge
      · apply walks_left hlt rfl (hleft.height_eq hk).le (ihLeft hl hflushed (hk ▸ hlt))
        rintro r ⟨hbuilt, hr₁⟩
        have hnode := BuiltOver.node hbuilt (hright.mono (Nat.sub_le_sub_right hflushed _)) hk hpos
          hle fun _ : dirty = false => ⟨hr₁, hr, hhash.trans (by rw [hleft.hash_eq hl hbuilt hr₁])⟩
        exact ⟨⟨hnode, hclean⟩, hnode.updateSizes_eq hi⟩
      · have hbound : i < 2 ^ (k + 1) := by
          rw [Nat.pow_succ]
          omega
        have hconflated :
            BuiltOver hashFunction i l₁ (.tip left.hash left.size left.height false) := by
          rw [hleft.size_eq, hleft.height_eq hk]
          exact .conflated hk (hk ▸ hge) (hleft.fold_eq hl)
        have hf : conflate hashFunction ()
            (.branch left right hash (2 * (l₁.length + l₂.length) - 1) (k + 2) dirty) true =
              some ((), .branch (.tip left.hash left.size left.height false) right hash
                (2 * (l₁.length + l₂.length) - 1) (k + 2) dirty, true) := by
          simp [conflate, hl]
        apply walks_right hge hbound hf (hright.height_le hle)
          (ihRight hr (by omega) (by omega))
        rintro r ⟨hbuilt, hr₁⟩
        rw [← hk] at hbuilt
        have hnode := BuiltOver.node hconflated hbuilt hk hpos hle fun _ : dirty = false =>
          ⟨rfl, hr₁, hhash.trans (by rw [hright.hash_eq hr hbuilt hr₁]; rfl)⟩
        exact ⟨⟨hnode, hclean⟩, hnode.updateSizes_eq hi⟩

/-- A node with children is made dirty, or clean. -/
def redirty (dirty : Bool) : MerkleNode η → MerkleNode η
  | .tip hash size height d => .tip hash size height d
  | .branch left right hash size height _ => .branch left right hash size height dirty

theorem eliminate_left (left right : MerkleNode η) (hash : η) (size height : ℕ) (dirty : Bool) :
    eliminate () (.branch left right hash size height dirty) false =
      some ((), redirty true left, false) := by
  cases left <;> rfl

theorem height_redirty (d : Bool) : (redirty d n).height = n.height := by
  cases n <;> rfl

/-- The leaves behind the index are gone, and the leaf itself is the one that is found. -/
theorem walks_eliminate (hn : BuiltOver hashFunction flushed l n) (hflushed : flushed ≤ i)
    (hi : i < l.length) (d : Bool) :
    Walks true eliminate i () (redirty d n) fun r =>
      BuiltOver hashFunction flushed (l.take (i + 1)) r.2.1 ∧ l[i]? = some r.2.2.hash := by
  induction hn generalizing i d with
  | leaf flushed a =>
      obtain rfl : i = 0 := by simpa using hi
      exact walks_leaf rfl ⟨.leaf _ a, rfl⟩ rfl
  | conflated hk hle hhash => omega
  | @node flushed k l₁ l₂ left right hash dirty hleft hright hk hpos hle hdirty ihLeft ihRight =>
      rw [List.length_append] at hi
      have hbound : i < 2 ^ (k + 1) := by
        rw [Nat.pow_succ]
        omega
      rw [redirty]
      rcases Nat.lt_or_ge i (2 ^ k) with hlt | hge
      · have hi₁ : i < l₁.length := hk ▸ hlt
        have hf : eliminate ()
            (.branch left right hash (2 * (l₁.length + l₂.length) - 1) (k + 2) d)
            (decide (2 ^ k ≤ i)) = some ((), redirty true left, false) := by
          rw [decide_eq_false (Nat.not_le.mpr hlt)]
          apply eliminate_left
        rw [take_of_lt hk hlt, getElem?_of_lt hk hlt]
        refine walks_replace rfl hbound hf ?_ (ihLeft hflushed hi₁ true)
        rw [height_redirty]
        exact (hleft.height_eq hk).le
      · have hright' : redirty right.dirty right = right := by cases right <;> rfl
        have hwalks := ihRight (i := i - 2 ^ k) (by omega) (by omega) right.dirty
        rw [hright'] at hwalks
        rw [take_of_le hk hge, getElem?_of_le hk hge]
        apply walks_right hge hbound rfl (hright.height_le hle) hwalks
        rintro r ⟨hbuilt, hleaf⟩
        have hparent := hleft.parent hbuilt hk (length_take_le hle _) hash
          (2 * (l₁.length + l₂.length) - 1) (k + 2)
        refine ⟨⟨hparent, hleaf⟩, hparent.updateSizes_eq ?_⟩
        rw [List.length_append, List.length_take]
        omega

theorem walks_eliminate_root (hn : BuiltOver hashFunction flushed l n) (hflushed : flushed ≤ i)
    (hi : i < l.length) : Walks true eliminate i () n fun r =>
      BuiltOver hashFunction flushed (l.take (i + 1)) r.2.1 ∧ l[i]? = some r.2.2.hash := by
  have hsame : redirty n.dirty n = n := by cases n <;> rfl
  have hwalks := walks_eliminate hn hflushed hi n.dirty
  rwa [hsame] at hwalks

/-! ## Two leaves at once -/

/-- The walk to a leaf has come to a node over some leaves. -/
structure At (hashFunction : η → η → η) (h it : ℕ) (n : MerkleNode η) (l : List η) (i : ℕ) :
    Prop where
  built : ∃ flushed ≤ i, BuiltOver hashFunction flushed l n
  clean : n.dirty = false
  lt : i < l.length
  height : n.height ≤ h
  it_eq : it = bits h i

/-- What a round notes on one of the two ways. -/
inductive Turns (h : ℕ) (goRight : Bool) :
    MerkleNode η → MerkleNode η → List (Sibling η) → Prop
  | down {n child : MerkleNode η} {e : Sibling η} (hn : n.height = h)
      (hsibling : siblingAt goRight n = some (child, e)) (hside : goRight = (e.side = .left)) :
      Turns h goRight n child [e]
  | wait {n : MerkleNode η} (hn : n.height ≠ h) : Turns h goRight n n []

theorem turns_left (left right : MerkleNode η) (hash : η) (size k : ℕ) (dirty : Bool) :
    Turns (k + 2) false (.branch left right hash size (k + 2) dirty) left
      [⟨right.hash, .right⟩] :=
  .down rfl rfl (by simp)

theorem turns_right (left right : MerkleNode η) (hash : η) (size k : ℕ) (dirty : Bool) :
    Turns (k + 2) true (.branch left right hash size (k + 2) dirty) right [⟨left.hash, .left⟩] :=
  .down rfl rfl (by simp)

variable {h it itI itA a : ℕ} {goRight : Bool} {child : MerkleNode η}
  {noted : List (Sibling η)} {w : PastWalk η} {lI lA : List η}

theorem turnToIndex_eq (hturns : Turns h goRight w.curI child noted) :
    w.turnToIndex h goRight =
      some { w with curI := child, forkToIndex := w.forkToIndex ++ noted } := by
  cases hturns with
  | down hn hsibling hside => simp [PastWalk.turnToIndex, hn, hsibling]
  | wait hn => simp [PastWalk.turnToIndex, hn]

theorem turnToAsOf_eq (hturns : Turns h goRight w.curA child noted) :
    w.turnToAsOf h goRight =
      some { w with curA := child, forkToAsOf := w.forkToAsOf ++ earlier noted } := by
  cases hturns with
  | @down child e hn hsibling hside =>
      cases goRight <;> simp_all [PastWalk.turnToAsOf, earlier]
  | wait hn => simp [PastWalk.turnToAsOf, hn, earlier]

/-- A leaf is all that is left at the end. -/
theorem At.single (hat : At hashFunction h it n l i) (hh : h ≤ 1) : l = [n.hash] ∧ i = 0 := by
  obtain ⟨flushed, hle, hbuilt⟩ := hat.built
  have hlength := hbuilt.length_le
  have hheight := hat.height
  have hpos := hat.lt
  rw [show n.height - 1 = 0 by omega] at hlength
  obtain ⟨x, rfl⟩ := List.length_eq_one_iff.mp (show l.length = 1 by omega)
  have hfold := hbuilt.fold_eq hat.clean
  rw [LeftComplete.fold_singleton] at hfold
  exact ⟨by rw [Option.some.inj hfold], by simpa using hpos⟩

theorem At.turn {k : ℕ} (hat : At hashFunction (k + 2) it n l i) (hk : k + 2 ≤ 64) :
    ∃ child l' i' noted, At hashFunction (k + 1) (shift it) child l' i' ∧
      Turns (k + 2) (goesRight it) n child noted ∧ l'[i']? = l[i]? ∧
      ∀ siblings, LeftComplete.path hashFunction l' i' = some siblings →
        LeftComplete.path hashFunction l i = some (siblings ++ noted) := by
  obtain ⟨⟨flushed, hflushed, hn⟩, hclean, hi, hheight, rfl⟩ := hat
  rw [shift_bits hk]
  by_cases hexact : n.height = k + 2
  · cases hn with
    | leaf flushed a => cases hexact
    | conflated hk' hle hhash => omega
    | @node _ j l₁ l₂ left right hash dirty hleft hright hj hpos hle hdirty =>
        obtain rfl : j = k := Nat.add_right_cancel hexact
        obtain ⟨hl, hr, -⟩ := hdirty hclean
        rw [goesRight_bits hk (hi.trans_le (length_append_le hj hle))]
        rw [List.length_append] at hi
        rcases Nat.lt_or_ge i (2 ^ j) with hlt | hge
        · rw [decide_eq_false (Nat.not_le.mpr hlt), getElem?_of_lt hj hlt]
          refine ⟨left, l₁, i, _, ⟨⟨flushed, hflushed, hleft⟩, hl, hj ▸ hlt,
            (hleft.height_eq hj).le, rfl⟩, turns_left _ _ _ _ _ _, rfl,
            fun s hs => path_append_of_lt hj hpos hle hlt hs (hright.fold_eq hr)⟩
        · rw [decide_eq_true hge, getElem?_of_le hj hge, bits_sub hk hge]
          refine ⟨right, l₂, i - 2 ^ j, _, ⟨⟨_, by omega, hright⟩, hr, by omega,
            hright.height_le hle, rfl⟩, turns_right _ _ _ _ _ _, rfl,
            fun s hs => path_append_of_le hj hpos hle hge hs (hleft.fold_eq hl)⟩
  · exact ⟨n, l, i, [], ⟨⟨flushed, hflushed, hn⟩, hclean, hi, by omega, rfl⟩, .wait hexact, rfl,
      fun s hs => by rwa [List.append_nil]⟩

theorem pastRound_forked {goRightI goRightA : Bool} {childI childA : MerkleNode η}
    {notedI notedA : List (Sibling η)} (hI : Turns h goRightI w.curI childI notedI)
    (hA : Turns h goRightA w.curA childA notedA)
    (hforked : (w.isForked || goRightI != goRightA) = true) :
    pastRound h goRightI goRightA w = some { w with
      curI := childI
      curA := childA
      isForked := true
      forkToIndex := w.forkToIndex ++ notedI
      forkToAsOf := w.forkToAsOf ++ earlier notedA } := by
  rw [pastRound]
  simp only [hforked, Bool.not_true, Bool.false_eq_true, if_false]
  rw [turnToIndex_eq (w := { w with isForked := true }) hI, Option.bind_eq_bind,
    Option.bind_some]
  exact turnToAsOf_eq hA

theorem pastRound_same (hturns : Turns h goRight n child noted)
    (rootToFork : List (Sibling η)) :
    pastRound h goRight goRight ⟨n, n, false, rootToFork, [], []⟩ =
      some ⟨child, child, false, rootToFork ++ earlier noted, [], []⟩ := by
  cases hturns with
  | down hn hsibling hside =>
      cases goRight <;> simp_all [pastRound, earlier]
  | wait hn => simp [pastRound, hn, earlier]

theorem Turns.reverse_noted (hturns : Turns h goRight n child noted) : noted.reverse = noted := by
  cases hturns <;> rfl

theorem Turns.reverse_earlier (hturns : Turns h goRight n child noted) :
    (earlier noted).reverse = earlier noted := by
  cases hturns with
  | down hn hsibling hside =>
      rw [earlier, List.filter_singleton]
      cases decide (_ = Side.left) <;> rfl
  | wait hn => rfl

/-- All that comes before joins from the left. -/
theorem climb_earlier (value : η) (siblings : List (Sibling η)) :
    LeftComplete.climb hashFunction value (earlier siblings) =
      (earlier siblings).foldl (fun hash e => hashFunction e.value hash) value := by
  have hside : ∀ s ∈ earlier siblings, s.side = .left := by
    intro s hs
    simpa using (List.mem_filter.mp hs).2
  apply List.foldl_ext
  intro hash s hs
  rw [LeftComplete.join, hside s hs]

theorem earlier_append (p q : List (Sibling η)) : earlier (p ++ q) = earlier p ++ earlier q :=
  List.filter_append p q

theorem pastLoop_end (hh : h ≤ 1) : pastLoop h itI itA w = some w := by
  obtain rfl | rfl := Nat.le_one_iff_eq_zero_or_eq_one.mp hh <;> rfl

/-- After the fork each of the two ways is noted by itself. -/
theorem pastLoop_forked (hI : At hashFunction h itI w.curI lI i)
    (hA : At hashFunction h itA w.curA lA a) (hh : h ≤ 64) (hforked : w.isForked = true) :
    ∃ w' sI sA, pastLoop h itI itA w = some w' ∧
      LeftComplete.path hashFunction lI i = some sI ∧
      LeftComplete.path hashFunction lA a = some sA ∧ lA[a]? = some w'.curA.hash ∧
      w'.forkToIndex = w.forkToIndex ++ sI.reverse ∧
      w'.forkToAsOf = w.forkToAsOf ++ (earlier sA).reverse ∧
      w'.rootToFork = w.rootToFork ∧ w'.isForked = true := by
  induction h using Nat.twoStepInduction generalizing itI itA w lI lA i a with
  | zero | one =>
      obtain ⟨rfl, rfl⟩ := hI.single (by omega)
      obtain ⟨rfl, rfl⟩ := hA.single (by omega)
      refine ⟨w, [], [], pastLoop_end (by omega), LeftComplete.path_singleton _,
        LeftComplete.path_singleton _, rfl, ?_, ?_, rfl, hforked⟩
      · simp
      · simp [earlier]
  | more h _ ih =>
      obtain ⟨childI, lI', i', notedI, hI', hturnsI, -, hpathI⟩ := hI.turn hh
      obtain ⟨childA, lA', a', notedA, hA', hturnsA, hleaf, hpathA⟩ := hA.turn hh
      let w₁ : PastWalk η := { w with
        curI := childI
        curA := childA
        isForked := true
        forkToIndex := w.forkToIndex ++ notedI
        forkToAsOf := w.forkToAsOf ++ earlier notedA }
      obtain ⟨w', sI, sA, hloop, hsI, hsA, hhash, hindex, hasOf, hfork, hforked'⟩ :=
        ih (w := w₁) hI' hA' (by omega) rfl
      refine ⟨w', sI ++ notedI, sA ++ notedA, ?_, hpathI _ hsI, hpathA _ hsA,
        hleaf.symm.trans hhash, ?_, ?_, hfork, hforked'⟩
      · rw [pastLoop, pastRound_forked hturnsI hturnsA (by rw [hforked, Bool.true_or])]
        exact hloop
      · rw [hindex, List.reverse_append, hturnsI.reverse_noted, ← List.append_assoc]
      · rw [hasOf, earlier_append, List.reverse_append, hturnsA.reverse_earlier,
          ← List.append_assoc]

/-- The path as it was when the second of two leaves was the last one. -/
theorem pastLoop_eq (hI : At hashFunction h itI n l i) (hA : At hashFunction h itA n l a)
    (hh : h ≤ 64) (hia : i ≤ a) (rootToFork : List (Sibling η)) :
    ∃ w p, pastLoop h itI itA ⟨n, n, false, rootToFork, [], []⟩ = some w ∧
      LeftComplete.path hashFunction (l.take (a + 1)) i = some p ∧
      w.path hashFunction = p ++ rootToFork.reverse := by
  induction h using Nat.twoStepInduction generalizing itI itA n l i a rootToFork with
  | zero | one =>
      obtain ⟨rfl, rfl⟩ := hI.single (by omega)
      obtain ⟨-, rfl⟩ := hA.single (by omega)
      exact ⟨_, [], pastLoop_end (by omega), LeftComplete.path_singleton _, by simp [PastWalk.path]⟩
  | more h _ ih =>
      obtain ⟨⟨flushed, hflushed, hn⟩, hclean, hi, hheight, rfl⟩ := hI
      obtain ⟨-, -, ha, -, rfl⟩ := hA
      rw [pastLoop, shift_bits hh, shift_bits hh]
      by_cases hexact : n.height = h + 2
      · cases hn with
        | leaf flushed a => cases hexact
        | conflated hk' hle hhash => omega
        | @node _ j l₁ l₂ left right hash dirty hleft hright hj hpos hle hdirty =>
            obtain rfl : j = h := Nat.add_right_cancel hexact
            obtain ⟨hl, hr, -⟩ := hdirty hclean
            have hbound := length_append_le hj hle
            rw [goesRight_bits hh (hi.trans_le hbound), goesRight_bits hh (ha.trans_le hbound)]
            rw [List.length_append] at hi ha
            have hlower := (hleft.height_eq hj).le
            rcases Nat.lt_or_ge a (2 ^ j) with halt | hage
            · have hilt := hia.trans_lt halt
              rw [decide_eq_false (Nat.not_le.mpr halt), decide_eq_false (Nat.not_le.mpr hilt),
                take_of_lt hj halt]
              have hI : At hashFunction (j + 1) (bits (j + 1) i) left l₁ i :=
                ⟨⟨flushed, hflushed, hleft⟩, hl, hj ▸ hilt, hlower, rfl⟩
              have hA : At hashFunction (j + 1) (bits (j + 1) a) left l₁ a :=
                ⟨⟨flushed, hflushed.trans hia, hleft⟩, hl, hj ▸ halt, hlower, rfl⟩
              rw [pastRound_same (turns_left _ _ _ _ _ _)]
              obtain ⟨w, p, hloop, hp, hpath⟩ := ih hI hA (by omega) hia rootToFork
              exact ⟨w, p, by simpa [earlier] using hloop, hp, hpath⟩
            · have hA : At hashFunction (j + 1) (bits (j + 1) a) right l₂ (a - 2 ^ j) :=
                ⟨⟨flushed - l₁.length, by omega, hright⟩, hr, by omega, hright.height_le hle,
                  bits_sub hh hage⟩
              rw [decide_eq_true hage, take_of_le hj hage]
              have hpos' : 0 < (l₂.take (a - 2 ^ j + 1)).length := by
                rw [List.length_take]
                omega
              rcases Nat.lt_or_ge i (2 ^ j) with hilt | hige
              · have hI : At hashFunction (j + 1) (bits (j + 1) i) left l₁ i :=
                  ⟨⟨flushed, hflushed, hleft⟩, hl, hj ▸ hilt, hlower, rfl⟩
                rw [decide_eq_false (Nat.not_le.mpr hilt),
                  pastRound_forked (turns_left _ _ _ _ _ _) (turns_right _ _ _ _ _ _) rfl]
                obtain ⟨w, sI, sA, hloop, hsI, hsA, hhash, hindex, hasOf, hfork, hforked⟩ :=
                  pastLoop_forked (w := ⟨left, right, true, rootToFork,
                    [⟨right.hash, .right⟩], earlier [⟨left.hash, .left⟩]⟩) hI hA (by omega) rfl
                have hfold := fold_take hright.ne_nil hhash hsA
                refine ⟨w, _, hloop, path_append_of_lt hj hpos' (length_take_le hle _) hilt hsI
                  hfold, ?_⟩
                rw [PastWalk.path, hforked, hindex, hasOf, hfork, climb_earlier]
                simp [earlier]
              · have hI : At hashFunction (j + 1) (bits (j + 1) i) right l₂ (i - 2 ^ j) :=
                  ⟨⟨flushed - l₁.length, by omega, hright⟩, hr, by omega, hright.height_le hle,
                    bits_sub hh hige⟩
                rw [decide_eq_true hige,
                  pastRound_same (turns_right _ _ _ _ _ _)]
                obtain ⟨w, p, hloop, hp, hpath⟩ :=
                  ih hI hA (by omega) (by omega) (rootToFork ++ [⟨left.hash, .left⟩])
                refine ⟨w, p ++ [⟨left.hash, .left⟩], ?_, ?_, ?_⟩
                · exact hloop
                · exact path_append_of_le hj hpos' (length_take_le hle _) hige hp (hleft.fold_eq hl)
                · rw [hpath]
                  simp
      · have hlow : n.height - 1 ≤ h := by omega
        have hbound : l.length ≤ 2 ^ h :=
          hn.length_le.trans (Nat.pow_le_pow_right Nat.two_pos hlow)
        have hpow : 2 ^ h < 2 ^ (h + 1) := Nat.pow_lt_pow_succ (Nat.lt_succ_self 1)
        rw [goesRight_bits hh (by omega), goesRight_bits hh (by omega),
          decide_eq_false (by omega), decide_eq_false (by omega), pastRound_same (.wait hexact)]
        have hI : At hashFunction (h + 1) (bits (h + 1) i) n l i :=
          ⟨⟨flushed, hflushed, hn⟩, hclean, hi, by omega, rfl⟩
        have hA : At hashFunction (h + 1) (bits (h + 1) a) n l a :=
          ⟨⟨flushed, hflushed.trans hia, hn⟩, hclean, ha, by omega, rfl⟩
        obtain ⟨w, p, hloop, hp, hpath⟩ := ih hI hA (by omega) hia rootToFork
        exact ⟨w, p, by simpa [earlier] using hloop, hp, hpath⟩

end

end MerkleTree

end SRCommon
