import SRCommon.Lib.ListSearch
import SRCommon.Lib.PartialRun
import SRCommon.SRLM.LogicalNode

/-!
# Links that are stored at both ends

Both ends agree while links are created between pins that are there, and a pin
is removed only where the code happens to find the right link: the far ends
are pins of the same number, no other link to the node stands before theirs,
and no pin behind the removed one has links.
-/

namespace SRCommon

namespace LogicalNode

variable {ν δ : Type} (this : LogicalNode ν δ)

theorem links_modify (side : PinSide) (i : ℕ) (F : List (NodeConnect ν) → List (NodeConnect ν))
    (side' : PinSide) (p : ℕ) :
    (this.withPins side ((this.pins side).modify i fun pin =>
        { pin with connections := F pin.connections })).links side' p =
      if side' = side ∧ p = i ∧ i < (this.pins side).length then F (this.links side' p)
      else this.links side' p := by
  unfold links
  by_cases hside : side' = side
  · subst hside
    rw [pins_withPins, List.getElem?_modify]
    by_cases hp : p = i
    · subst hp
      by_cases hlt : p < (this.pins side').length
      · rw [if_pos ⟨rfl, rfl, hlt⟩, List.getElem?_eq_getElem hlt]
        simp
      · rw [if_neg (fun h => hlt h.2.2), List.getElem?_eq_none (Nat.not_lt.mp hlt)]
        rfl
    · rw [if_neg (fun h => hp h.2.1)]
      cases (this.pins side')[p]? with
      | none => rfl
      | some pin => simp [Ne.symm hp]
  · rw [if_neg (fun h => hside h.1), pins_withPins_of_ne this hside]

theorem length_pins_modify {side : PinSide} {i : ℕ} {f : NodePin ν δ → NodePin ν δ}
    (side' : PinSide) :
    ((this.withPins side ((this.pins side).modify i f)).pins side').length =
      (this.pins side').length := by
  by_cases hside : side' = side
  · subst hside
    rw [pins_withPins, List.length_modify]
  · rw [pins_withPins_of_ne this hside]

theorem links_addConnection (side : PinSide) (pNode : ν) (nodePinIndex i : ℕ) (side' : PinSide)
    (p : ℕ) :
    (this.addConnection side pNode nodePinIndex i).links side' p =
      if side' = side ∧ p = i ∧ i < (this.pins side).length then
        this.links side' p ++ [⟨pNode, nodePinIndex⟩]
      else this.links side' p :=
  this.links_modify side i (fun links => links ++ [NodeConnect.mk pNode nodePinIndex]) side' p

end LogicalNode

namespace LogicalGraph

variable {ν δ : Type} {g g' : LogicalGraph ν δ} {side : PinSide} {this : ν} {index : ℕ}

/-- Both ends know of each link, and know pins that are there. -/
structure Linked (g : LogicalGraph ν δ) : Prop where
  symmetric : ∀ n p m q, ⟨m, q⟩ ∈ (g n).links .output p ↔ ⟨n, p⟩ ∈ (g m).links .input q
  inRange : ∀ side n p, ∀ c ∈ (g n).links side p, c.pinIndex < ((g c.pNode).pins side.other).length

/-- Links to the pins of a node stay with their pins when one of these is removed, and those to
the removed pin are gone. -/
def KeepsPins (g : LogicalGraph ν δ) (side : PinSide) (this : ν) (index : ℕ)
    (g' : LogicalGraph ν δ) : Prop :=
  index < ((g this).pins side).length → ∀ n p q, ⟨this, q⟩ ∈ (g' n).links side.other p →
    ⟨this, if q < index then q else q + 1⟩ ∈ (g n).links side.other p

/-- What a request leaves. -/
def Leaves (g : LogicalGraph ν δ) (request : LinkRequest ν) (g' : LogicalGraph ν δ) : Prop :=
  g'.Linked ∧ match request with
    | .link _ _ _ _ => True
    | .removeInput this index => g.KeepsPins .input this index g'
    | .removeOutput this index => g.KeepsPins .output this index g'

/-- The removal of a pin finds just the links to this pin, and the pins behind it have none. -/
structure FindsLinks (g : LogicalGraph ν δ) (side : PinSide) (this : ν) (index : ℕ) : Prop where
  sameIndex : ∀ c ∈ (g this).links side index, c.pinIndex = index
  first : ∀ n, ((g n).links side.other index).Pairwise fun c c' =>
    c' = ⟨this, index⟩ → c.pNode = this → c = ⟨this, index⟩
  behind : ∀ q, index < q → (g this).links side q = []

/-- The requests that the code carries out at both ends. -/
def Matched (g : LogicalGraph ν δ) : LinkRequest ν → Prop
  | .link n p m q => p < (g n).outputs.length ↔ q < (g m).inputs.length
  | .removeInput this index => index < (g this).inputs.length → g.FindsLinks .input this index
  | .removeOutput this index => index < (g this).outputs.length → g.FindsLinks .output this index

theorem links_eraseIdx (n : ν) (p : ℕ) :
    ((g n).withPins side (((g n).pins side).eraseIdx index)).links side p =
      if p < index then (g n).links side p else (g n).links side (p + 1) := by
  unfold LogicalNode.links
  rw [LogicalNode.pins_withPins, List.getElem?_eraseIdx]
  split <;> rfl

variable [DecidableEq ν]

/-- Each link is stored as often at one end as at the other. -/
def Balanced (g : LogicalGraph ν δ) : Prop :=
  ∀ side n p m q, ((g n).links side p).count ⟨m, q⟩ = ((g m).links side.other q).count ⟨n, p⟩

theorem Balanced.mem_iff (h : g.Balanced) {side : PinSide} {n m : ν} {p q : ℕ} :
    ⟨m, q⟩ ∈ (g n).links side p ↔ ⟨n, p⟩ ∈ (g m).links side.other q := by
  rw [← List.count_pos_iff, ← List.count_pos_iff, h]

theorem Balanced.linked (h : g.Balanced) : g.Linked where
  symmetric _ _ _ _ := h.mem_iff
  inRange _ _ _ c hc := (g c.pNode).lt_length_of_mem_links (h.mem_iff.mp hc)

theorem balanced_of_output (h : ∀ n p m q, ((g n).links .output p).count ⟨m, q⟩ =
    ((g m).links .input q).count ⟨n, p⟩) : g.Balanced
  | .output, n, p, m, q => h n p m q
  | .input, n, p, m, q => (h m q n p).symm

theorem balanced_initial (h : ∀ side n p, (g n).links side p = []) : g.Balanced := by
  intro side n p m q
  rw [h, h]
  rfl

/-! ## New links -/

/-- One end of a new link. -/
def addEnd (g : LogicalGraph ν δ) (side : PinSide) (a : ν) (i : ℕ) (c : NodeConnect ν) :
    LogicalGraph ν δ :=
  Function.update g a ((g a).addConnection side c.pNode c.pinIndex i)

theorem link_eq (n m : ν) (p q : ℕ) :
    g.link n p m q = (g.addEnd .output n p ⟨m, q⟩).addEnd .input m q ⟨n, p⟩ := rfl

theorem links_addEnd (side : PinSide) (a : ν) (i : ℕ) (c : NodeConnect ν) (side' : PinSide) (n : ν)
    (p : ℕ) :
    ((g.addEnd side a i c) n).links side' p =
      if n = a ∧ side' = side ∧ p = i ∧ i < ((g a).pins side).length then
        (g n).links side' p ++ [c]
      else (g n).links side' p := by
  unfold addEnd
  by_cases hn : n = a
  · subst hn
    rw [Function.update_self, LogicalNode.links_addConnection]
    simp only [true_and]
  · rw [Function.update_of_ne hn, if_neg fun h => hn h.1]

theorem length_pins_addEnd (side : PinSide) (a : ν) (i : ℕ) (c : NodeConnect ν) (side' : PinSide)
    (n : ν) : (((g.addEnd side a i c) n).pins side').length = ((g n).pins side').length := by
  unfold addEnd
  by_cases hn : n = a
  · subst hn
    rw [Function.update_self]
    exact (g n).length_pins_modify side'
  · rw [Function.update_of_ne hn]

theorem count_ite_append (P : Prop) [Decidable P] (cs : List (NodeConnect ν))
    (c d : NodeConnect ν) :
    (if P then cs ++ [c] else cs).count d = cs.count d + if P ∧ c = d then 1 else 0 := by
  split
  · next h =>
    rw [List.count_append, List.count_singleton]
    simp [h]
  · next h => simp [h]

/-- Both ends of a link are stored. -/
theorem Balanced.link (h : g.Balanced) {n m : ν} {p q : ℕ} (hn : p < (g n).outputs.length)
    (hm : q < (g m).inputs.length) : (g.link n p m q).Balanced := by
  apply balanced_of_output
  intro a i b j
  have hm' : q < (((g.addEnd .output n p ⟨m, q⟩) m).pins .input).length := by
    rw [length_pins_addEnd]
    exact hm
  have houtput : ((g.link n p m q) a).links .output i =
      if a = n ∧ i = p then (g a).links .output i ++ [⟨m, q⟩] else (g a).links .output i := by
    rw [link_eq, links_addEnd, if_neg (by simp), links_addEnd]
    exact if_congr ⟨fun h => ⟨h.1, h.2.2.1⟩, fun h => ⟨h.1, rfl, h.2, hn⟩⟩ rfl rfl
  have hinput : ((g.link n p m q) b).links .input j =
      if b = m ∧ j = q then (g b).links .input j ++ [⟨n, p⟩] else (g b).links .input j := by
    have hother : ((g.addEnd .output n p ⟨m, q⟩) b).links .input j = (g b).links .input j := by
      rw [links_addEnd, if_neg (by simp)]
    rw [link_eq, links_addEnd, hother]
    exact if_congr ⟨fun h => ⟨h.1, h.2.2.1⟩, fun h => ⟨h.1, rfl, h.2, hm'⟩⟩ rfl rfl
  rw [houtput, hinput, count_ite_append, count_ite_append, h .output]
  refine congrArg _ (if_congr ?_ rfl rfl)
  rw [NodeConnect.mk.injEq, NodeConnect.mk.injEq]
  constructor
  · rintro ⟨⟨rfl, rfl⟩, rfl, rfl⟩
    exact ⟨⟨rfl, rfl⟩, rfl, rfl⟩
  · rintro ⟨⟨rfl, rfl⟩, rfl, rfl⟩
    exact ⟨⟨rfl, rfl⟩, rfl, rfl⟩

/-- A link between pins that are not there is not stored at all. -/
theorem Balanced.link_of_le (h : g.Balanced) {n m : ν} {p q : ℕ} (hn : (g n).outputs.length ≤ p)
    (hm : (g m).inputs.length ≤ q) : (g.link n p m q).Balanced := by
  have hlinks : ∀ side a i, ((g.link n p m q) a).links side i = (g a).links side i := by
    intro side a i
    rw [link_eq, links_addEnd, if_neg, links_addEnd, if_neg]
    · exact fun h => absurd h.2.2.2 (Nat.not_lt.mpr hn)
    · rintro ⟨-, -, -, hlt⟩
      rw [length_pins_addEnd] at hlt
      exact absurd hlt (Nat.not_lt.mpr hm)
  intro side a i b j
  rw [hlinks, hlinks, h]

/-! ## Removed pins -/

/-- A pin without its first link to a node. -/
def eraseEnd (g : LogicalGraph ν δ) (side : PinSide) (a : ν) (i : ℕ) (pNode : ν) :
    LogicalGraph ν δ :=
  Function.update g a ((g a).withPins side (((g a).pins side).modify i fun pin =>
    { pin with connections := pin.connections.eraseP fun connect => connect.pNode = pNode }))

theorem length_pins_eraseEnd (side : PinSide) (a : ν) (i : ℕ) (pNode : ν) (side' : PinSide)
    (n : ν) :
    (((g.eraseEnd side a i pNode) n).pins side').length = ((g n).pins side').length := by
  unfold eraseEnd
  by_cases hn : n = a
  · subst hn
    rw [Function.update_self, LogicalNode.length_pins_modify]
  · rw [Function.update_of_ne hn]

theorem pins_eraseEnd_of_ne {side' : PinSide} (hside : side' ≠ side) (a : ν) (i : ℕ) (pNode n : ν) :
    ((g.eraseEnd side a i pNode) n).pins side' = (g n).pins side' := by
  unfold eraseEnd
  by_cases hn : n = a
  · subst hn
    rw [Function.update_self, LogicalNode.pins_withPins_of_ne _ hside]
  · rw [Function.update_of_ne hn]

theorem links_eraseEnd (side : PinSide) (a : ν) (i : ℕ) (pNode : ν) (side' : PinSide) (n : ν)
    (p : ℕ) :
    ((g.eraseEnd side a i pNode) n).links side' p =
      if n = a ∧ side' = side ∧ p = i then
        ((g n).links side' p).eraseP fun connect => connect.pNode = pNode
      else (g n).links side' p := by
  unfold eraseEnd
  by_cases hn : n = a
  · subst hn
    rw [Function.update_self]
    refine (LogicalNode.links_modify _ _ _
      (List.eraseP fun connect => connect.pNode = pNode) _ _).trans ?_
    by_cases hpin : side' = side ∧ p = i
    · by_cases hlt : i < ((g n).pins side).length
      · rw [if_pos ⟨hpin.1, hpin.2, hlt⟩, if_pos ⟨rfl, hpin⟩]
      · obtain ⟨rfl, rfl⟩ := hpin
        have hnil : (g n).links side' p = [] := by
          rw [LogicalNode.links, List.getElem?_eq_none (Nat.not_lt.mp hlt)]
          rfl
        rw [if_neg fun h => hlt h.2.2, if_pos ⟨rfl, rfl, rfl⟩, hnil]
        rfl
    · rw [if_neg fun h => hpin ⟨h.1, h.2.1⟩, if_neg fun h => hpin h.2]
  · rw [Function.update_of_ne hn, if_neg fun h => hn h.1]

theorem removeFarEnd_eq {c : NodeConnect ν}
    (hindex : index < ((g c.pNode).pins side.other).length) :
    removeFarEnd side this index g c = some (g.eraseEnd side.other c.pNode index this) := by
  rw [removeFarEnd, LogicalNode.removeConnection, if_pos hindex, Option.map_some]
  rfl

/-- The far ends of a list of links, one after the other. -/
theorem links_removeFarEnds (this : ν) {cs : List (NodeConnect ν)}
    (hindex : ∀ c ∈ cs, index < ((g c.pNode).pins side.other).length) :
    ∃ g', cs.foldlM (removeFarEnd side this index) g = some g' ∧
      (∀ n s, ((g' n).pins s).length = ((g n).pins s).length) ∧
      (∀ n, (g' n).pins side = (g n).pins side) ∧
      ∀ n p, (g' n).links side.other p =
        if p = index then
          (List.eraseP fun connect => connect.pNode = this)^[cs.countP fun c => c.pNode = n]
            ((g n).links side.other p)
        else (g n).links side.other p := by
  induction cs generalizing g with
  | nil => exact ⟨g, rfl, fun _ _ => rfl, fun _ => rfl, fun n p => by simp⟩
  | cons c cs ih =>
      have hfirst := hindex c (List.mem_cons_self ..)
      obtain ⟨g', hg', hlength, hpins, hlinks⟩ :=
        ih (g := g.eraseEnd side.other c.pNode index this) fun c' hc' => by
          rw [length_pins_eraseEnd]
          exact hindex c' (List.mem_cons_of_mem _ hc')
      refine ⟨g', ?_, fun n s => (hlength n s).trans (length_pins_eraseEnd _ _ _ _ s n),
        fun n => (hpins n).trans (pins_eraseEnd_of_ne side.other_ne.symm _ _ _ n), fun n p => ?_⟩
      · rw [List.foldlM_cons, removeFarEnd_eq hfirst]
        exact hg'
      · rw [hlinks, links_eraseEnd]
        by_cases hp : p = index
        · by_cases hn : c.pNode = n
          · rw [if_pos hp, if_pos ⟨hn.symm, rfl, hp⟩, if_pos hp,
              List.countP_cons_of_pos (by simpa using hn), Function.iterate_succ_apply]
          · rw [if_pos hp, if_neg (fun h => hn h.1.symm), if_pos hp,
              List.countP_cons_of_neg (by simpa using hn)]
        · rw [if_neg hp, if_neg (fun h => hp h.2.2), if_neg hp]

theorem countP_pNode {cs : List (NodeConnect ν)} (h : ∀ c ∈ cs, c.pinIndex = index) (n : ν) :
    (cs.countP fun c => c.pNode = n) = cs.count ⟨n, index⟩ := by
  apply List.countP_congr
  intro c hc
  have hindex := h c hc
  obtain ⟨m, q⟩ := c
  simp_all

/-- Only the links at the removed pin are gone, at both ends. -/
theorem links_removePin (h : g.Balanced) (hindex : index < ((g this).pins side).length)
    (hfinds : g.FindsLinks side this index) :
    ∃ g', g.removePin side this index = some g' ∧
      (∀ n p, (g' n).links side.other p =
        ((g n).links side.other p).filter (· ≠ ⟨this, index⟩)) ∧
      ∀ n p, (g' n).links side p = if n = this ∧ index ≤ p then [] else (g n).links side p := by
  have hpin : ((g this).pins side)[index]? = some (((g this).pins side)[index]) :=
    List.getElem?_eq_getElem hindex
  have hlinks : (((g this).pins side)[index]).connections = (g this).links side index := by
    rw [LogicalNode.links, hpin]
    rfl
  have hfar : ∀ c ∈ (g this).links side index, index < ((g c.pNode).pins side.other).length := by
    intro c hc
    have hrange := h.linked.inRange side this index c hc
    rwa [hfinds.sameIndex c hc] at hrange
  obtain ⟨g₁, hg₁, -, hpins, herased⟩ := links_removeFarEnds this hfar
  refine ⟨Function.update g₁ this
    ((g₁ this).withPins side (((g₁ this).pins side).eraseIdx index)), ?_, fun n p => ?_,
    fun n p => ?_⟩
  · rw [removePin, hpin, Option.elim_some, hlinks, hg₁, Option.map_some]
  · have hsame : ((Function.update g₁ this ((g₁ this).withPins side
        (((g₁ this).pins side).eraseIdx index))) n).links side.other p =
        (g₁ n).links side.other p := by
      by_cases hn : n = this
      · subst hn
        rw [Function.update_self, LogicalNode.links, LogicalNode.pins_withPins_of_ne _ side.other_ne]
        rfl
      · rw [Function.update_of_ne hn]
    rw [hsame, herased]
    by_cases hp : p = index
    · subst hp
      have hcount := h side.other n p this p
      rw [PinSide.other_other] at hcount
      rw [if_pos rfl, countP_pNode hfinds.sameIndex, ← hcount,
        ListSearch.iterate_eraseP (by simp)]
      refine (hfinds.first n).imp fun hc heq hnode => hc heq (by simpa using hnode)
    · rw [if_neg hp, List.filter_eq_self.mpr]
      intro c hc
      have hne : c ≠ ⟨this, index⟩ := by
        rintro rfl
        have hmem := h.mem_iff.mp hc
        rw [PinSide.other_other] at hmem
        exact hp (hfinds.sameIndex _ hmem)
      simpa using hne
  · by_cases hn : n = this
    · subst hn
      rw [Function.update_self, links_eraseIdx]
      have hsame : ∀ q, (g₁ n).links side q = (g n).links side q := fun q => by
        rw [LogicalNode.links, LogicalNode.links, hpins]
      rw [hsame, hsame]
      by_cases hp : p < index
      · rw [if_pos hp, if_neg fun h => absurd h.2 (Nat.not_le.mpr hp)]
      · have hle := Nat.not_lt.mp hp
        rw [if_neg hp, if_pos ⟨rfl, hle⟩, hfinds.behind _ (Nat.lt_succ_of_le hle)]
    · rw [Function.update_of_ne hn, if_neg fun h => hn h.1, LogicalNode.links, LogicalNode.links,
        hpins]

theorem Balanced.removePin (h : g.Balanced) (hindex : index < ((g this).pins side).length)
    (hfinds : g.FindsLinks side this index) :
    ∃ g', g.removePin side this index = some g' ∧ g'.Balanced ∧ g.KeepsPins side this index g' := by
  obtain ⟨g', hg', hother, hside⟩ := links_removePin h hindex hfinds
  have hcount : ∀ n p m q, ((g' n).links side.other p).count ⟨m, q⟩ =
      ((g' m).links side q).count ⟨n, p⟩ := by
    intro n p m q
    have hbefore := h side.other n p m q
    rw [PinSide.other_other] at hbefore
    rw [hother, hside]
    by_cases hpin : m = this ∧ index ≤ q
    · obtain ⟨rfl, hle⟩ := hpin
      rw [if_pos ⟨rfl, hle⟩, List.count_nil]
      rcases Nat.eq_or_lt_of_le hle with rfl | hlt
      · exact List.count_eq_zero_of_not_mem fun hmem => by simpa using List.of_mem_filter hmem
      · rw [hfinds.behind q hlt, List.count_nil] at hbefore
        exact List.count_eq_zero_of_not_mem fun hmem =>
          List.count_eq_zero.mp hbefore (List.mem_of_mem_filter hmem)
    · rw [if_neg hpin, ← hbefore, List.count_filter]
      rw [decide_eq_true_iff]
      rintro heq
      cases heq
      exact hpin ⟨rfl, Nat.le_refl _⟩
  refine ⟨g', hg', ?_, fun _ n p q hmem => ?_⟩
  · cases side with
    | input => exact balanced_of_output hcount
    | output => exact balanced_of_output fun n p m q => (hcount m q n p).symm
  · have hlt : q < index := by
      by_contra hle
      have hcount := hcount n p this q
      rw [hside, if_pos ⟨rfl, Nat.not_lt.mp hle⟩, List.count_nil] at hcount
      exact List.count_eq_zero.mp hcount hmem
    rw [if_pos hlt]
    rw [hother] at hmem
    exact List.mem_of_mem_filter hmem

theorem removePin_of_le (hindex : ((g this).pins side).length ≤ index) :
    g.removePin side this index = some g := by
  rw [removePin, List.getElem?_eq_none hindex]
  rfl

/-- A pin is removed with its links, or there is none to remove. -/
theorem Balanced.removePin_of_imp (h : g.Balanced)
    (hfinds : index < ((g this).pins side).length → g.FindsLinks side this index) :
    ∃ g', g.removePin side this index = some g' ∧ g'.Balanced ∧ g.KeepsPins side this index g' := by
  by_cases hindex : index < ((g this).pins side).length
  · exact h.removePin hindex (hfinds hindex)
  · exact ⟨g, removePin_of_le (Nat.not_lt.mp hindex), h, fun hlt => absurd hlt hindex⟩

theorem Balanced.step {request : LinkRequest ν} (h : g.Balanced) (hrequest : g.Matched request) :
    ∃ r, g.step request = some r ∧ g.Leaves request r.1 ∧ r.1.Balanced := by
  cases request with
  | link n p m q =>
      have hlink : (g.link n p m q).Balanced := by
        by_cases hn : p < (g n).outputs.length
        · exact h.link hn (hrequest.mp hn)
        · exact h.link_of_le (Nat.not_lt.mp hn) (Nat.not_lt.mp (mt hrequest.mpr hn))
      exact ⟨_, rfl, ⟨hlink.linked, trivial⟩, hlink⟩
  | removeInput this index =>
      have hfinds : index < ((g this).pins .input).length → g.FindsLinks .input this index :=
        hrequest
      obtain ⟨g', hg', hbalanced, hkeeps⟩ := h.removePin_of_imp hfinds
      exact ⟨(g', ()), congrArg (Option.map _) hg', ⟨hbalanced.linked, hkeeps⟩, hbalanced⟩
  | removeOutput this index =>
      have hfinds : index < ((g this).pins .output).length → g.FindsLinks .output this index :=
        hrequest
      obtain ⟨g', hg', hbalanced, hkeeps⟩ := h.removePin_of_imp hfinds
      exact ⟨(g', ()), congrArg (Option.map _) hg', ⟨hbalanced.linked, hkeeps⟩, hbalanced⟩

/-- Links stay symmetric in the runs whose requests are carried out at both ends. -/
theorem leaves_of_matched {requests : List (LinkRequest ν)}
    (hinitial : ∀ side n p, (g n).links side p = [])
    (h : Steps.Along LogicalGraph.step Matched g requests) :
    Steps.Always LogicalGraph.step Leaves g requests :=
  h.always (fun _ _ hbalanced hrequest => hbalanced.step hrequest) (balanced_initial hinitial)

/-- Two nodes with two inputs and two outputs each, before the first link. -/
def twoNodes : LogicalGraph Bool Unit := fun _ =>
  { type := .compute, inputs := [⟨[], ()⟩, ⟨[], ()⟩], outputs := [⟨[], ()⟩, ⟨[], ()⟩] }

theorem links_twoNodes (side : PinSide) (n : Bool) (p : ℕ) : (twoNodes n).links side p = [] := by
  match side, p with
  | .input, 0 => rfl
  | .input, 1 => rfl
  | .input, _ + 2 => rfl
  | .output, 0 => rfl
  | .output, 1 => rfl
  | .output, _ + 2 => rfl

/-- Two links between pins of the same numbers, and the removal of the later pin. -/
theorem leaves_of_matched_sample :
    Steps.Always LogicalGraph.step Leaves twoNodes
      [.link false 0 true 0, .link false 1 true 1, .removeInput true 1] := by
  apply leaves_of_matched links_twoNodes
  refine ⟨iff_of_true (by decide) (by decide), ?_⟩
  rintro _ ⟨⟩
  refine ⟨iff_of_true (by decide) (by decide), ?_⟩
  rintro _ ⟨⟩
  refine ⟨fun _ => ⟨by decide, by decide, ?_⟩, fun _ _ => trivial⟩
  intro q hq
  match q, hq with
  | q + 2, _ => rfl

/-- A far end of another number is not found, and a pin behind the removed one keeps its old
number at the far end. -/
theorem not_leaves :
    ¬ Steps.Always LogicalGraph.step Leaves twoNodes
        [.link false 1 true 0, .removeInput true 0] ∧
      ¬ Steps.Always LogicalGraph.step Leaves twoNodes
        [.link false 0 true 1, .removeInput true 0] := by
  constructor
  · rintro ⟨_, ⟨⟩, -, _, ⟨⟩, ⟨hlinked, -⟩, -⟩
    exact absurd ((hlinked.symmetric false 1 true 0).mp (by decide)) (by decide)
  · rintro ⟨_, ⟨⟩, -, _, ⟨⟩, ⟨hlinked, -⟩, -⟩
    exact absurd ((hlinked.symmetric false 0 true 1).mp (by decide)) (by decide)

end LogicalGraph

end SRCommon
