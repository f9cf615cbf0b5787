import SRCommon.Serialization.LoadedValue
import SRCommon.Serialization.ReaderSafety

/-!
# Where the walker is left

Accessors other than arrays, maps and sets never pop what they have not
pushed, so the walker they leave extends the one they found. They bring it
back exactly if they are balanced below the node where they start.
-/

namespace SRCommon

open SRADeserializer

namespace SRADeserializer

/-! ## The size of a loaded tree -/

theorem count_openNode_le (d : SRADeserializer) (fields : SRANodeFields) :
    (d.openNode fields).root.count ≤ d.root.count + 1 := by
  apply count_updateNode_le
  intro n
  rw [Rose.count_append]
  simp [Rose.count]

theorem count_relabelCurrent_le (d : SRADeserializer) (f : SRANodeFields → SRANodeFields) :
    (d.relabelCurrent f).root.count ≤ d.root.count + 1 := by
  apply count_updateNode_le
  intro n
  rw [Rose.count_relabel]
  omega

theorem root_popStack {d d' : SRADeserializer} (h : d.popStack = some d') : d'.root = d.root := by
  unfold popStack at h
  split at h
  · cases h
  · cases h
    rfl

theorem count_applyRecord_le {fl : FloatOps} {kind : RecordKind} {line : Text}
    {d d' : SRADeserializer} (h : applyRecord fl kind line d = some d') :
    d'.root.count ≤ d.root.count + 1 := by
  cases kind with
  | root =>
      cases h
      exact count_relabelCurrent_le d _
  | value | object | array | item =>
      cases h
      exact count_openNode_le d _
  | string | boolean | integer | floating =>
      rw [root_popStack h]
      exact count_relabelCurrent_le d _

/-- A line makes one node at most. -/
theorem count_loadLine_le {fl : FloatOps} {i : ℕ} {line : Text} {d d' : SRADeserializer}
    (h : loadLine fl i line d = some d') : d'.root.count ≤ d.root.count + 1 := by
  rcases loadLine_cases fl i line d with ⟨reports, heq, -⟩ |
    ⟨depth, ⟨reports, heq, -⟩ | ⟨kind, heq, -⟩⟩
  · rw [heq] at h
    cases h
    exact Nat.le_succ _
  · rw [heq] at h
    cases h
    exact Nat.le_succ _
  · rw [heq] at h
    have hcount := count_applyRecord_le h
    exact hcount

theorem count_loadLines_le {fl : FloatOps} {i : ℕ} {lines : List Text} {d d' : SRADeserializer}
    (h : loadLines fl i lines d = some d') : d'.root.count ≤ d.root.count + lines.length := by
  induction lines generalizing i d with
  | nil =>
      cases h
      exact Nat.le_refl _
  | cons line lines ih =>
      obtain ⟨d₁, hline, hrest⟩ := Option.bind_eq_some_iff.mp h
      split at hrest
      · cases hrest
      · have hcount := count_loadLine_le hline
        have hle := ih hrest
        rw [List.length_cons]
        omega

/-- The line counter bounds the number of nodes, so `uint32_t` indices reach all of them. -/
theorem count_loadFromFile_lt {fl : FloatOps} {lines : List Text} {d : SRADeserializer} {ok : Bool}
    (h : loadFromFile fl lines {} = some (d, ok)) : d.root.count < 2 ^ 32 := by
  unfold loadFromFile at h
  split at h
  · cases h
    decide
  · rename_i header rest
    split at h
    · obtain ⟨d₁, hload, heq⟩ := Option.map_eq_some_iff.mp h
      cases heq
      have hcount := count_loadLines_le hload
      have hlen : rest.length < int32Max := by
        by_contra hlong
        rw [loadLines_eq_none (by decide) (by omega)] at hload
        cases hload
      have hfresh : (({} : SRADeserializer).root).count = 1 := by decide
      simp only [int32Max] at hlen
      omega
    · cases h
      decide

end SRADeserializer

namespace Accessor

section

variable {fl : FloatOps}

/-! ## Loading leaves the tree alone -/

theorem root_loadItems {α : Type}
    {loadItem : α → SRADeserializer → Option (α × SRADeserializer)} {init : α}
    (h : ∀ {value d result}, loadItem value d = some result → result.2.root = d.root)
    {fuel index : ℕ} {value : List α} {d : SRADeserializer} {result : List α × SRADeserializer}
    (hload : loadItems loadItem init fuel index value d = some result) :
    result.2.root = d.root := by
  induction fuel generalizing index value d with
  | zero => cases hload
  | succ fuel ih =>
      rw [loadItems] at hload
      split at hload
      · cases hload
        rfl
      · rename_i d₁ hbegin
        obtain ⟨⟨item, d₂⟩, hitem, hrest⟩ := Option.bind_eq_some_iff.mp hload
        rw [ih hrest, root_endItem, h hitem, root_beginItem hbegin]

theorem root_load {kind : AccessorKind} {α : Type} {a : Accessor kind α} {value : α}
    {id : SerializationId} {d : SRADeserializer} {result : α × SRADeserializer}
    (h : a.load fl value id d = some result) : result.2.root = d.root := by
  induction a generalizing id d with
  | boolean | integer | float | double | string | nothing =>
      cases h
      rfl
  | vector a ih =>
      have hroot := root_beginArray d id
      simp only [load] at h
      split at h
      · cases h
        exact hroot
      · obtain ⟨result', hload, rfl⟩ := Option.map_eq_some_iff.mp h
        rw [root_endArray, root_loadItems (fun h => ih h) hload, hroot]
  | array | map | set =>
      cases h
      rw [root_endArray, root_beginArray]
  | object init body ih =>
      simp only [load] at h
      split at h
      · cases h
        rfl
      · rename_i d₁ hbegin
        obtain ⟨result', hload, rfl⟩ := Option.map_eq_some_iff.mp h
        rw [root_endObject, ih hload, root_beginObject hbegin]
  | member id' a ih => exact ih h
  | checked id' isDefault a ih => exact ih h
  | seq a b iha ihb =>
      obtain ⟨⟨v₁, d₁⟩, hload₁, h⟩ := Option.bind_eq_some_iff.mp h
      obtain ⟨⟨v₂, d₂⟩, hload₂, rfl⟩ := Option.map_eq_some_iff.mp h
      rw [ihb hload₂, iha hload₁]

/-! ## Every loop ends -/

theorem isSome_loadItems {α : Type}
    {loadItem : α → SRADeserializer → Option (α × SRADeserializer)} {init : α}
    (h : ∀ d, d.root.count < 2 ^ 32 → (loadItem init d).isSome)
    (hroot : ∀ {value d result}, loadItem value d = some result → result.2.root = d.root)
    {fuel index : ℕ} {value : List α} {d : SRADeserializer} (hcount : d.root.count < 2 ^ 32)
    (hindex : index ≤ d.root.count) (hfuel : d.root.count < fuel + index) :
    (loadItems loadItem init fuel index value d).isSome := by
  induction fuel generalizing index value d with
  | zero => omega
  | succ fuel ih =>
      rw [loadItems]
      split
      · rfl
      · rename_i d₁ hbegin
        have hlt : index < d.root.count := by
          unfold beginItem at hbegin
          split at hbegin
          · cases hbegin
          · rename_i child hchild
            obtain ⟨hlt, -⟩ := List.getElem?_eq_some_iff.mp hchild
            have hlen := d.walkNode.length_children_lt_count
            have hle := count_getNode_le d.root d.walker
            rw [walkNode] at hlt hlen
            omega
        have hroot₁ := root_beginItem hbegin
        obtain ⟨⟨item, d₂⟩, hitem⟩ := Option.isSome_iff_exists.mp (h d₁ (by rwa [hroot₁]))
        have hroot₂ : d₂.endItem.root = d.root := by rw [root_endItem, hroot hitem, hroot₁]
        rw [hitem, Option.bind_some]
        apply ih
        · rwa [hroot₂]
        · rw [hroot₂]
          omega
        · rw [hroot₂]
          omega

/-- Loading comes to an end on every tree whose children `uint32_t` can index. -/
theorem isSome_load {kind : AccessorKind} {α : Type} (a : Accessor kind α) (value : α)
    (id : SerializationId) {d : SRADeserializer} (hcount : d.root.count < 2 ^ 32) :
    (a.load fl value id d).isSome := by
  induction a generalizing id d with
  | boolean | integer | float | double | string | nothing => rfl
  | vector a ih =>
      have hroot := root_beginArray d id
      simp only [load]
      split
      · rfl
      · rw [Option.isSome_map]
        apply isSome_loadItems (fun d hd => ih _ vectorDataId hd) (fun h => root_load h)
        · rwa [hroot]
        · exact Nat.zero_le _
        · exact Nat.lt_succ_self _
  | array | map | set => rfl
  | object init body ih =>
      simp only [load]
      split
      · rfl
      · rename_i d₁ hbegin
        rw [Option.isSome_map]
        apply ih
        rwa [root_beginObject hbegin]
  | member id' a ih => exact ih value id' hcount
  | checked id' isDefault a ih => exact ih value id' hcount
  | seq a b iha ihb =>
      obtain ⟨result, hload⟩ := Option.isSome_iff_exists.mp (iha value.1 id hcount)
      have hb := ihb value.2 id (d := result.2) (by rwa [root_load hload])
      simpa [load, hload] using hb

/-! ## The walker grows -/

/-- Accessors that pop nothing but what they pushed. -/
def PopsOwn : {kind : AccessorKind} → {α : Type} → Accessor kind α → Prop
  | _, _, boolean => True
  | _, _, integer _ => True
  | _, _, float => True
  | _, _, double => True
  | _, _, string => True
  | _, _, vector a => a.PopsOwn
  | _, _, array _ _ _ => False
  | _, _, map _ _ => False
  | _, _, set _ _ => False
  | _, _, object _ body => body.PopsOwn
  | _, _, nothing => True
  | _, _, member _ a => a.PopsOwn
  | _, _, checked _ _ a => a.PopsOwn
  | _, _, seq a b => a.PopsOwn ∧ b.PopsOwn

theorem suffix_tail_of_cons_suffix {i : ℕ} {w x : List ℕ} (h : i :: w <:+ x) : w <:+ x.tail := by
  obtain ⟨pre, rfl⟩ := h
  cases pre with
  | nil => exact List.suffix_rfl
  | cons j pre => exact ⟨pre ++ [i], by simp⟩

theorem suffix_of_cons_suffix {i : ℕ} {w x : List ℕ} (h : i :: w <:+ x) : w <:+ x :=
  (List.suffix_cons i w).trans h

theorem suffix_endItem {d : SRADeserializer} {i : ℕ} {w : List ℕ} (h : i :: w <:+ d.walker) :
    w <:+ d.endItem.walker := by
  rw [walker_endItem]
  split
  · exact suffix_tail_of_cons_suffix h
  · exact suffix_of_cons_suffix h

theorem suffix_endObject {d : SRADeserializer} {i : ℕ} {w : List ℕ} (h : i :: w <:+ d.walker) :
    w <:+ d.endObject.walker := by
  rw [walker_endObject]
  split
  · exact suffix_tail_of_cons_suffix h
  · exact suffix_of_cons_suffix h

theorem walker_beginItem {d d' : SRADeserializer} {id : SerializationId} {index : ℕ}
    (h : d.beginItem id index = some d') : ∃ i, d'.walker = i :: d.walker := by
  unfold beginItem at h
  split at h
  · cases h
  · split at h
    · cases h
      exact ⟨_, rfl⟩
    · cases h

theorem walker_beginObject {d d' : SRADeserializer} {id : SerializationId}
    (h : d.beginObject id = some d') : ∃ i, d'.walker = i :: d.walker := by
  obtain ⟨i, -, rfl⟩ := Option.map_eq_some_iff.mp h
  exact ⟨i, rfl⟩

theorem suffix_loadItems {α : Type}
    {loadItem : α → SRADeserializer → Option (α × SRADeserializer)} {init : α}
    (h : ∀ {value d result}, loadItem value d = some result → d.walker <:+ result.2.walker)
    {fuel index : ℕ} {value : List α} {d : SRADeserializer} {result : List α × SRADeserializer}
    (hload : loadItems loadItem init fuel index value d = some result) :
    d.walker <:+ result.2.walker := by
  induction fuel generalizing index value d with
  | zero => cases hload
  | succ fuel ih =>
      rw [loadItems] at hload
      split at hload
      · cases hload
        exact List.suffix_rfl
      · rename_i d₁ hbegin
        obtain ⟨⟨item, d₂⟩, hitem, hrest⟩ := Option.bind_eq_some_iff.mp hload
        obtain ⟨i, hi⟩ := walker_beginItem hbegin
        have hsuffix := h hitem
        rw [hi] at hsuffix
        exact (suffix_endItem hsuffix).trans (ih hrest)

theorem suffix_load {kind : AccessorKind} {α : Type} {a : Accessor kind α} (ha : a.PopsOwn)
    {value : α} {id : SerializationId} {d : SRADeserializer} {result : α × SRADeserializer}
    (h : a.load fl value id d = some result) : d.walker <:+ result.2.walker := by
  induction a generalizing id d with
  | boolean | integer | float | double | string | nothing =>
      cases h
      exact List.suffix_rfl
  | vector a ih =>
      have hbegin : (d.beginArray id).2 = d ∧ (d.beginArray id).1 = 0 ∨
          ∃ i, (d.beginArray id).2.walker = i :: d.walker := by
        unfold beginArray
        split
        · right
          exact ⟨_, rfl⟩
        · left
          exact ⟨rfl, rfl⟩
      simp only [load] at h
      rcases hbegin with ⟨hd, hsize⟩ | ⟨i, hi⟩
      · rw [if_pos hsize, hd] at h
        cases h
        exact List.suffix_rfl
      · split at h
        · cases h
          rw [hi]
          exact List.suffix_cons i d.walker
        · obtain ⟨result', hload, rfl⟩ := Option.map_eq_some_iff.mp h
          have hsuffix := suffix_loadItems (fun h => ih ha h) hload
          rw [hi] at hsuffix
          rw [walker_endArray]
          exact suffix_tail_of_cons_suffix hsuffix
  | array | map | set => exact ha.elim
  | object init body ih =>
      simp only [load] at h
      split at h
      · cases h
        exact List.suffix_rfl
      · rename_i d₁ hbegin
        obtain ⟨result', hload, rfl⟩ := Option.map_eq_some_iff.mp h
        obtain ⟨i, hi⟩ := walker_beginObject hbegin
        have hsuffix := ih ha hload
        rw [hi] at hsuffix
        exact suffix_endObject hsuffix
  | member id' a ih => exact ih ha h
  | checked id' isDefault a ih => exact ih ha h
  | seq a b iha ihb =>
      obtain ⟨⟨v₁, d₁⟩, hload₁, h⟩ := Option.bind_eq_some_iff.mp h
      obtain ⟨⟨v₂, d₂⟩, hload₂, rfl⟩ := Option.map_eq_some_iff.mp h
      exact (iha ha.1 hload₁).trans (ihb ha.2 hload₂)

/-! ## A walker that came back -/

theorem eq_cons_of_tail_eq {i : ℕ} {w x : List ℕ} (h : i :: w <:+ x) (htail : x.tail = w) :
    x = i :: w := by
  have hlen := h.length_le
  have htail' := congrArg List.length htail
  rw [List.length_cons] at hlen
  rw [List.length_tail] at htail'
  exact (h.eq_of_length (by rw [List.length_cons]; omega)).symm

theorem not_cons_suffix_self (i : ℕ) (w : List ℕ) : ¬ i :: w <:+ w := by
  intro h
  have hlen := h.length_le
  rw [List.length_cons] at hlen
  omega

theorem of_endItem_walker_eq {d : SRADeserializer} {i : ℕ} {w : List ℕ}
    (h : i :: w <:+ d.walker) (hend : d.endItem.walker = w) :
    d.walkNode.label.type = .item ∧ d.walker = i :: w := by
  rw [walker_endItem] at hend
  split at hend
  · rename_i htype
    exact ⟨htype, eq_cons_of_tail_eq h hend⟩
  · rw [hend] at h
    exact absurd h (not_cons_suffix_self i w)

theorem of_endObject_walker_eq {d : SRADeserializer} {i : ℕ} {w : List ℕ}
    (h : i :: w <:+ d.walker) (hend : d.endObject.walker = w) :
    d.walkNode.label.type = .object ∧ d.walker = i :: w := by
  rw [walker_endObject] at hend
  split at hend
  · rename_i htype
    exact ⟨htype, eq_cons_of_tail_eq h hend⟩
  · rw [hend] at h
    exact absurd h (not_cons_suffix_self i w)

theorem eq_of_suffix_of_suffix {w x : List ℕ} (h : w <:+ x) (h' : x <:+ w) : x = w :=
  h'.eq_of_length (Nat.le_antisymm h'.length_le h.length_le)

/-- The loop comes back only if it came back from every item. -/
theorem balanced_of_loadItems {α : Type} {c : SRANode} {Good : SRANode → Prop}
    {loadItem : α → SRADeserializer → Option (α × SRADeserializer)} {init : α}
    (hroot : ∀ {value d result}, loadItem value d = some result → result.2.root = d.root)
    (hsuffix : ∀ {value d result}, loadItem value d = some result → d.walker <:+ result.2.walker)
    (hgood : ∀ {value d result item}, loadItem value d = some result → OnNode d item →
      d.root.count < 2 ^ 32 → result.2.walker = d.walker → Good item)
    {fuel index : ℕ} {value : List α} {d : SRADeserializer} {result : List α × SRADeserializer}
    (hc : OnNode d c) (hcount : d.root.count < 2 ^ 32) (hindex : index ≤ c.children.length)
    (hload : loadItems loadItem init fuel index value d = some result)
    (hwalker : result.2.walker = d.walker) :
    ∀ item ∈ (c.children.drop index).takeWhile fun item => HasHash vectorItemId item,
      item.label.type = .item ∧ Good item := by
  induction fuel generalizing index value d with
  | zero => cases hload
  | succ fuel ih =>
      have hlen := hc.length_lt
      have hindex32 : index < 2 ^ 32 := by omega
      cases hitem : c.children[index]? with
      | none =>
          rw [List.drop_eq_nil_of_le (List.getElem?_eq_none_iff.mp hitem)]
          simp
      | some item =>
          rw [drop_eq_cons hitem]
          by_cases hid : HasHash vectorItemId item
          · have hbegin := beginItem_eq_some hc hindex32 hitem hid
            rw [loadItems, hbegin] at hload
            obtain ⟨⟨v₁, d₁⟩, hload₁, hrest⟩ := Option.bind_eq_some_iff.mp hload
            have hroot₁ : d₁.root = d.root := hroot hload₁
            have hsuffix₁ : index :: d.walker <:+ d₁.walker := hsuffix hload₁
            have hrestSuffix := suffix_loadItems hsuffix hrest
            rw [hwalker] at hrestSuffix
            -- The iteration and the rest both grow the walker, and together they do not.
            have hend : d₁.endItem.walker = d.walker :=
              eq_of_suffix_of_suffix (suffix_endItem hsuffix₁) hrestSuffix
            obtain ⟨htype, hback⟩ := of_endItem_walker_eq hsuffix₁ hend
            have hon : OnNode (d.pushWalker index) item := hc.pushWalker hitem
            rw [(hon.of_eq hback hroot₁).walkNode] at htype
            have hendRoot : d₁.endItem.root = d.root := by rw [root_endItem, hroot₁]
            obtain ⟨hlt, -⟩ := List.getElem?_eq_some_iff.mp hitem
            have htail := ih (hc.of_eq hend hendRoot) (by rwa [hendRoot]) (by omega) hrest
              (by rw [hwalker, hend])
            rw [List.takeWhile_cons_of_pos (by simpa using hid)]
            intro item' hmem
            rcases List.mem_cons.mp hmem with rfl | hmem
            · exact ⟨htype, hgood hload₁ hon hcount hback⟩
            · exact htail item' hmem
          · rw [List.takeWhile_cons_of_neg (by simpa using hid)]
            simp

theorem balanced_of_load {kind : AccessorKind} {α : Type} {a : Accessor kind α} (ha : a.PopsOwn)
    {value : α} {id : SerializationId} {d : SRADeserializer} {n : SRANode} {atRoot : Prop}
    {result : α × SRADeserializer} (h : OnNode d n) (hcount : d.root.count < 2 ^ 32)
    (hload : a.load fl value id d = some result) (hwalker : result.2.walker = d.walker) :
    a.Balanced n atRoot id := by
  induction a generalizing id d n atRoot with
  | boolean | integer | float | double | string | nothing => trivial
  | vector a ih =>
      have ha' : a.PopsOwn := ha
      intro c hfind
      rcases beginArray_cases h id with ⟨hnone, -⟩ | ⟨i, c', hc', hon, hbegin⟩
      · rw [hnone] at hfind
        cases hfind
      · obtain rfl : c' = c := Option.some.inj (hc'.symm.trans hfind)
        simp only [load, hbegin] at hload
        split at hload
        · cases hload
          exact absurd hwalker (by simp)
        · rename_i hsize
          obtain ⟨result', hload', rfl⟩ := Option.map_eq_some_iff.mp hload
          have hsuffix := suffix_loadItems (fun h => suffix_load ha' h) hload'
          rw [walker_endArray] at hwalker
          refine ⟨by simpa using hsize, ?_⟩
          exact balanced_of_loadItems (fun h => root_load h) (fun h => suffix_load ha' h)
            (fun hload hon hcount hwalker => ih ha' hon hcount hload hwalker) hon hcount
            (Nat.zero_le _) hload' (eq_cons_of_tail_eq hsuffix hwalker)
  | array | map | set => exact ha.elim
  | object init body ih =>
      intro c hfind
      rcases beginObject_cases h id with ⟨hnone, -⟩ | ⟨i, c', hc', hon, hbegin⟩
      · rw [hnone] at hfind
        cases hfind
      · obtain rfl : c' = c := Option.some.inj (hc'.symm.trans hfind)
        simp only [load, hbegin] at hload
        obtain ⟨result', hload', rfl⟩ := Option.map_eq_some_iff.mp hload
        have hsuffix : i :: d.walker <:+ result'.2.walker := suffix_load (a := body) ha hload'
        obtain ⟨htype, hback⟩ := of_endObject_walker_eq hsuffix hwalker
        rw [(hon.of_eq hback (root_load hload')).walkNode] at htype
        exact ⟨htype, ih ha hon hcount hload' hback⟩
  | member id' a ih => exact ih ha h hcount hload hwalker
  | checked id' isDefault a ih => exact ih ha h hcount hload hwalker
  | seq a b iha ihb =>
      obtain ⟨⟨v₁, d₁⟩, hload₁, hload⟩ := Option.bind_eq_some_iff.mp hload
      obtain ⟨⟨v₂, d₂⟩, hload₂, rfl⟩ := Option.map_eq_some_iff.mp hload
      have hsuffix₂ : d₁.walker <:+ d₂.walker := suffix_load ha.2 hload₂
      have hback₂ : d₂.walker = d.walker := hwalker
      rw [hback₂] at hsuffix₂
      have hback₁ : d₁.walker = d.walker :=
        eq_of_suffix_of_suffix (suffix_load ha.1 hload₁) hsuffix₂
      have hroot₁ : d₁.root = d.root := root_load hload₁
      exact ⟨iha ha.1 h hcount hload₁ hback₁,
        ihb ha.2 (h.of_eq hback₁ hroot₁) (by rwa [hroot₁]) hload₂ (hback₂.trans hback₁.symm)⟩

/-! ## One call of Load -/

def KeepsWalker {α : Type} (fl : FloatOps) (a : Accessor .value α) (value : α)
    (id : SerializationId) (d : SRADeserializer) : Prop :=
  (a.load fl value id d).map (fun result => result.2.walker) = some d.walker

instance {α : Type} (fl : FloatOps) (a : Accessor .value α) (value : α) (id : SerializationId)
    (d : SRADeserializer) : Decidable (KeepsWalker fl a value id d) :=
  inferInstanceAs (Decidable (_ = _))

/-- No array, map or set below the accessor itself. -/
def NestsNoArray {α : Type} : Accessor .value α → Prop
  | array _ _ _ => True
  | map _ _ => True
  | set _ _ => True
  | a => a.PopsOwn

theorem keepsWalker_of_balanced {α : Type} {a : Accessor .value α} {value : α}
    {id : SerializationId} {d : SRADeserializer} {n : SRANode} (h : OnNode d n)
    (hcount : d.root.count < 2 ^ 32) (hbalanced : a.Balanced n (d.walker = []) id) :
    KeepsWalker fl a value id d := by
  obtain ⟨d', hload, hwalker, -⟩ := returns_load fl a value id h hcount (fun h => h) hbalanced
  rw [KeepsWalker, hload, Option.map_some, hwalker]

theorem found_of_endArray {d : SRADeserializer} {n : SRANode} (h : OnNode d n)
    {id : SerializationId} (hwalker : (d.beginArray id).2.endArray.walker = d.walker) :
    d.walker = [] ∨ findChild? id n ≠ none := by
  rcases beginArray_cases h id with ⟨-, hbegin⟩ | ⟨i, c, hc, -, -⟩
  · left
    rw [hbegin, walker_endArray] at hwalker
    change d.walker.tail = d.walker at hwalker
    have hlen := congrArg List.length hwalker
    rw [List.length_tail] at hlen
    rw [← List.length_eq_zero_iff]
    omega
  · right
    simp [hc]

theorem balanced_of_keepsWalker {α : Type} {a : Accessor .value α} (ha : a.NestsNoArray)
    {value : α} {id : SerializationId} {d : SRADeserializer} {n : SRANode} (h : OnNode d n)
    (hcount : d.root.count < 2 ^ 32) (hkeeps : KeepsWalker fl a value id d) :
    a.Balanced n (d.walker = []) id := by
  obtain ⟨result, hload, hwalker⟩ := Option.map_eq_some_iff.mp hkeeps
  cases a with
  | boolean | integer | float | double | string | vector | object =>
      exact balanced_of_load ha h hcount hload hwalker
  | array | map | set =>
      cases hload
      exact found_of_endArray h hwalker

/-- On a tree from a file, wherever the walker stands in it. -/
theorem keepsWalker_iff_balanced (fl : FloatOps) {lines : List Text} {file : SRADeserializer}
    {ok : Bool} (hfile : loadFromFile fl lines {} = some (file, ok)) {d : SRADeserializer}
    (hroot : d.root = file.root) {n : SRANode} (hn : OnNode d n) {α : Type}
    (a : Accessor .value α) (value : α) (id : SerializationId) :
    (a.Balanced n (d.walker = []) id → KeepsWalker fl a value id d) ∧
      (a.NestsNoArray → KeepsWalker fl a value id d → a.Balanced n (d.walker = []) id) := by
  have hcount : d.root.count < 2 ^ 32 := by
    rw [hroot]
    exact count_loadFromFile_lt hfile
  exact ⟨keepsWalker_of_balanced hn hcount, fun ha => balanced_of_keepsWalker ha hn hcount⟩

end

/-! ### Trees from short files -/

/-- The deserializer of a file that is read to its end. -/
def readLines (lines : List String)
    (h : (loadFromFile sampleFloats (lines.map Text.lit) {}).isSome = true) : SRADeserializer :=
  ((loadFromFile sampleFloats (lines.map Text.lit) {}).get h).1

theorem loadFromFile_readLines (lines : List String)
    (h : (loadFromFile sampleFloats (lines.map Text.lit) {}).isSome = true) :
    ∃ ok, loadFromFile sampleFloats (lines.map Text.lit) {} = some (readLines lines h, ok) :=
  ⟨_, (Option.some_get h).symm⟩

def vectorFile : SRADeserializer :=
  readLines ["sra format", "0-r:Root", "1-a:v", "2-k:i", "3-v:d", "4-i:7", "1-a:w", "1-v:n", "2-i:1",
    "1-o:p", "2-a:first"] (by decide)

/-- The vector `v` comes back with its item. -/
theorem keepsWalker_iff_balanced_sample :
    ((vector (integer .int32)).Balanced vectorFile.root (vectorFile.walker = []) (.create "v") →
        KeepsWalker sampleFloats (vector (integer .int32)) [] (.create "v") vectorFile) ∧
      ((vector (integer .int32)).NestsNoArray →
        KeepsWalker sampleFloats (vector (integer .int32)) [] (.create "v") vectorFile →
        (vector (integer .int32)).Balanced vectorFile.root (vectorFile.walker = [])
          (.create "v")) := by
  obtain ⟨ok, hfile⟩ := loadFromFile_readLines ["sra format", "0-r:Root", "1-a:v", "2-k:i", "3-v:d",
    "4-i:7", "1-a:w", "1-v:n", "2-i:1", "1-o:p", "2-a:first"] (by decide)
  have hwalker : vectorFile.walker = [] := by decide
  have hn : OnNode vectorFile vectorFile.root := by
    rw [OnNode, hwalker]
    rfl
  exact keepsWalker_iff_balanced sampleFloats hfile rfl hn (vector (integer .int32)) []
    (.create "v")

/-- An empty array, a leaf where a pair was asked for, and a map that is not there. -/
theorem not_keepsWalker :
    ¬ KeepsWalker sampleFloats (vector (integer .int32)) [] (.create "w") vectorFile ∧
    ¬ KeepsWalker sampleFloats (pair (integer .int32) (integer .int32)) (0, 0) (.create "n")
      vectorFile ∧
    ¬ KeepsWalker sampleFloats (map (integer .int32) (integer .int32)) [] (.create "m")
      (vectorFile.pushWalker 3) := by
  decide

def pairNode : SRANode := (findChild? (.create "p") vectorFile.root).get (by decide)

def pairFirstNode : SRANode := (findChild? (.create "first") pairNode).get (by decide)

/-- Two unbalanced members can make up for each other. -/
theorem keepsWalker_of_not_balanced :
    KeepsWalker sampleFloats (pair (vector (integer .int32)) (map (integer .int32) (integer .int32)))
        ([], []) (.create "p") vectorFile ∧
      ¬ (pair (vector (integer .int32)) (map (integer .int32) (integer .int32))).Balanced
        vectorFile.root (vectorFile.walker = []) (.create "p") := by
  constructor
  · decide
  · intro hbalanced
    obtain ⟨-, hfirst, -⟩ := hbalanced pairNode (Option.some_get _).symm
    obtain ⟨hne, -⟩ := hfirst pairFirstNode (Option.some_get _).symm
    rw [← List.length_pos_iff] at hne
    revert hne
    decide

end Accessor

end SRCommon
