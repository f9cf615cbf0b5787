import Mathlib.Data.List.Basic
import Mathlib.Tactic.Common
import SRCommon.Common.Hashes
import SRCommon.Lib.ListSearch
import SRCommon.Lib.SortedMap
import SRCommon.Resources.Xml

/-!
# Tags

The tags are kept by index in a vector, and their indices by tag in a map. The
empty tag has the index 0 whether it is registered or not.
-/

namespace SRCommon

/-- An atom points to the entry of the string table with its hash, and there is no other entry
with that hash. -/
structure TagAtom where
  hash : UInt64
deriving DecidableEq

namespace TagAtom

def ofText (str : Text) : TagAtom := ⟨hashArrayRepresentation str⟩

/-- `StringAtom()`. -/
def empty : TagAtom := ofText []

/-- `std::less<StringAtom>` compares the hashes. -/
def rank (tag : TagAtom) : ℕ := tag.hash.toNat

theorem rank_injective : Function.Injective rank := by
  intro a b h
  have hhash : a.hash = b.hash := UInt64.toNat_inj.mp h
  cases a
  cases b
  exact congrArg mk hhash

end TagAtom

/-- `m_indices` is in the order of the hashes. -/
structure TagManager where
  indices : List (TagAtom × UInt16) := []
  tags : List TagAtom := []

inductive TagCall where
  | registerTag (tag : TagAtom)
  | loadSettings (node : XmlNode)
  | clearSettings

namespace TagManager

def untagged : TagAtom := .ofText (Text.lit "Untagged")

def findIndex (m : TagManager) (tag : TagAtom) : Option UInt16 :=
  (m.indices.find? fun entry => entry.1 = tag).map Prod.snd

/-- The right side of an assignment comes first, so that the size is the one before the entry. -/
def registerTag (m : TagManager) (tag : TagAtom) : TagManager :=
  if m.findIndex tag = none then
    { indices := SortedMap.insert TagAtom.rank tag (UInt16.ofNat m.indices.length) m.indices
      tags := m.tags ++ [tag] }
  else m

def clearSettings (_ : TagManager) : TagManager := { indices := [], tags := [] }

/-- The names below the first node `Tags`. A node that is a text has an empty name. -/
def tagNames (node : XmlNode) : List Text :=
  ((node.children.find? fun child => child.label.name = Text.lit "Tags").map fun tagsNode =>
    tagsNode.children.map fun tagNode => tagNode.label.name).getD []

def loadSettings (m : TagManager) (node : XmlNode) : TagManager :=
  ((tagNames node).map TagAtom.ofText).foldl registerTag (m.clearSettings.registerTag untagged)

/-- `SR_ID_INVALID` for a tag that is not known. -/
def getTagIndex (m : TagManager) (tag : TagAtom) : UInt16 :=
  if tag = .empty then 0 else (m.findIndex tag).getD (-1)

/-- The empty tag for an index that is not known. -/
def getTagByIndex (m : TagManager) (index : UInt16) : TagAtom :=
  (m.tags[index.toNat]?).getD .empty

def step (m : TagManager) : TagCall → TagManager
  | .registerTag tag => m.registerTag tag
  | .loadSettings node => m.loadSettings node
  | .clearSettings => m.clearSettings

/-! ## The registered tags -/

/-- The tags in the order in which they were registered first. -/
def addTag (tags : List TagAtom) (tag : TagAtom) : List TagAtom :=
  if tag ∈ tags then tags else tags ++ [tag]

/-- What is registered after a call. -/
def registered (tags : List TagAtom) : TagCall → List TagAtom
  | .registerTag tag => addTag tags tag
  | .loadSettings node => (untagged :: (tagNames node).map TagAtom.ofText).foldl addTag []
  | .clearSettings => []

/-- The vector and the map are two ways to write the same tags. -/
structure Represents (m : TagManager) (tags : List TagAtom) : Prop where
  tags_eq : m.tags = tags
  nodup : tags.Nodup
  sorted : SortedMap.Sorted TagAtom.rank m.indices
  length : m.indices.length = tags.length
  mem_iff : ∀ tag index,
    (tag, index) ∈ m.indices ↔ ∃ i, tags[i]? = some tag ∧ index = UInt16.ofNat i

variable {m : TagManager} {tags : List TagAtom} {tag : TagAtom}

theorem represents_nil : Represents {} [] where
  tags_eq := rfl
  nodup := List.nodup_nil
  sorted := List.Pairwise.nil
  length := rfl
  mem_iff tag index := by simp

theorem nodup_addTag (h : tags.Nodup) (tag : TagAtom) : (addTag tags tag).Nodup := by
  by_cases hmem : tag ∈ tags
  · rwa [addTag, if_pos hmem]
  · rw [addTag, if_neg hmem]
    rw [← List.concat_eq_append]
    exact h.concat hmem

namespace Represents

theorem findIndex_eq_some_iff (h : Represents m tags) {index : UInt16} :
    m.findIndex tag = some index ↔ (tag, index) ∈ m.indices := by
  constructor
  · intro hfind
    obtain ⟨entry, hentry, rfl⟩ := Option.map_eq_some_iff.mp hfind
    have htag : entry.1 = tag := by simpa using List.find?_some hentry
    rw [← htag]
    exact List.mem_of_find?_eq_some hentry
  · intro hmem
    have hfind : (m.indices.find? fun entry => entry.1 = tag) = some (tag, index) :=
      ListSearch.find?_eq_some_of_nodup h.sorted.nodup_keys hmem
    rw [findIndex]
    exact Option.map_eq_some_iff.mpr ⟨_, hfind, rfl⟩

theorem findIndex_of_getElem? (h : Represents m tags) {i : ℕ} (hi : tags[i]? = some tag) :
    m.findIndex tag = some (UInt16.ofNat i) :=
  h.findIndex_eq_some_iff.mpr ((h.mem_iff _ _).mpr ⟨i, hi, rfl⟩)

theorem findIndex_eq_none_iff (h : Represents m tags) : m.findIndex tag = none ↔ tag ∉ tags := by
  constructor
  · intro hnone hmem
    obtain ⟨i, hi⟩ := List.mem_iff_getElem?.mp hmem
    rw [h.findIndex_of_getElem? hi] at hnone
    cases hnone
  · intro hmem
    cases hfind : m.findIndex tag with
    | none => rfl
    | some index =>
        obtain ⟨i, hi, -⟩ := (h.mem_iff _ _).mp (h.findIndex_eq_some_iff.mp hfind)
        exact absurd (List.mem_of_getElem? hi) hmem

theorem registerTag (h : Represents m tags) (tag : TagAtom) :
    Represents (m.registerTag tag) (addTag tags tag) := by
  by_cases hmem : tag ∈ tags
  · rw [addTag, if_pos hmem, TagManager.registerTag, if_neg]
    · exact h
    · exact fun hnone => h.findIndex_eq_none_iff.mp hnone hmem
  · have hkeys : tag ∉ SortedMap.keys m.indices := by
      intro hkey
      obtain ⟨entry, hentry, rfl⟩ := List.mem_map.mp hkey
      obtain ⟨i, hi, -⟩ := (h.mem_iff entry.1 entry.2).mp hentry
      exact hmem (List.mem_of_getElem? hi)
    have hnodup := nodup_addTag h.nodup tag
    rw [addTag, if_neg hmem] at hnodup ⊢
    rw [TagManager.registerTag, if_pos (h.findIndex_eq_none_iff.mpr hmem)]
    refine ⟨congrArg (· ++ [tag]) h.tags_eq, hnodup, h.sorted.insert TagAtom.rank_injective, ?_, ?_⟩
    · rw [(SortedMap.insert_perm hkeys).length_eq, List.length_cons, h.length, List.length_append,
        List.length_singleton]
    · intro other index
      rw [SortedMap.mem_insert h.sorted, h.mem_iff, h.length]
      constructor
      · rintro (⟨rfl, rfl⟩ | ⟨-, i, hi, rfl⟩)
        · exact ⟨tags.length, List.getElem?_concat_length, rfl⟩
        · refine ⟨i, ?_, rfl⟩
          rw [List.getElem?_append_left (List.getElem?_eq_some_iff.mp hi).1, hi]
      · rintro ⟨i, hi, rfl⟩
        rw [List.getElem?_append] at hi
        split at hi
        · have hother : other ≠ tag := by
            rintro rfl
            exact hmem (List.mem_of_getElem? hi)
          exact .inr ⟨hother, i, hi, rfl⟩
        · obtain ⟨hlt, heq⟩ := List.getElem?_eq_some_iff.mp hi
          rw [List.length_singleton] at hlt
          have hlast : i = tags.length := by omega
          subst hlast
          simp at heq
          exact .inl ⟨heq.symm, rfl⟩

theorem foldl_registerTag (h : Represents m tags) (added : List TagAtom) :
    Represents (added.foldl TagManager.registerTag m) (added.foldl addTag tags) := by
  induction added generalizing m tags with
  | nil => exact h
  | cons tag added ih => exact ih (h.registerTag tag)

theorem step (h : Represents m tags) (call : TagCall) :
    Represents (m.step call) (registered tags call) := by
  cases call with
  | registerTag tag => exact h.registerTag tag
  | loadSettings node =>
      exact represents_nil.foldl_registerTag (untagged :: (tagNames node).map .ofText)
  | clearSettings => exact represents_nil

theorem run (h : Represents m tags) (calls : List TagCall) :
    Represents (calls.foldl TagManager.step m) (calls.foldl registered tags) := by
  induction calls generalizing m tags with
  | nil => exact h
  | cons call calls ih => exact ih (h.step call)

/-! ## Indices -/

theorem getTagByIndex_eq (h : Represents m tags) (index : UInt16) :
    m.getTagByIndex index = (tags[index.toNat]?).getD .empty := by
  rw [getTagByIndex, h.tags_eq]

theorem getTagByIndex_getTagIndex (h : Represents m tags) (hsize : tags.length < 65536)
    (hmem : tag ∈ tags) (hne : tag ≠ .empty) : m.getTagByIndex (m.getTagIndex tag) = tag := by
  obtain ⟨i, hi⟩ := List.mem_iff_getElem?.mp hmem
  have hlt : i < tags.length := (List.getElem?_eq_some_iff.mp hi).1
  have htoNat : (UInt16.ofNat i).toNat = i := UInt16.toNat_ofNat_of_lt' (hlt.trans hsize)
  rw [getTagIndex, if_neg hne, h.findIndex_of_getElem? hi, Option.getD_some, h.getTagByIndex_eq,
    htoNat, hi, Option.getD_some]

theorem getTagIndex_getTagByIndex (h : Represents m tags) {index : UInt16}
    (hindex : index.toNat < tags.length) :
    m.getTagIndex (m.getTagByIndex index) =
      if m.getTagByIndex index = .empty then 0 else index := by
  have htag : tags[index.toNat]? = some (m.getTagByIndex index) := by
    rw [h.getTagByIndex_eq, List.getElem?_eq_getElem hindex, Option.getD_some]
  by_cases hempty : m.getTagByIndex index = .empty
  · rw [getTagIndex, if_pos hempty, if_pos hempty]
  · rw [getTagIndex, if_neg hempty, if_neg hempty, h.findIndex_of_getElem? htag, Option.getD_some,
      UInt16.ofNat_toNat]

end Represents

/-- `m_tags` holds the registered tags, each once. An index leads to its tag and back, only the
empty tag has the index 0 at any place. -/
theorem tags_indexed (calls : List TagCall) :
    let m := calls.foldl step {}
    let tags := calls.foldl registered []
    m.tags = tags ∧ tags.Nodup ∧
      (tags.length < 65536 →
        (∀ tag ∈ tags, tag ≠ .empty → m.getTagByIndex (m.getTagIndex tag) = tag) ∧
        ∀ index : UInt16, index.toNat < tags.length →
          m.getTagIndex (m.getTagByIndex index) =
            if m.getTagByIndex index = .empty then 0 else index) := by
  have h : Represents (calls.foldl step {}) (calls.foldl registered []) :=
    represents_nil.run calls
  refine ⟨h.tags_eq, h.nodup, fun hsize => ⟨?_, ?_⟩⟩
  · exact fun tag hmem hne => h.getTagByIndex_getTagIndex hsize hmem hne
  · exact fun index hindex => h.getTagIndex_getTagByIndex hindex

/-- Settings with these names below `Tags`. -/
def settingsWithTags (names : List Text) : XmlNode :=
  .node { name := Text.lit "Settings" }
    [.node { name := Text.lit "Tags" } (names.map fun name => .node { name := name } [])]

theorem tags_indexed_settings :
    let m := [TagCall.loadSettings (settingsWithTags [Text.lit "Player"])].foldl step {}
    m.getTagByIndex (m.getTagIndex (.ofText (Text.lit "Player"))) =
        .ofText (Text.lit "Player") ∧
      m.getTagIndex (m.getTagByIndex 1) = 1 := by
  have h := tags_indexed [.loadSettings (settingsWithTags [Text.lit "Player"])]
  obtain ⟨-, -, hindexed⟩ := h
  obtain ⟨htags, hindices⟩ := hindexed (by decide +kernel)
  refine ⟨htags _ (by decide +kernel) (by decide +kernel), ?_⟩
  exact (hindices 1 (by decide +kernel)).trans (if_neg (by decide +kernel))

/-- A text below `Tags` registers the empty tag. -/
theorem not_indexed_emptyTag :
    let m := [TagCall.loadSettings (settingsWithTags [[]])].foldl step {}
    m.tags = [untagged, .empty] ∧ m.getTagIndex (m.getTagByIndex 1) ≠ 1 := by
  decide +kernel

end TagManager

end SRCommon
