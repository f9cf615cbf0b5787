import SRCommon.Serialization.SavedFields
import SRCommon.Serialization.WalkerBalance

/-!
# Saving and loading fields

Fields are saved one after the other through `SRASerializer`, the file is read
by `SRADeserializer`, and the fields are loaded in the same order. They all
come back, with the walker at the root, exactly if no vector in them is empty.
-/

namespace SRCommon

open Text SRADeserializer Accessor

structure Field where
  α : Type
  id : SerializationId
  accessor : Accessor .value α
  value : α

namespace Field

variable (fl : FloatOps)

/-- `Serialization::Save` of every field. -/
def saveFields (fields : List Field) : SRASerializer :=
  fields.foldl (fun s f => f.accessor.save fl f.value f.id s) {}

/-- `Serialization::Load` of every field into a default-constructed destination. -/
def loadFields : List Field → SRADeserializer → Option (List Field × SRADeserializer)
  | [], d => some ([], d)
  | f :: fields, d =>
      (f.accessor.load fl f.accessor.dflt f.id d).bind fun (value, d) =>
        (loadFields fields d).map fun (loaded, d) => ({ f with value := value } :: loaded, d)

end Field

/-- The lines of the file that `SaveToFile` writes. -/
def fileLines (fl : FloatOps) (s : TextSettings) (root : SRANode) : List Text :=
  getlines (documentText fl s root)

section

variable {fl : FloatOps} {s : TextSettings}

/-! ## The file -/

theorem builtRoot_rootNode {P : NodeShape} (hroot : P.id (.create "Root")) {ms : List SRANode}
    (hms : ∀ m ∈ ms, Built P m) : BuiltRoot P (rootNode ms) := .root _ hroot _ hms

theorem goodId_root : GoodId (.create "Root") := goodId_create (by decide) (by decide) (by decide)

theorem exactShape_of_saved {ms : List SRANode} (hms : ∀ m ∈ ms, Built savedShape m) :
    BuiltRoot (exactShape fl s) (rootNode ms) :=
  BuiltRoot.mono (P := savedShape) (Q := exactShape fl s) (fun _ h => h.1) (fun _ _ => trivial)
    (fun _ => False.elim) (fun _ h => Or.inl h) (builtRoot_rootNode goodId_root hms)

variable (fl) in
theorem oneLineShape_of_saved {ms : List SRANode} (hms : ∀ m ∈ ms, Built savedShape m) :
    BuiltRoot (oneLineShape fl) (rootNode ms) :=
  BuiltRoot.mono (P := savedShape) (Q := oneLineShape fl) (fun _ h => h.2) (fun _ h => h)
    (fun _ => False.elim) (fun _ _ => trivial) (builtRoot_rootNode goodId_root hms)

theorem length_fileLines {ms : List SRANode} (hms : ∀ m ∈ ms, Built savedShape m) :
    (fileLines fl s (rootNode ms)).length = (treeRecords fl s 0 (rootNode ms)).length + 2 := by
  rw [fileLines, getlines_documentText (oneLineShape_of_saved fl hms), List.length_cons,
    List.length_append, length_recordLines, List.length_singleton]

/-- The saved tree is read back, walker at its root, if the lines can be counted. -/
theorem loadFromFile_fileLines {ms : List SRANode} (hms : ∀ m ∈ ms, Built savedShape m)
    (hlen : (fileLines fl s (rootNode ms)).length ≤ int32Max) :
    ∃ file, loadFromFile fl (fileLines fl s (rootNode ms)) {} = some (file, true) ∧
      file.root = rootNode ms ∧ file.walker = [] := by
  rw [length_fileLines hms] at hlen
  obtain ⟨file, hload, hroot, hwalker⟩ :=
    loadFromFile_documentText (s := s) (oneLineShape_of_saved fl hms) hlen
  rw [reloaded_eq_root (exactShape_of_saved hms), List.cons.injEq] at hroot
  exact ⟨file, hload, hroot.1, hwalker⟩

theorem length_fileLines_le {ms : List SRANode} (hms : ∀ m ∈ ms, Built savedShape m)
    {result : SRADeserializer × Bool}
    (hload : loadFromFile fl (fileLines fl s (rootNode ms)) {} = some result) :
    (fileLines fl s (rootNode ms)).length ≤ int32Max := by
  by_contra hlong
  rw [length_fileLines hms] at hlong
  rw [fileLines, loadFromFile_documentText_eq_none (oneLineShape_of_saved fl hms) (by omega)] at hload
  cases hload

theorem onNode_file {file : SRADeserializer} {n : SRANode} (hroot : file.root = n)
    (hwalker : file.walker = []) : OnNode file n := by
  rw [OnNode, hwalker, hroot]
  rfl

/-! ## The saved fields -/

namespace Field

def nodes (fl : FloatOps) (f : Field) : List SRANode :=
  f.accessor.nodes fl false f.value f.id

theorem root_saveFields (fields : List Field) :
    (saveFields fl fields).root = rootNode (fields.flatMap (Field.nodes fl)) := by
  have hvalid : ({} : SRASerializer).Valid := rfl
  have hstep : ∀ (s : SRASerializer) (f : Field), s.Valid → s.isNeedWriteDefaults = false →
      f.accessor.save fl f.value f.id s = s.appendNodes (f.nodes fl) :=
    fun s f hs hdefaults => save_eq f.accessor f.value f.id hs hdefaults
  rw [saveFields, foldl_appendNodes hstep fields hvalid rfl]
  rfl

/-- What is asked of a field that is saved: an accessor of the modelled kinds, an id that
files keep, and strings without line breaks. -/
structure Saveable (f : Field) : Prop where
  plain : f.accessor.Plain
  id : GoodId f.id
  strings : f.accessor.OneLineStrings f.value

theorem Saveable.built {f : Field} (hf : f.Saveable) : ∀ m ∈ f.nodes fl, Built savedShape m := by
  intro m hm
  refine hf.plain.built_nodes hf.strings ?_ hm
  simpa [lookupIds_value] using hf.id

variable (fl) in
theorem built_of_saveable {fields : List Field} (hfields : ∀ f ∈ fields, f.Saveable) :
    ∀ m ∈ fields.flatMap (Field.nodes fl), Built savedShape m := by
  intro m hm
  obtain ⟨f, hf, hm⟩ := List.mem_flatMap.mp hm
  exact (hfields f hf).built m hm

/-- Every field finds its own node below the root. -/
theorem sees_root {fields : List Field}
    (hids : DifferentHashes (fields.map Field.id)) {f : Field} (hf : f ∈ fields) :
    Sees (rootNode (fields.flatMap (Field.nodes fl)))
      (f.accessor.nodes fl false f.value f.id) (f.accessor.lookupIds f.id) := by
  have hall : Sees (rootNode (fields.flatMap (Field.nodes fl)))
      (fields.flatMap (Field.nodes fl)) (fields.map Field.id) := sees_node _ _ _
  generalize rootNode (fields.flatMap (Field.nodes fl)) = n at hall
  have hnodes : ∀ g : Field, ∀ m ∈ g.nodes fl, m.label.id = g.id := by
    intro g m hm
    simpa [lookupIds_value] using id_mem_lookupIds hm
  induction fields with
  | nil => cases hf
  | cons g fields ih =>
      have hsplit := @Sees.append _ _ _ [g.id] _ hall hids
        (fun m hm => List.mem_singleton.mpr (hnodes g m hm)) fun m hm => by
          obtain ⟨g', hg', hm⟩ := List.mem_flatMap.mp hm
          rw [hnodes g' m hm]
          exact List.mem_map_of_mem hg'
      rcases List.mem_cons.mp hf with rfl | hf
      · rw [lookupIds_value]
        exact hsplit.1
      · exact ih (DifferentHashes.right (show DifferentHashes ([g.id] ++ _) from hids)) hf hsplit.2

/-! ## Loading the fields -/

theorem popsOwn_of_plain {kind : AccessorKind} {α : Type} {a : Accessor kind α} (ha : a.Plain) :
    a.PopsOwn := by
  induction ha with
  | boolean | integer | string | nothing | checked => trivial
  | vector ha ih | object hbody hids ih | member hid ha ih => exact ih
  | seq ha hb iha ihb => exact ⟨iha, ihb⟩

/-- A field without empty vectors is read back and leaves the walker alone. -/
theorem load_field {f : Field} (hf : f.Saveable) {d : SRADeserializer} {n : SRANode}
    (hn : OnNode d n) (hcount : d.root.count < 2 ^ 32)
    (hsees : Sees n (f.accessor.nodes fl false f.value f.id) (f.accessor.lookupIds f.id))
    (hempty : f.accessor.NoEmpty f.value) :
    Returns (f.accessor.load fl f.accessor.dflt f.id d) f.value d := by
  have hhashes : DifferentHashes (f.accessor.lookupIds f.id) := by
    rw [lookupIds_value]
    exact differentHashes_singleton _
  have hbalanced : f.accessor.Balanced n False f.id :=
    (balanced_nodes_iff hf.plain hhashes hsees).mpr hempty
  have hvalue := (valueAt_nodes_iff hf.plain f.accessor.dflt hhashes hsees).mpr
    (hf.plain.staleFree_dflt f.value)
  have hreturns := returns_load fl f.accessor f.accessor.dflt f.id hn hcount False.elim
    hbalanced
  rwa [hvalue] at hreturns

theorem loadFields_of_noEmpty {fields : List Field} {d : SRADeserializer} {n : SRANode}
    (hn : OnNode d n) (hcount : d.root.count < 2 ^ 32)
    (h : ∀ f ∈ fields, f.Saveable ∧ f.accessor.NoEmpty f.value ∧
      Sees n (f.accessor.nodes fl false f.value f.id) (f.accessor.lookupIds f.id)) :
    ∃ d', loadFields fl fields d = some (fields, d') ∧ d'.walker = d.walker := by
  induction fields generalizing d with
  | nil => exact ⟨d, rfl, rfl⟩
  | cons f fields ih =>
      obtain ⟨hf, hempty, hsees⟩ := h f List.mem_cons_self
      obtain ⟨d₁, hload, hwalker, hroot⟩ := load_field hf hn hcount hsees hempty
      obtain ⟨d₂, hrest, hwalker₂⟩ := ih (hn.of_eq hwalker hroot) (by rwa [hroot]) fun g hg =>
        h g (List.mem_cons_of_mem f hg)
      refine ⟨d₂, ?_, hwalker₂.trans hwalker⟩
      simp [loadFields, hload, hrest]

theorem suffix_loadFields {fields loaded : List Field} {d d' : SRADeserializer}
    (h : ∀ f ∈ fields, f.accessor.PopsOwn) (hload : loadFields fl fields d = some (loaded, d')) :
    d.walker <:+ d'.walker := by
  induction fields generalizing d loaded with
  | nil =>
      cases hload
      exact List.suffix_rfl
  | cons f fields ih =>
      obtain ⟨⟨value, d₁⟩, hload₁, hload⟩ := Option.bind_eq_some_iff.mp hload
      obtain ⟨⟨loaded', d₂⟩, hrest, heq⟩ := Option.map_eq_some_iff.mp hload
      cases heq
      exact (suffix_load (h f List.mem_cons_self) hload₁).trans
        (ih (fun g hg => h g (List.mem_cons_of_mem f hg)) hrest)

/-- A walker that is back after the last field was back after each of them. -/
theorem noEmpty_of_loadFields {fields loaded : List Field} {d d' : SRADeserializer} {n : SRANode}
    (hn : OnNode d n) (hcount : d.root.count < 2 ^ 32)
    (h : ∀ f ∈ fields, f.Saveable ∧
      Sees n (f.accessor.nodes fl false f.value f.id) (f.accessor.lookupIds f.id))
    (hload : loadFields fl fields d = some (loaded, d')) (hwalker : d'.walker = d.walker) :
    ∀ f ∈ fields, f.accessor.NoEmpty f.value := by
  induction fields generalizing d loaded with
  | nil => simp
  | cons f fields ih =>
      obtain ⟨hf, hsees⟩ := h f List.mem_cons_self
      have hpops : ∀ g ∈ fields, g.accessor.PopsOwn := fun g hg =>
        popsOwn_of_plain (h g (List.mem_cons_of_mem f hg)).1.plain
      obtain ⟨⟨value, d₁⟩, hload₁, hload⟩ := Option.bind_eq_some_iff.mp hload
      obtain ⟨⟨loaded', d₂⟩, hrest, heq⟩ := Option.map_eq_some_iff.mp hload
      cases heq
      have hsuffix := suffix_loadFields hpops hrest
      rw [hwalker] at hsuffix
      have hback : d₁.walker = d.walker :=
        eq_of_suffix_of_suffix (suffix_load (popsOwn_of_plain hf.plain) hload₁) hsuffix
      have hroot : d₁.root = d.root := root_load hload₁
      have hhashes : DifferentHashes (f.accessor.lookupIds f.id) := by
        rw [lookupIds_value]
        exact differentHashes_singleton _
      have hbalanced : f.accessor.Balanced n False f.id :=
        balanced_of_load (popsOwn_of_plain hf.plain) hn hcount hload₁ hback
      have hrestEmpty := ih (hn.of_eq hback hroot) (by rwa [hroot])
        (fun g hg => h g (List.mem_cons_of_mem f hg)) hrest (hwalker.trans hback.symm)
      intro g hg
      rcases List.mem_cons.mp hg with rfl | hg
      · exact (balanced_nodes_iff hf.plain hhashes hsees).mp hbalanced
      · exact hrestEmpty g hg

/-! ## The round trip -/

/-- Every field has its value again and the walker is at the root. -/
def RoundTrips (fl : FloatOps) (s : TextSettings) (fields : List Field) : Prop :=
  ∃ file d, loadFromFile fl (fileLines fl s (saveFields fl fields).root) {} = some (file, true) ∧
    loadFields fl fields file = some (fields, d) ∧ d.walker = []

theorem noEmpty_of_roundTrips {fields : List Field} (hfields : ∀ f ∈ fields, f.Saveable)
    (hids : DifferentHashes (fields.map Field.id)) (h : RoundTrips fl s fields) :
    (∀ f ∈ fields, f.accessor.NoEmpty f.value) ∧
      (fileLines fl s (saveFields fl fields).root).length ≤ int32Max := by
  have hbuilt := built_of_saveable fl hfields
  rw [RoundTrips, root_saveFields] at h
  obtain ⟨file, d, hload, hfieldsLoad, hwalker⟩ := h
  have hlen := length_fileLines_le hbuilt hload
  obtain ⟨file', hload', hroot, hstart⟩ := loadFromFile_fileLines hbuilt hlen
  obtain rfl : file' = file := by simpa [hload'] using hload
  rw [root_saveFields]
  refine ⟨?_, hlen⟩
  refine noEmpty_of_loadFields (onNode_file hroot hstart) (count_loadFromFile_lt hload)
    (fun f hf => ⟨hfields f hf, sees_root hids hf⟩) hfieldsLoad ?_
  rw [hwalker, hstart]

theorem roundTrips_of_noEmpty {fields : List Field} (hfields : ∀ f ∈ fields, f.Saveable)
    (hids : DifferentHashes (fields.map Field.id))
    (hempty : ∀ f ∈ fields, f.accessor.NoEmpty f.value)
    (hlen : (fileLines fl s (saveFields fl fields).root).length ≤ int32Max) :
    RoundTrips fl s fields := by
  rw [root_saveFields] at hlen
  rw [RoundTrips, root_saveFields]
  obtain ⟨file, hload, hroot, hstart⟩ :=
    loadFromFile_fileLines (built_of_saveable fl hfields) hlen
  obtain ⟨d, hfieldsLoad, hwalker⟩ := loadFields_of_noEmpty (onNode_file hroot hstart)
    (count_loadFromFile_lt hload) fun f hf => ⟨hfields f hf, hempty f hf, sees_root hids hf⟩
  exact ⟨file, d, hload, hfieldsLoad, hwalker.trans hstart⟩

theorem roundTrips_iff (fl : FloatOps) (s : TextSettings) {fields : List Field}
    (hfields : ∀ f ∈ fields, f.Saveable) (hids : DifferentHashes (fields.map Field.id)) :
    RoundTrips fl s fields ↔ (∀ f ∈ fields, f.accessor.NoEmpty f.value) ∧
      (fileLines fl s (saveFields fl fields).root).length ≤ int32Max := by
  constructor
  · exact noEmpty_of_roundTrips hfields hids
  · rintro ⟨hempty, hlen⟩
    exact roundTrips_of_noEmpty hfields hids hempty hlen

def vectorField (value : List (BitVec 8 × Text)) : Field where
  α := List (BitVec 8 × Text)
  id := .create "items"
  accessor := vector (pair (.integer .int8) string)
  value := value

def counterField (value : BitVec 64) : Field where
  α := BitVec 64
  id := .create "counter"
  accessor := .integer .uint64
  value := value

theorem saveable_vectorField {value : List (BitVec 8 × Text)}
    (h : ∀ item ∈ value, ch '\n' ∉ item.2) : (vectorField value).Saveable where
  plain := .vector (.pair (.integer .int8) .string)
  id := goodId_create (by decide) (by decide) (by decide)
  strings := fun item hitem => ⟨trivial, h item hitem⟩

theorem saveable_counterField (value : BitVec 64) : (counterField value).Saveable where
  plain := .integer .uint64
  id := goodId_create (by decide) (by decide) (by decide)
  strings := trivial

theorem differentHashes_sample (value : List (BitVec 8 × Text)) (counter : BitVec 64) :
    DifferentHashes ([vectorField value, counterField counter].map Field.id) := by
  change DifferentHashes [.create "items", .create "counter"]
  unfold DifferentHashes
  decide

theorem roundTrips_iff_sample :
    RoundTrips sampleFloats { useTabs := true } [vectorField [(-5, lit "1-o:x")], counterField 7] ↔
      (∀ f ∈ [vectorField [(-5, lit "1-o:x")], counterField 7], f.accessor.NoEmpty f.value) ∧
      (fileLines sampleFloats { useTabs := true } (saveFields sampleFloats
        [vectorField [(-5, lit "1-o:x")], counterField 7]).root).length ≤ int32Max := by
  apply roundTrips_iff sampleFloats { useTabs := true }
  · intro f hf
    rcases List.mem_cons.mp hf with rfl | hf
    · exact saveable_vectorField (by decide)
    · rw [List.mem_singleton.mp hf]
      exact saveable_counterField 7
  · exact differentHashes_sample _ _

/-- The counter is looked for below the empty array. -/
theorem not_roundTrips_emptyVector :
    ¬ RoundTrips sampleFloats {} [vectorField [], counterField 7] := by
  intro h
  have hfields : ∀ f ∈ [vectorField [], counterField 7], f.Saveable := by
    intro f hf
    rcases List.mem_cons.mp hf with rfl | hf
    · exact saveable_vectorField (by simp)
    · rw [List.mem_singleton.mp hf]
      exact saveable_counterField 7
  have hempty := (noEmpty_of_roundTrips hfields (differentHashes_sample _ _) h).1
  exact (hempty (vectorField []) List.mem_cons_self).1 rfl

end Field

/-! ## Destinations -/

namespace Accessor

/-- No vector inside the value is empty; the value itself may be an empty vector. -/
def NoInnerEmpty : {α : Type} → Accessor .value α → α → Prop
  | _, vector a, value => ∀ item ∈ value, a.NoEmpty item
  | _, a, value => a.NoEmpty value

/-- An empty vector is not loaded at all, other values up to omitted members. -/
def DestinationFits : {α : Type} → Accessor .value α → α → α → Prop
  | _, vector _, [], dest => dest = []
  | _, a, value, dest => a.StaleFree value dest

/-- Saving the value and loading it into the destination gives the value. -/
def LoadsInto {α : Type} (fl : FloatOps) (s : TextSettings) (a : Accessor .value α) (value : α)
    (id : SerializationId) (dest : α) : Prop :=
  ∃ file result, loadFromFile fl (fileLines fl s (a.save fl value id {}).root) {} =
      some (file, true) ∧ a.load fl dest id file = some result ∧ result.1 = value

theorem root_save {α : Type} (a : Accessor .value α) (value : α) (id : SerializationId) :
    (a.save fl value id {}).root = rootNode (a.nodes fl false value id) := by
  have hvalid : ({} : SRASerializer).Valid := rfl
  have hdefaults : ({} : SRASerializer).isNeedWriteDefaults = false := rfl
  rw [save_eq a value id hvalid hdefaults]
  rfl

/-- Loading below a node where the value was saved. -/
theorem exists_load_iff {α : Type} {a : Accessor .value α} (ha : a.Plain) {value : α}
    (hinner : a.NoInnerEmpty value) {id : SerializationId} {d : SRADeserializer} {n : SRANode}
    (hn : OnNode d n) (hcount : d.root.count < 2 ^ 32)
    (hsees : Sees n (a.nodes fl false value id) (a.lookupIds id)) (dest : α) :
    (∃ result, a.load fl dest id d = some result ∧ result.1 = value) ↔
      a.DestinationFits value dest := by
  have hhashes : DifferentHashes (a.lookupIds id) := by
    rw [lookupIds_value]
    exact differentHashes_singleton _
  have hloads : a.NoEmpty value → ((∃ result, a.load fl dest id d = some result ∧
      result.1 = value) ↔ a.StaleFree value dest) := by
    intro hempty
    have hbalanced : a.Balanced n False id := (balanced_nodes_iff ha hhashes hsees).mpr hempty
    obtain ⟨d', hload, -, -⟩ :=
      returns_load fl a dest id hn hcount False.elim hbalanced
    rw [← valueAt_nodes_iff ha dest hhashes hsees, hload]
    constructor
    · rintro ⟨result, hresult, hvalue⟩
      cases hresult
      exact hvalue
    · intro hvalue
      exact ⟨_, rfl, hvalue⟩
  cases a with
  | boolean | integer | float | double | string | array | map | set | object =>
      exact hloads hinner
  | vector a =>
      cases value with
      | cons item items => exact hloads ⟨List.cons_ne_nil _ _, hinner⟩
      | nil =>
          have hfind : findChild? id n = some (.node { id := id, type := .array } []) :=
            hsees.findChild? rfl rfl
          rcases beginArray_cases hn id with ⟨hnone, -⟩ | ⟨i, c, hc, -, hbegin⟩
          · rw [hnone] at hfind
            cases hfind
          · rw [hfind, Option.some.injEq] at hc
            subst hc
            simp [load, hbegin, DestinationFits]

theorem loadsInto_iff {α : Type} {a : Accessor .value α} (ha : a.Plain) {value : α}
    (hstrings : a.OneLineStrings value) (hinner : a.NoInnerEmpty value) {id : SerializationId}
    (hid : GoodId id) (dest : α) : LoadsInto fl s a value id dest ↔
      a.DestinationFits value dest ∧
        (fileLines fl s (a.save fl value id {}).root).length ≤ int32Max := by
  have hbuilt : ∀ m ∈ a.nodes fl false value id, Built savedShape m := fun m hm =>
    ha.built_nodes hstrings (by simpa [lookupIds_value] using hid) hm
  have hfits : ∀ {file : SRADeserializer},
      loadFromFile fl (fileLines fl s (rootNode (a.nodes fl false value id))) {} =
        some (file, true) → file.root = rootNode (a.nodes fl false value id) →
      file.walker = [] → ((∃ result, a.load fl dest id file = some result ∧ result.1 = value) ↔
        a.DestinationFits value dest) := fun hload hroot hwalker =>
    exists_load_iff ha hinner (onNode_file hroot hwalker) (count_loadFromFile_lt hload)
      (sees_node _ _ _) dest
  rw [LoadsInto, root_save]
  constructor
  · rintro ⟨file, result, hload, hresult⟩
    have hlen := length_fileLines_le hbuilt hload
    obtain ⟨file', hload', hroot, hwalker⟩ := loadFromFile_fileLines hbuilt hlen
    obtain rfl : file' = file := by simpa [hload'] using hload
    exact ⟨(hfits hload hroot hwalker).mp ⟨result, hresult⟩, hlen⟩
  · rintro ⟨hdest, hlen⟩
    obtain ⟨file, hload, hroot, hwalker⟩ := loadFromFile_fileLines hbuilt hlen
    obtain ⟨result, hresult⟩ := (hfits hload hroot hwalker).mpr hdest
    exact ⟨file, result, hload, hresult⟩

theorem goodId_key : GoodId (.create "key") := goodId_create (by decide) (by decide) (by decide)

end Accessor

end

end SRCommon
