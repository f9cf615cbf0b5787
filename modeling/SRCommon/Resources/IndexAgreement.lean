import SRCommon.Resources.ResourceIndices

/-!
# Agreement of the indices

A resource of a type is in the set of its id and in the loaded set of its path,
and nowhere else. `Add` and `Remove` keep this.
-/

namespace SRCommon

namespace ResourceIndices

section

variable {ι : Type} [DecidableEq ι] {t t' : ResourceIndices ι} {r : ι} {x : Resource}
  {resourceHash : UInt64}

theorem add_eq_self (hskip : x.resourcePath.isEmpty && x.isFileResource) :
    t.add r x resourceHash = t := if_pos hskip

/-! ## The abstract operations -/

theorem InfosFound.insertResource (h : t.InfosFound) (r : ι) (x : Resource) :
    (t.insertResource r x).InfosFound := ⟨h.path, h.made⟩

/-- The info that `Add` puts the resource into. -/
theorem add_eq_linkInfo (hskip : ¬(x.resourcePath.isEmpty && x.isFileResource)) :
    t.add r x resourceHash =
      ((t.insertResource r x).findInfo x.resourcePath resourceHash).2.linkInfo
        ((t.insertResource r x).findInfo x.resourcePath resourceHash).1 r := if_neg hskip

theorem loaded_add (h : t.InfosFound) (hskip : ¬(x.resourcePath.isEmpty && x.isFileResource)) :
    (t.add r x resourceHash).loaded = KeyedSets.add t.loaded x.resourcePath r := by
  rw [add_eq_linkInfo hskip]
  obtain ⟨hfound, hinfo, hset, hothers⟩ :=
    (h.insertResource r x).findInfo x.resourcePath resourceHash
  refine (hfound.loaded_modifyLoaded hinfo fun loaded => loaded.insert r).trans ?_
  funext path'
  rw [KeyedSets.add, Function.update_apply, Function.update_apply, hset]
  split
  · rfl
  · next hpath => exact (hothers path' hpath).2

theorem add_frame (hskip : ¬(x.resourcePath.isEmpty && x.isFileResource)) :
    (t.add r x resourceHash).resources = t.resources.insert r ∧
      (t.add r x resourceHash).copies = KeyedSets.add t.copies x.resourceId r := by
  obtain ⟨hresources, hcopies, -⟩ :=
    (t.insertResource r x).findInfo_frame x.resourcePath resourceHash
  rw [add_eq_linkInfo hskip]
  exact ⟨hresources, hcopies⟩

theorem toResourceType_add (h : t.InfosFound)
    (hskip : ¬(x.resourcePath.isEmpty && x.isFileResource)) :
    (t.add r x resourceHash).toResourceType = t.toResourceType.add r x := by
  have hframe : (t.add r x resourceHash).resources = t.resources.insert r ∧
      (t.add r x resourceHash).copies = KeyedSets.add t.copies x.resourceId r := add_frame hskip
  obtain ⟨hresources, hcopies⟩ := hframe
  rw [toResourceType, loaded_add h hskip, hresources, hcopies]
  rfl

/-- What `Remove` leaves, if the resource is in the sets of its keys. -/
structure RemovedFrom (t : ResourceIndices ι) (r : ι) (x : Resource) (group inInfo : List ι)
    (t' : ResourceIndices ι) : Prop where
  found : t'.InfosFound
  resources : t'.resources = t.resources.erase r
  copies : t'.copies = KeyedSets.erase t.copies x.resourceId group r
  loaded : t'.loaded = KeyedSets.erase t.loaded x.resourcePath inInfo r
  resourceInfo : t'.resourceInfo = t.resourceInfo
  info : ∀ path, (path = x.resourcePath → inInfo.erase r ≠ []) → t'.info path = t.info path

theorem exists_remove (h : t.InfosFound) {copies loaded : List ι}
    (hcopies : t.copies x.resourceId = some copies)
    (hloaded : t.loaded x.resourcePath = some loaded) :
    ∃ t', t.remove r x = some t' ∧ t.RemovedFrom r x copies loaded t' := by
  obtain ⟨pInfo, hinfo, rfl⟩ := Option.map_eq_some_iff.mp hloaded
  have hmodified := h.modifyLoaded pInfo fun _ => (t.infos pInfo).loaded.erase r
  have hset := h.loaded_modifyLoaded hinfo fun _ => (t.infos pInfo).loaded.erase r
  rw [remove, hcopies]
  dsimp only
  rw [hinfo]
  refine ⟨_, rfl, ?_⟩
  by_cases hempty : ((t.infos pInfo).loaded.erase r).isEmpty
  · -- the info is given up with its path
    refine ⟨⟨fun path' pInfo' hinfo' => ?_, fun path' pInfo' hinfo' => ?_⟩, rfl, rfl, ?_, rfl,
      fun path' hpath => ?_⟩
    · dsimp only at hinfo'
      rw [if_pos hempty, Function.update_apply] at hinfo'
      exact hmodified.path path' pInfo' (Option.ite_none_left_eq_some.mp hinfo').2
    · dsimp only at hinfo'
      rw [if_pos hempty, Function.update_apply] at hinfo'
      exact h.made path' pInfo' (Option.ite_none_left_eq_some.mp hinfo').2
    · funext path'
      have hold := congrFun hset path'
      rw [ResourceIndices.loaded]
      dsimp only
      rw [if_pos hempty, KeyedSets.erase, KeyedSets.keep, if_pos hempty, Function.update_apply,
        Function.update_apply]
      split
      · rfl
      · next hpath =>
        rw [Function.update_of_ne hpath] at hold
        exact hold
    · have hne : path' ≠ x.resourcePath := fun hpath' =>
        hpath hpath' (List.isEmpty_iff.mp hempty)
      dsimp only
      rw [if_pos hempty, Function.update_of_ne hne]
  · refine ⟨⟨fun path' pInfo' hinfo' => ?_, fun path' pInfo' hinfo' => ?_⟩, rfl, rfl, ?_, rfl,
      fun path' _ => ?_⟩
    · dsimp only at hinfo'
      rw [if_neg hempty] at hinfo'
      exact hmodified.path path' pInfo' hinfo'
    · dsimp only at hinfo'
      rw [if_neg hempty] at hinfo'
      exact h.made path' pInfo' hinfo'
    · have herase : KeyedSets.erase t.loaded x.resourcePath (t.infos pInfo).loaded r =
          Function.update t.loaded x.resourcePath (some ((t.infos pInfo).loaded.erase r)) := by
        rw [KeyedSets.erase, KeyedSets.keep, if_neg hempty]
      rw [herase, ← hset]
      funext path'
      rw [ResourceIndices.loaded, ResourceIndices.loaded]
      dsimp only
      rw [if_neg hempty]
      rfl
    · exact congrFun (if_neg hempty) path'

/-- `Remove` is the removal of the manager's resource type. -/
theorem toResourceType_remove (h : t.InfosFound) :
    (t.remove r x).map toResourceType = t.toResourceType.remove r x := by
  rw [ResourceType.remove]
  change _ = (t.copies x.resourceId).elim _ fun copies => (t.loaded x.resourcePath).map _
  cases hcopies : t.copies x.resourceId with
  | none =>
      rw [remove, hcopies]
      rfl
  | some copies =>
      cases hloaded : t.loaded x.resourcePath with
      | none =>
          rw [remove, hcopies]
          dsimp only
          rw [Option.map_eq_none_iff.mp hloaded]
          rfl
      | some loaded =>
          obtain ⟨t', ht', hremoved⟩ := exists_remove (r := r) h hcopies hloaded
          rw [ht', Option.map_some, toResourceType, hremoved.resources, hremoved.copies,
            hremoved.loaded]
          rfl

end

/-! ## Agreement -/

section

variable {ι : Type}

/-- The resources that are present are those in the set of their id, and those in the loaded set
of their path. -/
structure Agree (resource : ι → Resource) (t : ResourceIndices ι) : Prop where
  copies : ∀ r, r ∈ t.resources ↔ KeyedSets.Mem t.copies (resource r).resourceId r
  loaded : ∀ r, r ∈ t.resources ↔ KeyedSets.Mem t.loaded (resource r).resourcePath r
  copies_only : ∀ id r, KeyedSets.Mem t.copies id r → (resource r).resourceId = id
  loaded_only : ∀ path r, KeyedSets.Mem t.loaded path r → (resource r).resourcePath = path
  noEmpty_copies : KeyedSets.NoEmpty t.copies
  noEmpty_loaded : KeyedSets.NoEmpty t.loaded
  shared : ∀ r ∈ t.resources, ∃ pInfo, t.resourceInfo r = some pInfo ∧
    t.info (resource r).resourcePath = some pInfo
  isLast : ∀ id, t.isLast id ↔ ∀ r ∈ t.resources, ∀ r' ∈ t.resources,
    (resource r).resourceId = id → (resource r').resourceId = id → r = r'

/-- What `Add` and `Remove` rely on. -/
structure Consistent (resource : ι → Resource) (t : ResourceIndices ι) : Prop where
  found : t.InfosFound
  nodup : t.resources.Nodup
  unique_copies : KeyedSets.Unique t.copies
  mem_copies : ∀ id r, KeyedSets.Mem t.copies id r ↔
    r ∈ t.resources ∧ id = (resource r).resourceId
  noEmpty_copies : KeyedSets.NoEmpty t.copies
  unique_loaded : KeyedSets.Unique t.loaded
  mem_loaded : ∀ path r, KeyedSets.Mem t.loaded path r ↔
    r ∈ t.resources ∧ path = (resource r).resourcePath
  noEmpty_loaded : KeyedSets.NoEmpty t.loaded
  shared : ∀ r ∈ t.resources, ∃ pInfo, t.resourceInfo r = some pInfo ∧
    t.info (resource r).resourcePath = some pInfo

variable {resource : ι → Resource} {resourceHash : ι → UInt64} {t : ResourceIndices ι}

theorem Consistent.isLast_iff (h : t.Consistent resource) (id : StringAtom) :
    t.isLast id ↔ ∀ r ∈ t.resources, ∀ r' ∈ t.resources,
      (resource r).resourceId = id → (resource r').resourceId = id → r = r' := by
  rw [ResourceIndices.isLast]
  cases hcopies : t.copies id with
  | none =>
      refine iff_of_true rfl fun r hr r' _ hid _ => ?_
      obtain ⟨l, hl, -⟩ := (h.mem_copies id r).mpr ⟨hr, hid.symm⟩
      rw [hcopies] at hl
      cases hl
  | some copies =>
      have hmem : ∀ r, r ∈ copies ↔ r ∈ t.resources ∧ id = (resource r).resourceId := fun r =>
        (KeyedSets.mem_iff_of_eq hcopies).symm.trans (h.mem_copies id r)
      rw [Option.elim_some, beq_iff_eq]
      constructor
      · intro hlength r hr r' hr' hid hid'
        obtain ⟨a, rfl⟩ := List.length_eq_one_iff.mp hlength
        rw [List.mem_singleton.mp ((hmem r).mpr ⟨hr, hid.symm⟩),
          List.mem_singleton.mp ((hmem r').mpr ⟨hr', hid'.symm⟩)]
      · intro hall
        match copies, hcopies, hmem with
        | [], hcopies, _ => exact absurd hcopies (h.noEmpty_copies id)
        | [_], _, _ => rfl
        | a :: b :: l, hcopies, hmem =>
            obtain ⟨ha, hida⟩ := (hmem a).mp List.mem_cons_self
            obtain ⟨hb, hidb⟩ := (hmem b).mp (List.mem_cons_of_mem _ List.mem_cons_self)
            have hab := hall a ha b hb hida.symm hidb.symm
            have hnodup := h.unique_copies id _ hcopies
            rw [hab, List.nodup_cons] at hnodup
            exact absurd List.mem_cons_self hnodup.1

theorem Consistent.agree (h : t.Consistent resource) : t.Agree resource where
  copies r := by rw [h.mem_copies]; simp
  loaded r := by rw [h.mem_loaded]; simp
  copies_only id r hr := ((h.mem_copies id r).mp hr).2.symm
  loaded_only path r hr := ((h.mem_loaded path r).mp hr).2.symm
  noEmpty_copies := h.noEmpty_copies
  noEmpty_loaded := h.noEmpty_loaded
  shared := h.shared
  isLast := h.isLast_iff

theorem consistent_empty : Consistent resource ({} : ResourceIndices ι) where
  found := ⟨fun _ _ h => (by cases h), fun _ _ h => (by cases h)⟩
  nodup := List.nodup_nil
  unique_copies := KeyedSets.unique_none
  mem_copies _ _ := iff_of_false KeyedSets.not_mem_none fun h => List.not_mem_nil h.1
  noEmpty_copies := KeyedSets.noEmpty_none
  unique_loaded := KeyedSets.unique_none
  mem_loaded _ _ := iff_of_false KeyedSets.not_mem_none fun h => List.not_mem_nil h.1
  noEmpty_loaded := KeyedSets.noEmpty_none
  shared _ hr := absurd hr List.not_mem_nil

variable [DecidableEq ι]

theorem mem_insert_key_iff {resources : List ι} {r r' : ι} (key : ι → StringAtom) {k : StringAtom} :
    (r' ∈ resources ∧ k = key r' ∨ k = key r ∧ r' = r) ↔
      r' ∈ resources.insert r ∧ k = key r' := by
  rw [List.mem_insert_iff]
  constructor
  · rintro (⟨hr, hk⟩ | ⟨hk, rfl⟩)
    · exact ⟨Or.inr hr, hk⟩
    · exact ⟨Or.inl rfl, hk⟩
  · rintro ⟨rfl | hr, hk⟩
    · exact Or.inr ⟨hk, rfl⟩
    · exact Or.inl ⟨hr, hk⟩

theorem Consistent.add (h : t.Consistent resource) (r : ι) :
    (t.add r (resource r) (resourceHash r)).Consistent resource := by
  by_cases hskip : (resource r).resourcePath.isEmpty && (resource r).isFileResource
  · rw [add_eq_self hskip]
    exact h
  · have hframe : (t.add r (resource r) (resourceHash r)).resources = t.resources.insert r ∧
        (t.add r (resource r) (resourceHash r)).copies =
          KeyedSets.add t.copies (resource r).resourceId r := add_frame hskip
    obtain ⟨hresources, hcopies⟩ := hframe
    have hloaded : (t.add r (resource r) (resourceHash r)).loaded =
        KeyedSets.add t.loaded (resource r).resourcePath r := loaded_add h.found hskip
    have hstart := h.found.insertResource r (resource r)
    obtain ⟨hfound, hinfo, -, -⟩ :=
      hstart.findInfo (resource r).resourcePath (resourceHash r)
    refine ⟨?_, ?_, ?_, fun id r' => ?_, ?_, ?_, fun path r' => ?_, ?_, fun r' hr' => ?_⟩
    · rw [add_eq_linkInfo hskip]
      have hmodified := hfound.modifyLoaded
        ((t.insertResource r (resource r)).findInfo (resource r).resourcePath (resourceHash r)).1
        fun loaded => loaded.insert r
      exact ⟨hmodified.path, hmodified.made⟩
    · rw [hresources]
      exact h.nodup.insert
    · rw [hcopies]
      exact h.unique_copies.add
    · rw [hcopies, KeyedSets.mem_add, h.mem_copies, hresources]
      exact mem_insert_key_iff fun r => (resource r).resourceId
    · rw [hcopies]
      exact h.noEmpty_copies.add
    · rw [hloaded]
      exact h.unique_loaded.add
    · rw [hloaded, KeyedSets.mem_add, h.mem_loaded, hresources]
      exact mem_insert_key_iff fun r => (resource r).resourcePath
    · rw [hloaded]
      exact h.noEmpty_loaded.add
    · rw [hresources, List.mem_insert_iff] at hr'
      rw [add_eq_linkInfo hskip]
      rcases eq_or_ne r' r with rfl | hne
      · exact ⟨_, Function.update_self .., hinfo⟩
      · obtain ⟨pInfo, hpointer, hold⟩ := h.shared r' (hr'.resolve_left hne)
        refine ⟨pInfo, ?_, hstart.info_findInfo_of_some hold⟩
        refine (Function.update_of_ne hne ..).trans ?_
        rw [((t.insertResource r (resource r)).findInfo_frame _ _).2.2]
        exact hpointer

theorem mem_erase_key_iff {resources : List ι} (hnodup : resources.Nodup) {r r' : ι}
    (key : ι → StringAtom) {k : StringAtom} :
    ((r' ∈ resources ∧ k = key r') ∧ ¬(k = key r ∧ r' = r)) ↔
      r' ∈ resources.erase r ∧ k = key r' := by
  rw [hnodup.mem_erase_iff]
  constructor
  · rintro ⟨⟨hr, hk⟩, hne⟩
    exact ⟨⟨fun heq => hne ⟨by rw [hk, heq], heq⟩, hr⟩, hk⟩
  · rintro ⟨⟨hne, hr⟩, hk⟩
    exact ⟨⟨hr, hk⟩, fun heq => hne heq.2⟩

theorem Consistent.remove (h : t.Consistent resource) {r : ι} (hr : r ∈ t.resources) :
    ∃ t', t.remove r (resource r) = some t' ∧ t'.Consistent resource := by
  obtain ⟨copies, hcopies, -⟩ := (h.mem_copies _ r).mpr ⟨hr, rfl⟩
  obtain ⟨loaded, hloaded, -⟩ := (h.mem_loaded _ r).mpr ⟨hr, rfl⟩
  obtain ⟨t', ht', hremoved⟩ := exists_remove (r := r) h.found hcopies hloaded
  refine ⟨t', ht', hremoved.found, ?_, ?_, fun id r' => ?_, ?_, ?_, fun path r' => ?_, ?_,
    fun r' hr' => ?_⟩
  · rw [hremoved.resources]
    exact h.nodup.erase r
  · rw [hremoved.copies]
    exact h.unique_copies.erase hcopies
  · rw [hremoved.copies, KeyedSets.mem_erase h.unique_copies hcopies, h.mem_copies,
      hremoved.resources]
    exact mem_erase_key_iff h.nodup fun r => (resource r).resourceId
  · rw [hremoved.copies]
    exact h.noEmpty_copies.erase
  · rw [hremoved.loaded]
    exact h.unique_loaded.erase hloaded
  · rw [hremoved.loaded, KeyedSets.mem_erase h.unique_loaded hloaded, h.mem_loaded,
      hremoved.resources]
    exact mem_erase_key_iff h.nodup fun r => (resource r).resourcePath
  · rw [hremoved.loaded]
    exact h.noEmpty_loaded.erase
  · rw [hremoved.resources, h.nodup.mem_erase_iff] at hr'
    obtain ⟨hne, hr'⟩ := hr'
    obtain ⟨pInfo, hpointer, hold⟩ := h.shared r' hr'
    refine ⟨pInfo, by rw [hremoved.resourceInfo, hpointer], ?_⟩
    rw [hremoved.info _ fun hpath hnil => ?_, hold]
    -- another resource of the path is still loaded
    have hmem := (h.mem_loaded _ r').mpr ⟨hr', hpath.symm⟩
    rw [KeyedSets.mem_iff_of_eq hloaded] at hmem
    have hstays := (List.mem_erase_of_ne hne).mpr hmem
    rw [hnil] at hstays
    cases hstays

/-- Resources are added that are not present, and those that are present removed. -/
def Proper (t : ResourceIndices ι) : ResourceTypeCall ι → Prop
  | .add pResource => pResource ∉ t.resources
  | .remove pResource => pResource ∈ t.resources

theorem consistent_step (h : t.Consistent resource) {call : ResourceTypeCall ι}
    (hcall : t.Proper call) :
    ∃ q, step resource resourceHash t call = some q ∧ q.1.Consistent resource := by
  cases call with
  | add pResource => exact ⟨_, rfl, h.add pResource⟩
  | remove pResource =>
      obtain ⟨t', ht', hconsistent⟩ := h.remove hcall
      exact ⟨(t', ()), by rw [step, ht', Option.map_some], hconsistent⟩

/-- The indices agree after every call. -/
theorem agree_of_proper {calls : List (ResourceTypeCall ι)}
    (hcalls : Steps.Along (step resource resourceHash) Proper {} calls) :
    Steps.Always (step resource resourceHash) (fun _ _ t => t.Agree resource) {} calls := by
  refine hcalls.always (I := Consistent resource) (fun t call h hcall => ?_) consistent_empty
  obtain ⟨q, hq, hconsistent⟩ := consistent_step h hcall
  exact ⟨q, hq, hconsistent.agree, hconsistent⟩

/-- Two resources of one path and one id. -/
def twins (_ : Bool) : Resource where
  resourceHashName := 7
  resourceId := [97]
  resourcePath := [98]

theorem agree_of_proper_twins :
    Steps.Always (step twins fun _ => 0) (fun _ _ t => t.Agree twins) {}
      [.add true, .add false, .remove true] := by
  refine agree_of_proper ⟨List.not_mem_nil, fun q hq => ?_⟩
  obtain rfl := Option.some.inj hq
  have hfalse : false ∉ [true] := by decide
  refine ⟨hfalse, fun q hq => ?_⟩
  obtain rfl := Option.some.inj hq
  have htrue : true ∈ [false, true] := by decide
  exact ⟨htrue, fun _ _ => trivial⟩

end

end ResourceIndices

end SRCommon
