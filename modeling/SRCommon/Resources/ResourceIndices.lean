import SRCommon.Lib.PartialRun
import SRCommon.Resources.ResourceManager

/-!
# Indices of a resource type

`ResourceType` with its infos as objects that resources point to. Forgetting
which object an info is gives the resource type of the manager.
-/

namespace SRCommon

structure ResourceInfo (ι : Type) where
  resourceHash : UInt64 := 0
  path : StringAtom := []
  loaded : List ι := []

/-- The infos are numbered in the order in which they were made. `resourceInfo` is the
`m_resourceInfo` of each resource. -/
structure ResourceIndices (ι : Type) where
  resources : List ι := []
  copies : StringAtom → Option (List ι) := fun _ => none
  info : StringAtom → Option ℕ := fun _ => none
  infos : ℕ → ResourceInfo ι := fun _ => {}
  made : ℕ := 0
  resourceInfo : ι → Option ℕ := fun _ => none

inductive ResourceTypeCall (ι : Type) where
  | add (pResource : ι)
  | remove (pResource : ι)

namespace ResourceIndices

section

variable {ι : Type} [DecidableEq ι] (t : ResourceIndices ι)

def isLast (id : StringAtom) : Bool := (t.copies id).elim true fun copies => copies.length == 1

def makeInfo (path : StringAtom) (resourceHash : UInt64) : ResourceIndices ι :=
  { t with
    info := Function.update t.info path (some t.made)
    infos := Function.update t.infos t.made { resourceHash, path }
    made := t.made + 1 }

/-- The info of a path, which is made if it is missing. -/
def findInfo (path : StringAtom) (resourceHash : UInt64) : ℕ × ResourceIndices ι :=
  match t.info path with
  | some pInfo => (pInfo, t)
  | none => (t.made, t.makeInfo path resourceHash)

def modifyLoaded (pInfo : ℕ) (f : List ι → List ι) : ResourceIndices ι :=
  { t with
    infos := Function.update t.infos pInfo
      { t.infos pInfo with loaded := f (t.infos pInfo).loaded } }

def insertResource (pResource : ι) (resource : Resource) : ResourceIndices ι :=
  { t with
    copies := KeyedSets.add t.copies resource.resourceId pResource
    resources := t.resources.insert pResource }

def linkInfo (pInfo : ℕ) (pResource : ι) : ResourceIndices ι :=
  { t.modifyLoaded pInfo fun loaded => loaded.insert pResource with
    resourceInfo := Function.update t.resourceInfo pResource (some pInfo) }

def add (pResource : ι) (resource : Resource) (resourceHash : UInt64) : ResourceIndices ι :=
  if resource.resourcePath.isEmpty && resource.isFileResource then t
  else
    let found := (t.insertResource pResource resource).findInfo resource.resourcePath resourceHash
    found.2.linkInfo found.1 pResource

/-- `m_info.at` throws for a path that is missing. -/
def remove (pResource : ι) (resource : Resource) : Option (ResourceIndices ι) :=
  match t.copies resource.resourceId with
  | none => some t
  | some copies => do
      let pInfo ← t.info resource.resourcePath
      let loaded := (t.infos pInfo).loaded.erase pResource
      some { t.modifyLoaded pInfo fun _ => loaded with
        copies := KeyedSets.erase t.copies resource.resourceId copies pResource
        info := if loaded.isEmpty then Function.update t.info resource.resourcePath none else t.info
        resources := t.resources.erase pResource }

/-- The id and the path of a resource are set once. -/
def step (resource : ι → Resource) (resourceHash : ι → UInt64) (t : ResourceIndices ι) :
    ResourceTypeCall ι → Option (ResourceIndices ι × Unit)
  | .add pResource => some (t.add pResource (resource pResource) (resourceHash pResource), ())
  | .remove pResource => (t.remove pResource (resource pResource)).map fun t => (t, ())

end

section

variable {ι : Type} (t : ResourceIndices ι)

/-- `m_loaded` of the info of a path. -/
def loaded (path : StringAtom) : Option (List ι) :=
  (t.info path).map fun pInfo => (t.infos pInfo).loaded

def toResourceType : ResourceType ι where
  resources := t.resources
  copies := t.copies
  info := t.loaded

/-! ## The infos as sets under their paths -/

/-- Infos are found under the path that they have. -/
structure InfosFound : Prop where
  path : ∀ path pInfo, t.info path = some pInfo → (t.infos pInfo).path = path
  made : ∀ path pInfo, t.info path = some pInfo → pInfo < t.made

theorem info_makeInfo (path : StringAtom) (resourceHash : UInt64) (path' : StringAtom) :
    (t.makeInfo path resourceHash).info path' =
      if path' = path then some t.made else t.info path' :=
  Function.update_apply ..

theorem infos_makeInfo (path : StringAtom) (resourceHash : UInt64) (pInfo : ℕ) :
    (t.makeInfo path resourceHash).infos pInfo =
      if pInfo = t.made then { resourceHash, path } else t.infos pInfo :=
  Function.update_apply ..

theorem infos_modifyLoaded (pInfo : ℕ) (f : List ι → List ι) (pInfo' : ℕ) :
    (t.modifyLoaded pInfo f).infos pInfo' =
      if pInfo' = pInfo then { t.infos pInfo with loaded := f (t.infos pInfo).loaded }
      else t.infos pInfo' :=
  Function.update_apply ..

variable {t}

theorem InfosFound.makeInfo (h : t.InfosFound) (path : StringAtom) (resourceHash : UInt64) :
    (t.makeInfo path resourceHash).InfosFound where
  path path' pInfo hinfo := by
    rw [info_makeInfo] at hinfo
    rw [infos_makeInfo]
    split at hinfo
    · next hpath =>
      obtain rfl := Option.some.inj hinfo
      rw [if_pos rfl, hpath]
    · rw [if_neg (h.made path' pInfo hinfo).ne]
      exact h.path path' pInfo hinfo
  made path' pInfo hinfo := by
    rw [info_makeInfo] at hinfo
    split at hinfo
    · obtain rfl := Option.some.inj hinfo
      exact Nat.lt_succ_self _
    · exact (h.made path' pInfo hinfo).trans (Nat.lt_succ_self _)

theorem InfosFound.modifyLoaded (h : t.InfosFound) (pInfo : ℕ) (f : List ι → List ι) :
    (t.modifyLoaded pInfo f).InfosFound where
  path path' pInfo' hinfo := by
    have hpath := h.path path' pInfo' hinfo
    rw [infos_modifyLoaded]
    split
    · next hsame => rw [← hpath, hsame]
    · exact hpath
  made := h.made

/-- What `Add` finds or makes. -/
theorem InfosFound.findInfo (h : t.InfosFound) (path : StringAtom) (resourceHash : UInt64) :
    (t.findInfo path resourceHash).2.InfosFound ∧
      (t.findInfo path resourceHash).2.info path = some (t.findInfo path resourceHash).1 ∧
      ((t.findInfo path resourceHash).2.infos (t.findInfo path resourceHash).1).loaded =
        (t.loaded path).getD [] ∧
      ∀ path' ≠ path, (t.findInfo path resourceHash).2.info path' = t.info path' ∧
        (t.findInfo path resourceHash).2.loaded path' = t.loaded path' := by
  rw [ResourceIndices.findInfo, loaded]
  cases hinfo : t.info path with
  | some pInfo => exact ⟨h, hinfo, rfl, fun _ _ => ⟨rfl, rfl⟩⟩
  | none =>
      refine ⟨h.makeInfo path resourceHash, ?_, ?_, fun path' hpath => ⟨?_, ?_⟩⟩
      · rw [info_makeInfo, if_pos rfl]
      · rw [infos_makeInfo, if_pos rfl]
        rfl
      · rw [info_makeInfo, if_neg hpath]
      · rw [loaded, loaded, info_makeInfo, if_neg hpath]
        cases hold : t.info path' with
        | none => rfl
        | some pInfo =>
            rw [Option.map_some, infos_makeInfo, if_neg (h.made path' pInfo hold).ne]
            rfl

theorem InfosFound.info_findInfo_of_some {path path' : StringAtom} {resourceHash : UInt64}
    {pInfo : ℕ} (h : t.InfosFound) (hinfo : t.info path' = some pInfo) :
    (t.findInfo path resourceHash).2.info path' = some pInfo := by
  rcases eq_or_ne path' path with rfl | hpath
  · rw [ResourceIndices.findInfo, hinfo]
    exact hinfo
  · exact ((h.findInfo path resourceHash).2.2.2 path' hpath).1.trans hinfo

theorem findInfo_frame (path : StringAtom) (resourceHash : UInt64) :
    (t.findInfo path resourceHash).2.resources = t.resources ∧
      (t.findInfo path resourceHash).2.copies = t.copies ∧
      (t.findInfo path resourceHash).2.resourceInfo = t.resourceInfo := by
  rw [ResourceIndices.findInfo]
  split
  · exact ⟨rfl, rfl, rfl⟩
  · exact ⟨rfl, rfl, rfl⟩

/-- A change of the set of one path. -/
theorem InfosFound.loaded_modifyLoaded (h : t.InfosFound) {path : StringAtom} {pInfo : ℕ}
    (hinfo : t.info path = some pInfo) (f : List ι → List ι) :
    (t.modifyLoaded pInfo f).loaded =
      Function.update t.loaded path (some (f (t.infos pInfo).loaded)) := by
  funext path'
  rw [Function.update_apply, loaded]
  change (t.info path').map _ = _
  split
  · next hpath =>
    rw [hpath, hinfo, Option.map_some, infos_modifyLoaded, if_pos rfl]
  · next hpath =>
    rw [loaded]
    cases hold : t.info path' with
    | none => rfl
    | some pInfo' =>
        have hne : pInfo' ≠ pInfo := by
          rintro rfl
          exact hpath ((h.path path' pInfo' hold).symm.trans (h.path path pInfo' hinfo))
        rw [Option.map_some, infos_modifyLoaded, if_neg hne]
        rfl

end

end ResourceIndices

end SRCommon
