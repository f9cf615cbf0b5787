import SRCommon.TypeTraits.PropertyLoading

/-!
# Properties survive saving

What the properties of one tree should make of those of another one with the
same names, and what saving and loading makes of them. External properties are
not restored, and integers of 8 and 64 bits break the loading.
-/

namespace SRCommon

open LittleEndian MarshalUtils

/-- `SaveProperty` and `LoadProperty` have a case for the type. -/
def StandardPropertyType.isSupported : StandardPropertyType → Bool
  | int8 | uint8 | int64 | uint64 => false
  | _ => true

theorem StandardValue.isSome_bytes (value : StandardValue) :
    value.bytes.isSome = value.type.isSupported := by
  cases value <;> rfl

theorem StandardPropertyType.fromString_toStringAtom (type : StandardPropertyType) :
    fromString type.toStringAtom = some type := by
  cases type <;> decide

/-- What is saved comes to a property that may be loaded. -/
def PropertyBase.passes (base base' : PropertyBase) : Bool := base.isSaved && !base'.dontSave

namespace Property

mutual

/-- What the loading side should be after the saved property has been restored to it. -/
def restored : Property → Property → Property
  | standard base value, standard base' value' =>
      if base.passes base' ∧ value.type = value'.type then standard base' value
      else standard base' value'
  | path base value, path base' value' =>
      if base.passes base' then path base' value else path base' value'
  | enum base value, enum base' value' =>
      if base.passes base' then enum base' value else enum base' value'
  | external base (some p), external base' (some q) =>
      if base.passes base' then external base' (some (restored p q)) else external base' (some q)
  | container base properties, container base' properties' =>
      if base.passes base' then container base' (properties'.map (restoredBy properties))
      else container base' properties'
  | _, q => q

/-- The saved property of the same name is restored. -/
def restoredBy : List Property → Property → Property
  | [], q => q
  | p :: properties, q =>
      if p.isSaved ∧ q.name = p.name then restored p q else restoredBy properties q

end

def children : Property → List Property
  | container _ properties => properties
  | _ => []

def withChildren : Property → List Property → Property
  | container base _, properties => container base properties
  | q, _ => q

mutual

/-- What is met under one name is of a supported type, and no external property is to change. -/
def Recovers : Property → Property → Prop
  | standard base value, q =>
      q.base.dontSave = true ∨ base.isSaved = true ∧ value.type.isSupported = true
  | path base _, q => q.base.dontSave = true ∨ base.isSaved = true
  | enum base _, q => q.base.dontSave = true ∨ base.isSaved = true
  | external base property, q =>
      q.base.dontSave = true ∨ base.isSaved = true ∧ restored (external base property) q = q
  | container base properties, q =>
      q.base.dontSave = true ∨
        base.isSaved = true ∧ ∀ q' ∈ q.children, RecoversBy properties q'

def RecoversBy : List Property → Property → Prop
  | [], _ => True
  | p :: properties, q =>
      if p.isSaved ∧ q.name = p.name then Recovers p q else RecoversBy properties q

end

def loadedStandard (value : StandardValue) : Property → Property
  | standard base value' => if value.type = value'.type then standard base value
      else standard base value'
  | q => q

def loadedPath (value : Path) : Property → Property
  | path base _ => path base value
  | q => q

def loadedEnum (value : StringAtom) : Property → Property
  | enum base _ => enum base value
  | q => q

/-- Where something is saved and loaded, the rest decides. -/
def taken (base : PropertyBase) (q : Property) (r : Option Property) : Option Property :=
  if q.base.dontSave then some q else if base.isSaved then r else none

mutual

/-- What the code makes of the loading side. -/
def loaded : Property → Property → Option Property
  | standard base value, q =>
      taken base q (if value.type.isSupported then some (loadedStandard value q) else none)
  | path base value, q => taken base q (some (loadedPath value q))
  | enum base value, q => taken base q (some (loadedEnum value q))
  | external base _, q => taken base q (some q)
  | container base properties, q =>
      taken base q ((q.children.mapM (loadedBy properties)).map q.withChildren)

def loadedBy : List Property → Property → Option Property
  | [], q => some q
  | p :: properties, q =>
      if p.isSaved ∧ q.name = p.name then loaded p q else loadedBy properties q

end

mutual

/-- The names in one container are pairwise different. -/
def NamesDistinct : Property → Prop
  | external _ (some p) => NamesDistinct p
  | container _ properties => (properties.map name).Nodup ∧ NamesDistinctAll properties
  | _ => True

def NamesDistinctAll : List Property → Prop
  | [] => True
  | p :: properties => NamesDistinct p ∧ NamesDistinctAll properties

end

mutual

def depth : Property → ℕ
  | external _ (some p) => depth p + 1
  | container _ properties => depthAll properties + 1
  | _ => 1

def depthAll : List Property → ℕ
  | [] => 0
  | p :: properties => max (depth p) (depthAll properties)

end

/-- Loading what has been saved restores the properties. -/
def Restores (p q : Property) : Prop :=
  ∃ marshal, p.saveProperty Stream.empty = some marshal ∧ ∀ fuel, q.depth ≤ fuel →
    (q.loadProperty fuel (marshal.setPosition 0)).map Prod.fst = some (p.restored q)

/-! ## What the code makes of the loading side is what it should be -/

variable {base base' : PropertyBase} {p q q' x : Property} {properties properties' : List Property}

theorem restored_of_dontSave (h : q.base.dontSave = true) : restored p q = q := by
  have hpasses : ∀ base : PropertyBase, ¬base.passes q.base = true := fun base hpasses => by
    rw [PropertyBase.passes, h, Bool.not_true, Bool.and_false] at hpasses
    cases hpasses
  cases p with
  | standard base value =>
      cases q with
      | standard base' value' =>
          rw [restored]
          exact if_neg fun hboth => hpasses base hboth.1
      | _ => rfl
  | path base value =>
      cases q with
      | path base' value' => exact if_neg (hpasses base)
      | _ => rfl
  | enum base value =>
      cases q with
      | enum base' value' => exact if_neg (hpasses base)
      | _ => rfl
  | external base property =>
      cases q with
      | external base' property' =>
          cases property with
          | none => rfl
          | some p =>
              cases property' with
              | none => rfl
              | some q => exact if_neg (hpasses base)
      | _ => cases property <;> rfl
  | container base properties =>
      cases q with
      | container base' properties' => exact if_neg (hpasses base)
      | _ => rfl

theorem taken_iff {r : Option Property} {P : Prop} (hkept : q.base.dontSave = true → x = q)
    (h : base.passes q.base = true → (r = some x ↔ P)) :
    taken base q r = some x ↔ q.base.dontSave = true ∨ base.isSaved = true ∧ P := by
  rw [taken]
  cases hdont : q.base.dontSave with
  | true =>
      rw [if_pos rfl, hkept hdont]
      simp
  | false =>
      rw [if_neg Bool.false_ne_true]
      cases hsaved : base.isSaved with
      | true =>
          rw [if_pos rfl, h (by rw [PropertyBase.passes, hsaved, hdont]; rfl)]
          simp
      | false => simp

theorem loadedBy_eq_iff (h : ∀ p ∈ properties, ∀ q, p.loaded q = some (p.restored q) ↔ p.Recovers q)
    (q : Property) :
    loadedBy properties q = some (restoredBy properties q) ↔ RecoversBy properties q := by
  induction properties with
  | nil => simp [loadedBy, restoredBy, RecoversBy]
  | cons p properties ih =>
      obtain ⟨hp, hproperties⟩ := List.forall_mem_cons.mp h
      rw [loadedBy, restoredBy, RecoversBy]
      split
      · exact hp q
      · exact ih hproperties

theorem loaded_eq_iff (p q : Property) : p.loaded q = some (p.restored q) ↔ p.Recovers q := by
  induction p using induct generalizing q with
  | hstandard base value =>
      rw [loaded, Recovers]
      refine taken_iff restored_of_dontSave fun hpasses => ?_
      have hrestored : restored (standard base value) q = loadedStandard value q := by
        cases q with
        | standard base' value' =>
            rw [restored, loadedStandard]
            simp only [show base.passes base' = true from hpasses, true_and]
        | _ => rfl
      rw [hrestored]
      cases value.type.isSupported <;> simp
  | hpath base value =>
      rw [loaded, Recovers, ← and_true (base.isSaved = true)]
      refine taken_iff restored_of_dontSave fun hpasses => iff_true_intro ?_
      cases q with
      | path base' value' => exact congrArg some (if_pos hpasses).symm
      | _ => rfl
  | henum base value =>
      rw [loaded, Recovers, ← and_true (base.isSaved = true)]
      refine taken_iff restored_of_dontSave fun hpasses => iff_true_intro ?_
      cases q with
      | enum base' value' => exact congrArg some (if_pos hpasses).symm
      | _ => rfl
  | hexternal base property =>
      rw [loaded, Recovers]
      refine taken_iff restored_of_dontSave fun _ => ?_
      rw [Option.some_inj]
      exact eq_comm
  | hcontainer base properties ih =>
      rw [loaded, Recovers]
      refine taken_iff restored_of_dontSave fun hpasses => ?_
      have hby := loadedBy_eq_iff ih
      cases q with
      | container base' properties' =>
          have hrestored : restored (container base properties) (container base' properties') =
              container base' (properties'.map (restoredBy properties)) := if_pos hpasses
          rw [hrestored, ← forall₂_congr fun q' _ => hby q', ← KeyedUpdate.mapM_eq_some_map_iff,
            Option.map_eq_some_iff]
          refine ⟨fun ⟨_, hloaded, heq⟩ => ?_, fun hloaded => ⟨_, hloaded, rfl⟩⟩
          cases heq
          exact hloaded
      | _ => exact iff_of_true rfl fun _ h => by cases h

/-! ## The code -/

theorem base_restoredValue (value : StandardValue) (q : Property) :
    (loadedStandard value q).base = q.base := by
  cases q <;> simp only [loadedStandard]
  split <;> rfl

/-- Loading leaves the name and the marks of a property. -/
theorem base_of_loaded (h : p.loaded q = some q') : q'.base = q.base := by
  have htaken : ∀ {base : PropertyBase} {r : Option Property},
      (∀ x, r = some x → x.base = q.base) → taken base q r = some q' → q'.base = q.base := by
    intro base r hr htaken
    rw [taken] at htaken
    split at htaken
    · cases htaken
      rfl
    split at htaken
    · exact hr q' htaken
    · cases htaken
  cases p with
  | standard base value =>
      rw [loaded] at h
      refine htaken (fun x hx => ?_) h
      split at hx
      · cases hx
        exact base_restoredValue value q
      · cases hx
  | path base value =>
      rw [loaded] at h
      refine htaken (fun x hx => ?_) h
      cases hx
      cases q <;> rfl
  | enum base value =>
      rw [loaded] at h
      refine htaken (fun x hx => ?_) h
      cases hx
      cases q <;> rfl
  | external base property =>
      rw [loaded] at h
      refine htaken (fun x hx => ?_) h
      cases hx
      rfl
  | container base properties =>
      rw [loaded] at h
      refine htaken (fun x hx => ?_) h
      obtain ⟨ys, -, rfl⟩ := Option.map_eq_some_iff.mp hx
      cases q <;> rfl

theorem loadedBy_of_notMem (h : q.name ∉ properties.map name) : loadedBy properties q = some q := by
  induction properties with
  | nil => rfl
  | cons p properties ih =>
      rw [List.map_cons, List.mem_cons, not_or] at h
      rw [loadedBy, if_neg fun hboth => h.1 hboth.2, ih h.2]

/-- The upper byte of the length of the type name. -/
theorem getElem?_bytes {typeName : StringAtom} (h : typeName.length < 256) (block : List UInt8) :
    (PropertyBase.bytes typeName block)[3]? = some 0 := by
  change some (UInt8.ofNat (typeName.length / 256)) = some 0
  rw [Nat.div_eq_of_lt h]
  rfl

/-- A type name has a letter where the bytes of a property have a zero. -/
theorem take_saved_ne (p q : Property) (hsize : p.saved.length < 2 ^ 24) (n : ℕ) :
    p.saved.take n ≠ q.typeName := by
  have htype : ∃ c, q.typeName[3]? = some c ∧ c ≠ 0 := by
    cases q <;> exact ⟨_, rfl, by decide⟩
  have hfourth : ∀ c, p.saved[3]? = some c → c = 0 := fun c hc => by
    by_cases hsaved : p.isSaved = true
    · cases p with
      | standard base value =>
          have hbase : base.isSaved = true := hsaved
          rw [saved, if_pos hbase] at hc
          cases hvalue : value.bytes with
          | none =>
              rw [hvalue] at hc
              cases hc
          | some bytes =>
              rw [hvalue, Option.elim_some, getElem?_bytes (by decide)] at hc
              exact (Option.some.inj hc).symm
      | path base value =>
          have hbase : base.isSaved = true := hsaved
          rw [saved, if_pos hbase, getElem?_bytes (by decide)] at hc
          exact (Option.some.inj hc).symm
      | enum base value =>
          have hbase : base.isSaved = true := hsaved
          rw [saved, if_pos hbase, getElem?_bytes (by decide)] at hc
          exact (Option.some.inj hc).symm
      | external base property =>
          have hbase : base.isSaved = true := hsaved
          rw [saved_external, if_pos hbase] at hc hsize
          simp only [List.length_append] at hsize
          change some (UInt8.ofNat ((externalBytes property).length / 256 / 256 / 256)) =
            some c at hc
          rw [Nat.div_div_eq_div_mul, Nat.div_div_eq_div_mul, Nat.div_eq_of_lt (by omega)] at hc
          exact (Option.some.inj hc).symm
      | container base properties =>
          have hbase : base.isSaved = true := hsaved
          rw [saved, if_pos hbase, getElem?_bytes (by decide)] at hc
          exact (Option.some.inj hc).symm
    · rw [saved_of_unsaved hsaved] at hc
      cases hc
  intro heq
  obtain ⟨c, hc, hne⟩ := htype
  rw [← heq, List.getElem?_take] at hc
  split at hc
  · exact hne (hfourth c hc)
  · cases hc

/-- The loop over the blocks does what each of them does to the property of its name. -/
theorem loadProperties_eq {fuel : ℕ} {pBlock : Marshal}
    (hload : ∀ p ∈ properties, p.isSaved = true → ∀ q ∈ properties', q.name = p.name →
      ∀ chunk : Marshal, Stream.Shows chunk (.ofBytes p.saved) →
        (q.loadProperty fuel chunk).map Prod.fst = p.loaded q)
    (hshort : ShortAll properties) (hsize : (savedAll properties).length < 2 ^ 32)
    (hnames : (properties.map name).Nodup) (hnames' : (properties'.map name).Nodup)
    (h : Stream.Ahead pBlock (savedAll properties)) :
    loadProperties (loadProperty fuel) (properties.countP isSaved) pBlock properties' =
      properties'.mapM (loadedBy properties) := by
  induction properties generalizing pBlock properties' with
  | nil =>
      have hpass := KeyedUpdate.mapM_eq_some_map_iff (loadedBy []) id properties'
      rw [List.map_id] at hpass
      exact (hpass.mpr fun _ _ => rfl).symm
  | cons p properties ih =>
      obtain ⟨hp, hproperties⟩ := List.forall_mem_cons.mp hload
      obtain ⟨⟨hname, -⟩, hshort⟩ := hshort
      obtain ⟨hnotMem, hnames⟩ := List.nodup_cons.mp hnames
      rw [savedAll] at hsize h
      by_cases hsaved : p.isSaved = true
      · rw [if_pos hsaved] at hsize h
        simp only [List.length_append, length_toBytes, length_stringBytes] at hsize
        have hcount : (UInt64.ofNat p.saved.length).toNat = p.saved.length :=
          UInt64.toNat_ofNat_of_lt' (lt_trans (b := 2 ^ 32) (by omega) (by decide))
        obtain ⟨s₁, hs₁, h₁⟩ := Marshal.readString_eq h (hname.trans (by decide))
        obtain ⟨s₂, hs₂, h₂⟩ := Marshal.readNumber_eq .unsignedInt 4 p.saved.length h₁ rfl rfl
          (show _ < 2 ^ 32 by omega)
        obtain ⟨chunk, s₃, hs₃, hshows, h₃⟩ := Marshal.readBytes_eq h₂ hcount
        have hupdate : KeyedUpdate.update name p.name
            (fun q => (q.loadProperty fuel chunk).map Prod.fst) properties' =
            KeyedUpdate.update name p.name p.loaded properties' :=
          KeyedUpdate.update_congr fun q hq heq => hp hsaved q hq heq chunk hshows
        have hkey : ∀ q q', p.loaded q = some q' → name q' = name q := fun q q' hq =>
          congrArg PropertyBase.name (base_of_loaded hq)
        have hrest : ∀ rest, KeyedUpdate.update name p.name p.loaded properties' = some rest →
            loadProperties (loadProperty fuel) (properties.countP isSaved) s₃ rest =
              rest.mapM (loadedBy properties) := fun rest hrest => by
          refine ih (fun r hr hrsaved q hq heq => ?_) hshort (by omega) hnames ?_ h₃
          · refine hproperties r hr hrsaved q ?_ heq
            refine KeyedUpdate.mem_of_mem_update hkey hrest hq fun hpq => hnotMem ?_
            rw [← hpq, heq]
            exact List.mem_map_of_mem hr
          · rwa [KeyedUpdate.map_key_update hkey hrest]
        rw [List.countP_cons_of_pos hsaved, loadProperties, hs₁]
        simp only [Option.bind_eq_bind, Option.bind_some]
        rw [hs₂, Option.bind_some, hs₃, Option.bind_some, hupdate]
        have hpass := KeyedUpdate.update_bind_mapM (g := loadedBy properties) hnames' hkey
          fun q hq => loadedBy_of_notMem (hq ▸ hnotMem)
        refine (Option.bind_congr hrest).trans (hpass.trans ?_)
        refine KeyedUpdate.mapM_congr fun q _ => ?_
        rw [loadedBy]
        simp only [hsaved, true_and]
      · rw [if_neg hsaved] at hsize h
        rw [List.countP_cons_of_neg hsaved, ih hproperties hshort hsize hnames hnames' h]
        refine KeyedUpdate.mapM_congr fun q _ => ?_
        rw [loadedBy, if_neg fun hboth => hsaved hboth.1]

section

variable {fuel : ℕ} {marshal : Marshal} {bytes block : List UInt8}

theorem loadProperty_nil (hq : q.base.dontSave = false) (h : Stream.Shows marshal (.ofBytes [])) :
    q.loadProperty fuel marshal = none := by
  cases fuel with
  | zero => rfl
  | succ fuel =>
      rw [loadProperty, PropertyBase.loadPropertyBase_nil hq h]
      rfl

/-- A block is loaded where it comes from a property of the same type. -/
theorem loadProperty_bytes {typeName : StringAtom} (hq : q.base.dontSave = false)
    (htype : typeName.length < uint16Max) (hblock : block.length < 2 ^ 32)
    (h : Stream.Shows marshal (.ofBytes (PropertyBase.bytes typeName block))) :
    ∃ pBlock : Marshal, Stream.Shows pBlock (.ofBytes block) ∧
      (q.loadProperty (fuel + 1) marshal).map Prod.fst =
        if typeName = q.typeName then loadBlock (fuel + 1) (loadProperty fuel) pBlock q
        else some q := by
  have hahead := h.ahead
  rw [← List.append_nil (PropertyBase.bytes typeName block)] at hahead
  obtain ⟨pBlock, marshal', hload, hshows⟩ :=
    PropertyBase.loadPropertyBase_eq q.typeName hq htype hblock hahead
  refine ⟨pBlock, hshows, ?_⟩
  rw [loadProperty, hload]
  simp only [Option.bind_eq_bind, Option.bind_some]
  by_cases heq : typeName = q.typeName
  · rw [if_pos heq, if_pos heq]
    simp only [Option.map_map]
    exact Option.map_id'
  · rw [if_neg heq, if_neg heq]
    rfl

theorem loadProperty_eq_taken {r : Option Property} (h : Stream.Shows marshal (.ofBytes bytes))
    (hbytes : ¬base.isSaved = true → bytes = [])
    (hr : base.isSaved = true → q.base.dontSave = false →
      (q.loadProperty (fuel + 1) marshal).map Prod.fst = r) :
    (q.loadProperty (fuel + 1) marshal).map Prod.fst = taken base q r := by
  rw [taken]
  cases hdont : q.base.dontSave with
  | true =>
      rw [if_pos rfl, loadProperty, PropertyBase.loadPropertyBase, if_pos hdont]
      rfl
  | false =>
      rw [if_neg Bool.false_ne_true]
      split
      · exact hr ‹_› hdont
      · rename_i hsaved
        rw [hbytes hsaved] at h
        rw [loadProperty_nil hdont h]
        rfl

theorem typeName_ne_nil (q : Property) : q.typeName ≠ [] := by
  cases q <;> (simp only [typeName]; decide)

theorem length_typeName (q : Property) : q.typeName.length < 255 := by
  cases q <;> (simp only [typeName]; decide)

theorem depth_pos (q : Property) : 0 < q.depth := by
  cases q with
  | external base property => cases property <;> exact Nat.succ_pos _
  | _ => exact Nat.succ_pos _

theorem depth_le_depthAll (hq : q ∈ properties) : q.depth ≤ depthAll properties := by
  induction properties with
  | nil => cases hq
  | cons p properties ih =>
      rcases List.mem_cons.mp hq with rfl | hq
      · exact le_max_left _ _
      · exact (ih hq).trans (le_max_right _ _)

theorem namesDistinctAll_iff :
    NamesDistinctAll properties ↔ ∀ p ∈ properties, p.NamesDistinct := by
  induction properties with
  | nil => simp [NamesDistinctAll]
  | cons p properties ih => rw [NamesDistinctAll, ih, List.forall_mem_cons]

theorem length_saved_le (hp : p ∈ properties) (hsaved : p.isSaved = true) :
    p.saved.length ≤ (savedAll properties).length := by
  induction properties with
  | nil => cases hp
  | cons r properties ih =>
      rw [savedAll]
      rcases List.mem_cons.mp hp with rfl | hp
      · rw [if_pos hsaved]
        simp only [List.length_append]
        omega
      · have hle := ih hp
        split
        · simp only [List.length_append]
          omega
        · exact hle

theorem loadProperty_standard {value : StandardValue} (hshort : value.Short)
    (hsize : (saved (standard base value)).length < 2 ^ 32)
    (h : Stream.Shows marshal (.ofBytes (saved (standard base value)))) :
    (q.loadProperty (fuel + 1) marshal).map Prod.fst = loaded (standard base value) q := by
  rw [loaded]
  refine loadProperty_eq_taken h (saved_of_unsaved (p := standard base value))
    fun hbase hdont => ?_
  rw [saved, if_pos hbase] at h hsize
  rw [← StandardValue.isSome_bytes]
  cases hvalue : value.bytes with
  | none =>
      rw [hvalue] at h
      rw [loadProperty_nil hdont h]
      rfl
  | some bytes =>
      rw [hvalue, Option.elim_some] at h hsize
      rw [PropertyBase.length_bytes] at hsize
      obtain ⟨pBlock, hblock, heq⟩ := loadProperty_bytes hdont (by decide) (by omega) h
      rw [heq, Option.isSome_some, if_pos rfl]
      cases q with
      | standard base' value' =>
          have hname := StandardValue.length_toStringAtom value.type
          obtain ⟨s', hs', hahead⟩ := Marshal.readString_eq hblock.ahead
            (hname.trans (by decide))
          rw [if_pos (by rfl), loadBlock, hs']
          simp only [Option.bind_eq_bind, Option.bind_some]
          rw [StandardPropertyType.fromString_toStringAtom, loadedStandard]
          by_cases htype : value.type = value'.type
          · rw [if_neg (not_not.mpr (congrArg some htype)), if_pos htype,
              StandardValue.read_eq hvalue hshort htype hahead, Option.map_some]
          · rw [if_pos fun hsome => htype (Option.some.inj hsome), if_neg htype]
      | _ => exact if_neg (by simp only [typeName]; decide)

theorem loadProperty_path {value : Path} (hshort : value.text.length < 32768)
    (h : Stream.Shows marshal (.ofBytes (saved (path base value)))) :
    (q.loadProperty (fuel + 1) marshal).map Prod.fst = loaded (path base value) q := by
  rw [loaded]
  refine loadProperty_eq_taken h (saved_of_unsaved (p := path base value))
    fun hbase hdont => ?_
  rw [saved, if_pos hbase] at h
  obtain ⟨pBlock, hblock, heq⟩ := loadProperty_bytes hdont (by decide) (by
    rw [length_stringBytes]
    omega) h
  rw [heq]
  cases q with
  | path base' value' =>
      have hahead := hblock.ahead
      rw [← List.append_nil (stringBytes value.text)] at hahead
      obtain ⟨s', hs', -⟩ := Marshal.readString_eq hahead (hshort.trans (by decide))
      rw [if_pos (by rfl), loadBlock, hs']
      simp only [Option.bind_eq_bind, Option.bind_some]
      rw [value.ofString_text, Option.map_some, loadedPath]
  | _ => exact if_neg (by simp only [typeName]; decide)

theorem loadProperty_enum {value : StringAtom} (hshort : value.length < 32768)
    (h : Stream.Shows marshal (.ofBytes (saved (enum base value)))) :
    (q.loadProperty (fuel + 1) marshal).map Prod.fst = loaded (enum base value) q := by
  rw [loaded]
  refine loadProperty_eq_taken h (saved_of_unsaved (p := enum base value))
    fun hbase hdont => ?_
  rw [saved, if_pos hbase] at h
  obtain ⟨pBlock, hblock, heq⟩ := loadProperty_bytes hdont (by decide) (by
    rw [length_stringBytes]
    omega) h
  rw [heq]
  cases q with
  | enum base' value' =>
      have hahead := hblock.ahead
      rw [← List.append_nil (stringBytes value)] at hahead
      obtain ⟨s', hs', -⟩ := Marshal.readString_eq hahead (hshort.trans (by decide))
      rw [if_pos (by rfl), loadBlock, hs', Option.map_some, loadedEnum]
  | _ => exact if_neg (by simp only [typeName]; decide)

/-- Nothing is loaded from what an external property has saved. -/
theorem loadProperty_external {property : Option Property}
    (hsize : (saved (external base property)).length < 2 ^ 32)
    (h : Stream.Shows marshal (.ofBytes (saved (external base property)))) :
    (q.loadProperty (fuel + 1) marshal).map Prod.fst = loaded (external base property) q := by
  rw [loaded]
  refine loadProperty_eq_taken h (saved_of_unsaved (p := external base property))
    fun hbase hdont => ?_
  rw [saved_external, if_pos hbase] at h hsize
  simp only [List.length_append] at hsize
  have hname : (externalBytes property).length < 2 ^ 24 →
      ∀ n, (externalBytes property).take n ≠ q.typeName := fun hlength n => by
    cases property with
    | none =>
        rw [externalBytes, Option.elim_none, List.take_nil]
        exact (typeName_ne_nil q).symm
    | some p => exact take_saved_ne p q hlength n
  obtain ⟨marshal', hload⟩ := PropertyBase.loadPropertyBase_external hdont (by omega)
    (typeName_ne_nil q) (length_typeName q) hname h
  rw [loadProperty, hload]
  rfl

theorem loadProperty_container
    (hload : ∀ p ∈ properties, p.saved.length < 2 ^ 32 → ∀ q, q.NamesDistinct → q.depth ≤ fuel →
      ∀ chunk : Marshal, Stream.Shows chunk (.ofBytes p.saved) →
        (q.loadProperty fuel chunk).map Prod.fst = p.loaded q)
    (hlength : properties.length < 65536) (hshort : ShortAll properties)
    (hnames : (properties.map name).Nodup) (hq : q.NamesDistinct) (hfuel : q.depth ≤ fuel + 1)
    (hsize : (saved (container base properties)).length < 2 ^ 32)
    (h : Stream.Shows marshal (.ofBytes (saved (container base properties)))) :
    (q.loadProperty (fuel + 1) marshal).map Prod.fst = loaded (container base properties) q := by
  rw [loaded]
  refine loadProperty_eq_taken h (saved_of_unsaved (p := container base properties))
    fun hbase hdont => ?_
  rw [saved, if_pos hbase] at h hsize
  rw [PropertyBase.length_bytes] at hsize
  obtain ⟨pBlock, hblock, heq⟩ := loadProperty_bytes hdont (by decide) (by omega) h
  rw [heq]
  cases q with
  | container base' properties' =>
      simp only [List.length_append] at hsize
      obtain ⟨s', hs', hahead⟩ := Marshal.readNumber_eq .unsignedShort 2
        (properties.countP isSaved) hblock.ahead rfl rfl
        (List.countP_le_length.trans_lt hlength)
      rw [if_pos (by rfl), loadBlock, hs']
      simp only [Option.bind_eq_bind, Option.bind_some]
      obtain ⟨hnames', hdistinct⟩ := hq
      rw [depth] at hfuel
      rw [loadProperties_eq (fun p hp hsaved q hq _ => hload p hp
        ((length_saved_le hp hsaved).trans_lt (by omega)) q (namesDistinctAll_iff.mp hdistinct q hq)
        ((depth_le_depthAll hq).trans (Nat.le_of_succ_le_succ hfuel))) hshort (by omega) hnames
        hnames' hahead]
      rfl
  | _ => exact if_neg (by simp only [typeName]; decide)

/-- Saving and then loading, as far as the code goes. -/
theorem loadProperty_eq (hshort : p.Short) (hp : p.NamesDistinct) (hq : q.NamesDistinct)
    (hsize : p.saved.length < 2 ^ 32) (hfuel : q.depth ≤ fuel)
    (h : Stream.Shows marshal (.ofBytes p.saved)) :
    (q.loadProperty fuel marshal).map Prod.fst = p.loaded q := by
  obtain ⟨fuel, rfl⟩ := Nat.exists_eq_add_one.mpr ((depth_pos q).trans_le hfuel)
  induction p using induct generalizing q fuel marshal with
  | hstandard base value => exact loadProperty_standard hshort hsize h
  | hpath base value => exact loadProperty_path hshort h
  | henum base value => exact loadProperty_enum hshort h
  | hexternal base property => exact loadProperty_external hsize h
  | hcontainer base properties ih =>
      obtain ⟨hlength, hshort⟩ := hshort
      obtain ⟨hnames, hdistinct⟩ := hp
      refine loadProperty_container (fun p hp hlt q hq hdepth chunk hchunk => ?_) hlength hshort
        hnames hq hfuel hsize h
      obtain ⟨fuel, rfl⟩ := Nat.exists_eq_add_one.mpr ((depth_pos q).trans_le hdepth)
      exact ih p hp (shortAll_iff.mp hshort p hp).2 (namesDistinctAll_iff.mp hdistinct p hp) hq hlt
        hchunk fuel hdepth

/-- Saving gives the bytes of the property, and loading sees them. -/
theorem exists_saveProperty (hshort : p.Short) (hsize : p.saved.length < 2 ^ 32) :
    ∃ marshal, p.saveProperty Stream.empty = some marshal ∧
      Stream.Shows (marshal.setPosition 0) (.ofBytes p.saved) := by
  obtain ⟨marshal, hsave, hholds⟩ := saves hshort hsize Stream.empty [] Stream.holds_empty (by
    rw [List.length_nil]
    omega)
  rw [List.nil_append] at hholds
  exact ⟨marshal, hsave, hholds.ordered.setPosition UInt64.zero_le, hholds.size_eq, rfl,
    hholds.contents_eq⟩

theorem restores_iff_loaded (hshort : p.Short) (hp : p.NamesDistinct) (hq : q.NamesDistinct)
    (hsize : p.saved.length < 2 ^ 32) : p.Restores q ↔ p.loaded q = some (p.restored q) := by
  obtain ⟨marshal, hsave, hshows⟩ := exists_saveProperty hshort hsize
  have hload : ∀ fuel, q.depth ≤ fuel →
      (q.loadProperty fuel (marshal.setPosition 0)).map Prod.fst = p.loaded q :=
    fun fuel hfuel => loadProperty_eq hshort hp hq hsize hfuel hshows
  constructor
  · rintro ⟨marshal', hsave', hrestores⟩
    obtain rfl : marshal = marshal' := Option.some.inj (hsave.symm.trans hsave')
    exact (hload q.depth le_rfl).symm.trans (hrestores q.depth le_rfl)
  · exact fun heq => ⟨marshal, hsave, fun fuel hfuel => (hload fuel hfuel).trans heq⟩

/-- The properties survive saving where no external one is to change, and integers of 8 and 64 bits
are not met. -/
theorem restores_iff {p q : Property} (hshort : p.Short) (hp : p.NamesDistinct)
    (hq : q.NamesDistinct) (hsize : p.saved.length < 2 ^ 32) : p.Restores q ↔ p.Recovers q :=
  (restores_iff_loaded hshort hp hq hsize).trans (loaded_eq_iff p q)

end

/-- A mark, a model, and what is inside a container of its own. -/
def component (mark : Bool) (file : Path) (level : Int16) (shape : StringAtom) : Property :=
  container { name := [] } [standard { name := Text.lit "mark" } (.bool mark),
    path { name := Text.lit "file" } file,
    container { name := Text.lit "body" } [standard { name := Text.lit "level" } (.int16 level),
      enum { name := Text.lit "shape" } shape]]

theorem component_restores :
    (component true ⟨Text.lit "a/b", by decide, by decide⟩ (-3) (Text.lit "Box")).Restores
      (component false Path.empty 0 []) := by
  refine (restores_iff ?_ ?_ ?_ ?_).mpr ?_
  · simp only [component, Short, ShortAll, StandardValue.Short, name, base]
    decide
  · simp only [component, NamesDistinct, NamesDistinctAll, List.map_cons, name, base]
    decide
  · simp only [component, NamesDistinct, NamesDistinctAll, List.map_cons, name, base]
    decide
  · decide +kernel
  · exact (loaded_eq_iff _ _).mp rfl

/-- A mark that is kept elsewhere. -/
def reference (mark : Bool) : Property :=
  container { name := [] } [external { name := Text.lit "target" }
    (some (standard { name := Text.lit "mark" } (.bool mark)))]

theorem not_restores_reference :
    ((reference true).Short ∧ (reference true).NamesDistinct ∧ (reference false).NamesDistinct) ∧
      ¬(reference true).Restores (reference false) := by
  have hshort : (reference true).Short := by
    simp only [reference, Short, ShortAll, StandardValue.Short, name, base]
    decide
  have hdistinct : ∀ mark, (reference mark).NamesDistinct := fun mark => by
    simp [reference, NamesDistinct, NamesDistinctAll]
  refine ⟨⟨hshort, hdistinct true, hdistinct false⟩, fun h => ?_⟩
  rw [restores_iff_loaded hshort (hdistinct true) (hdistinct false) (by decide +kernel)] at h
  have hkept : some (reference false) = some (reference true) := h
  simp [reference] at hkept

end Property

end SRCommon
